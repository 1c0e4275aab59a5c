/-
  `io_uring/socket_uring.c`: a client asks for a file, is sent the file, and is hung up on.

  `render` cuts the path out of the shared buffer with two `strtok`s and knows nothing of how many
  bytes the recv has delivered: behind them is what earlier requests have left there. The bytes decide
  the path alone when they contain its end (`PathEnds`), and `render` stays inside the buffer for sure
  when they contain the end of the URL (`UrlEnds`); `request_isolation`, for a request whose bytes no
  other recv delivers into (`Undisturbed`). `request_stale` is a request that has neither.
-/
import KernelMagic.Lib.History
import KernelMagic.Socket.Buffer
import KernelMagic.Socket.Render

namespace KernelMagic.Socket.Uring

open KernelMagic.Lib

/-- What `render` leaves before its `close`. -/
def rendered (w : World) (sockFd : Nat) (path buf : List UInt8) (file : Option (List UInt8)) :
    World :=
  { w with
    buffer := buf
    opens := w.opens ++ [path]
    replies := w.replies ++ (response file).map fun m => (sockFd, m) }

/-- `render`. -/
def render (s : State) (sockFd : Nat) (o : Owner) (a : Answers) : Option State :=
  (filePath s.world.buffer).map fun r =>
    closeFd { s with world := rendered s.world sockFd r.1 r.2 a.file } sockFd o

/-- `EVENT_READ`; a client that hangs up is not closed. -/
def onRead (s : State) (x : Cqe Req) (a : Answers) : Option State :=
  if x.res < 0 then some s
  else if x.res = 0 then some s
  else render s x.req.data.connfd x.req.tag.owner a

/-- `EVENT_WRITE`. -/
def onWrite (s : State) (x : Cqe Req) (_ : Answers) : Option State :=
  setRecvEvent s x.req.data.connfd maxline x.req.tag.owner

def program : Program := ⟨onRead, onWrite⟩

/-! ## What the loop does with a completion -/

inductive Serve (w : World) (x : Cqe Req) : List Req → World → Prop
  | ignored (len : Nat) (hop : x.req.op = .recv len) (hres : x.res ≤ 0) : Serve w x [] w
  | answered (len : Nat) (path buf : List UInt8) (file : Option (List UInt8))
      (hop : x.req.op = .recv len) (hres : 0 < x.res) (hpath : filePath w.buffer = some (path, buf)) :
      Serve w x [] ((rendered w x.req.fd path buf file).close x.req.fd x.req.tag.owner)
  | resumed (len : Nat) (hop : x.req.op = .send len) :
      Serve w x [recvReq x.req.fd maxline x.req.tag.owner]
        (w.posted (recvReq x.req.fd maxline x.req.tag.owner))

theorem serves : Serves program Serve where
  read := by
    intro s x a t n hop hd h
    have h : onRead s x a = some t := h
    simp only [onRead, hd] at h
    rw [ite_nonpos] at h
    by_cases hres : x.res ≤ 0
    · rw [if_pos hres] at h
      refine ⟨[], _, ?_, .ignored n hop hres⟩
      rw [← Option.some.inj h]
      simp [react]
    · rw [if_neg hres] at h
      obtain ⟨⟨path, buf⟩, hpath, rfl⟩ := Option.map_eq_some_iff.mp h
      refine ⟨[], _, ?_, .answered n path buf a.file hop (by omega) hpath⟩
      simp [closeFd, react]
  write := by
    intro s x a t n hop hd h
    have h : onWrite s x a = some t := h
    simp only [onWrite, hd] at h
    exact ⟨_, _, post_eq h, .resumed n hop⟩
  posts := by
    intro w x news w' h q hq
    cases h with
    | ignored len hop hres => cases hq
    | answered len path buf file hop hres hpath => cases hq
    | resumed len hop =>
      rw [List.mem_singleton] at hq
      exact ⟨_, .inl ⟨_, hq⟩⟩
  about := by
    intro w x news w' h
    cases h with
    | ignored len hop hres => exact ⟨len, .inl hop⟩
    | answered len path buf file hop hres hpath => exact ⟨len, .inl hop⟩
    | resumed len hop => exact ⟨len, .inr hop⟩
  accepted := by
    intro w x news w' h
    cases h <;> rfl
  table := by
    intro w x news w' h fd hfd
    cases h with
    | ignored len hop hres => rfl
    | answered len path buf file hop hres hpath => exact Function.update_of_ne hfd _ _
    | resumed len hop => rfl
  history := by
    intro w x news w' h
    cases h with
    | ignored len hop hres => exact ⟨[], (List.append_nil _).symm, by simp⟩
    | answered len path buf file hop hres hpath => exact ⟨[], (List.append_nil _).symm, by simp⟩
    | resumed len hop => exact ⟨_, rfl, by simp [recvReq]⟩

/-! ## The path of a request -/

variable {env : Env} {s t : State} {w w' : World} {x : Cqe Req} {P : Multiset (Req × Option Int)}

/-- The bytes of a request stay in front of the buffer until it is processed. -/
theorem clean_prog {news : List Req} (h : Clean ((x.req, some x.res) ::ₘ P) w.buffer)
    (hr : Reaction Serve w x news w') :
    Clean ((news.map (·, none) : List (Req × Option Int)) + P) w'.buffer := by
  cases hr with
  | refused hop hres => exact h.swap (by simp)
  | adopted hop hres => exact h.swap (by simp [busy, recvReq, acceptReq])
  | unprepared hop => exact h.swap (by simp [busy, recvReq, acceptReq])
  | served hs =>
    cases hs with
    | ignored len hop hres => exact h.swap (by simp)
    | answered len path buf file hop hres hpath =>
      rw [news_nil]
      exact clean_of_idle (h.others (by simp [busy, hop, hres])) _
    | resumed len hop => exact h.swap (by simp [busy, recvReq])

theorem clean_keeps : Keeps env Serve Quiet fun P w => Clean P w.buffer where
  kernel := by
    intro s i res bs q q' w Q hP hq ht htodo henc h
    rw [htodo] at h
    exact clean_transfer h (hP.others hq htodo) ht
  prog := by
    intro s a x news w Q hP hx hr htodo henc h
    rw [htodo] at h
    exact clean_prog h hr

theorem clean_step (s : State) (a : Act) (t : State) (hi : Inv (fun P w => Clean P w.buffer) s)
    (hq : Quiet s a) (hs : step env program s a = some t) :
    Inv (fun P w => Clean P w.buffer) t :=
  step_keeps serves clean_keeps s a t hi hq hs

/-- From some state on in which no bytes wait for the loop, no recv delivers into those of another:
    what the clients have done to each other before does not matter. -/
def Undisturbed (env : Env) (acts : List Act) : Prop :=
  ∃ pre post s₀, acts = pre ++ post ∧ run (step env program) (init env) pre = some s₀ ∧
    (∀ y ∈ todo s₀, busy y = false) ∧ Along (step env program) Quiet s₀ post

theorem Undisturbed.of_quiet {acts : List Act} (hq : Along (step env program) Quiet (init env) acts) :
    Undisturbed env acts := by
  refine ⟨[], acts, init env, rfl, rfl, ?_, hq⟩
  rw [todo_init]
  simp [busy, unprepared, acceptReq]

theorem Undisturbed.clean {acts : List Act} (hq : Undisturbed env acts)
    (hr : run (step env program) (init env) acts = some s) :
    Inv (fun P w => Clean P w.buffer) s := by
  obtain ⟨pre, post, s₀, rfl, hpre, hidle, hpost⟩ := hq
  obtain ⟨u, hu, hr⟩ := run_append_eq_some.mp hr
  obtain rfl : s₀ = u := Option.some.inj (hpre.symm.trans hu)
  have hinv : Inv (fun _ _ => True) s₀ := by
    refine Socket.run_keeps (P := fun _ _ => True) serves ⟨by simp, by simp⟩ trivial ?_ hpre
    exact along_of_forall (Q := fun _ => True) (fun _ _ h => h) _ _ fun _ _ => trivial
  exact run_inv clean_step ⟨hinv.window, hinv.encoded, clean_of_idle hidle _⟩ hpost hr

theorem current_spec (h : current s = some x) :
    s.pc = .loop ∧ s.i < s.cqecount ∧ s.ring.cq[s.i]? = some x := by
  unfold current at h
  split at h
  · next hc => exact ⟨hc.1, hc.2, h⟩
  · cases h

/-- The turn of the loop that takes up a request. -/
theorem step_render {a : Answers} (hx : current s = some x)
    (hd : x.req.data = ⟨x.req.fd, .read⟩) (hres : 0 < x.res) :
    step env program s (.prog a) = some
      (match filePath s.world.buffer with
      | none => { s with pc := .fault }
      | some r => { closeFd { s with world := rendered s.world x.req.fd r.1 r.2 a.file } x.req.fd
          x.req.tag.owner with i := s.i + 1 }) := by
  obtain ⟨hpc, hi, hcq⟩ := current_spec hx
  have hh : handle program s x a = render s x.req.fd x.req.tag.owner a := by
    simp only [handle, hd, program, onRead]
    rw [if_neg (by omega), if_neg (by omega)]
  simp only [step, progStep, hpc, loopStep, if_pos hi, hcq, Option.bind_some, hh, render]
  cases filePath s.world.buffer with
  | none => rfl
  | some r => rfl

/-- A run has come to the completion of a recv that has delivered `bs` and was not disturbed, and the
    next turn of the loop takes it up. -/
structure Request (env : Env) (acts : List Act) (s : State) (bs : List UInt8) : Prop where
  undisturbed : Undisturbed env acts
  run : run (step env program) (init env) acts = some s
  taken : ∃ x n, current s = some x ∧ x.req.op = .recv n ∧ 0 < x.res ∧ x.req.tag.bytes = bs

theorem Request.step_eq {acts : List Act} {bs : List UInt8} (h : Request env acts s bs)
    (a : Answers) :
    ∃ stale fd o, step env program s (.prog a) = some
      (match filePath (bs ++ stale) with
      | none => { s with pc := .fault }
      | some r => { closeFd { s with world := rendered s.world fd r.1 r.2 a.file } fd o with
          i := s.i + 1 }) := by
  obtain ⟨x, n, hx, hop, hres, rfl⟩ := h.taken
  have hi := h.undisturbed.clean h.run
  obtain ⟨-, -, hcq⟩ := current_spec hx
  have hmem : (x.req, some x.res) ∈ todo s := by
    rw [todo_head hcq]
    exact Multiset.mem_cons_self _ _
  have hd : x.req.data = ⟨x.req.fd, .read⟩ := by
    have := hi.encoded _ hmem
    simpa only [Encoded, hop] using this
  obtain ⟨⟨stale, hbuf⟩, -⟩ := hi.holds.held _ hmem (by simp [busy, hop, hres])
  simp only at hbuf
  refine ⟨stale, x.req.fd, x.req.tag.owner, ?_⟩
  rw [hbuf]
  exact step_render hx hd hres

theorem Request.opens {acts : List Act} {bs : List UInt8} (h : Request env acts s bs)
    (hends : PathEnds bs) {a : Answers} (ht : step env program s (.prog a) = some t)
    (hpc : t.pc ≠ .fault) : t.world.opens = s.world.opens ++ [urlPath bs] := by
  obtain ⟨stale, fd, o, hstep⟩ := h.step_eq a
  rw [hstep] at ht
  cases hr : filePath (bs ++ stale) with
  | none =>
    rw [hr] at ht
    cases ht
    exact absurd rfl hpc
  | some r =>
    rw [hr] at ht
    cases ht
    rw [← filePath_bytes hends hr]
    rfl

theorem Request.no_fault {acts : List Act} {bs : List UInt8} (h : Request env acts s bs)
    (hends : UrlEnds bs) (a : Answers) :
    ∃ t, step env program s (.prog a) = some t ∧ t.pc ≠ .fault := by
  obtain ⟨stale, fd, o, hstep⟩ := h.step_eq a
  obtain ⟨x, -, hx, -⟩ := h.taken
  obtain ⟨buf', hr⟩ := filePath_eq (hends.append stale)
  rw [hr] at hstep
  refine ⟨_, hstep, ?_⟩
  simp [closeFd, (current_spec hx).1]

/-- Two runs take up requests of the same bytes: both open the same path, which the bytes decide. -/
theorem request_isolation (bs : List UInt8) (env₁ env₂ : Env) (acts₁ acts₂ : List Act)
    (s₁ s₂ : State) (a₁ a₂ : Answers) (h₁ : Request env₁ acts₁ s₁ bs)
    (h₂ : Request env₂ acts₂ s₂ bs) (hends : PathEnds bs) :
    (∀ t₁ t₂, step env₁ program s₁ (.prog a₁) = some t₁ → t₁.pc ≠ .fault →
      step env₂ program s₂ (.prog a₂) = some t₂ → t₂.pc ≠ .fault →
      ∃ path, t₁.world.opens = s₁.world.opens ++ [path] ∧
        t₂.world.opens = s₂.world.opens ++ [path] ∧ path = urlPath bs) ∧
    (UrlEnds bs → ∃ t₁ t₂, step env₁ program s₁ (.prog a₁) = some t₁ ∧ t₁.pc ≠ .fault ∧
      step env₂ program s₂ (.prog a₂) = some t₂ ∧ t₂.pc ≠ .fault) := by
  refine ⟨fun t₁ t₂ ht₁ hp₁ ht₂ hp₂ => ?_, fun hurl => ?_⟩
  · exact ⟨urlPath bs, h₁.opens hends ht₁ hp₁, h₂.opens hends ht₂ hp₂, rfl⟩
  · obtain ⟨t₁, ht₁, hp₁⟩ := h₁.no_fault hurl a₁
    obtain ⟨t₂, ht₂, hp₂⟩ := h₂.no_fault hurl a₂
    exact ⟨t₁, t₂, ht₁, hp₁, ht₂, hp₂⟩

/-- The first request is `bs`. -/
def firstRequest (bs : List UInt8) : List Act :=
  [.prog {}, .complete 0 0 [], .complete 0 5 [], .prog {}, .prog {}, .prog {}, .prog {}, .prog {},
    .complete 2 bs.length bs, .prog {}]

/-- It comes after a request for `/xyz`, on a descriptor that has been closed in between. -/
def secondRequest (bs : List UInt8) : List Act :=
  [.prog {}, .complete 0 0 [], .complete 0 5 [], .prog {}, .prog {}, .prog {}, .prog {}, .prog {},
    .complete 2 13 (ascii "GET /xyz HTTP"), .prog {}, .prog {}, .prog {}, .prog {},
    .complete 2 5 [], .prog {}, .prog {}, .prog {}, .prog {}, .complete 2 bs.length bs, .prog {}]

/-- The request that the loop takes up next. -/
def taken (s : State) : Option (Op × Int × List UInt8) :=
  (current s).map fun x => (x.req.op, x.res, x.req.tag.bytes)

theorem request_of_taken {acts : List Act} {n : Nat} {res : Int} {bs : List UInt8}
    (hq : Along (step env program) Quiet (init env) acts)
    (hr : run (step env program) (init env) acts = some s)
    (ht : taken s = some (.recv n, res, bs)) (hres : 0 < res) : Request env acts s bs := by
  obtain ⟨x, hx, he⟩ := Option.map_eq_some_iff.mp ht
  obtain ⟨hop, he⟩ := Prod.mk.inj he
  obtain ⟨rfl, hbs⟩ := Prod.mk.inj he
  exact ⟨.of_quiet hq, hr, x, n, hx, hop, hres, hbs⟩

theorem request_isolation_get :
    ∃ s₁ s₂ t₁ t₂,
      run (step env₀ program) (init env₀) (firstRequest (ascii "GET /a ")) = some s₁ ∧
      run (step env₀ program) (init env₀) (secondRequest (ascii "GET /a ")) = some s₂ ∧
      step env₀ program s₁ (.prog {}) = some t₁ ∧ step env₀ program s₂ (.prog {}) = some t₂ ∧
      t₁.world.opens = s₁.world.opens ++ [ascii ".//a"] ∧
      t₂.world.opens = s₂.world.opens ++ [ascii ".//a"] := by
  have h₁ : (run (step env₀ program) (init env₀) (firstRequest (ascii "GET /a "))).map taken =
      some (some (.recv 4096, 7, ascii "GET /a ")) := by
    decide +kernel
  have h₂ : (run (step env₀ program) (init env₀) (secondRequest (ascii "GET /a "))).map taken =
      some (some (.recv 4096, 7, ascii "GET /a ")) := by
    decide +kernel
  obtain ⟨s₁, hr₁, ht₁⟩ := Option.map_eq_some_iff.mp h₁
  obtain ⟨s₂, hr₂, ht₂⟩ := Option.map_eq_some_iff.mp h₂
  have hq₁ := request_of_taken (by decide +kernel) hr₁ ht₁ (by decide)
  have hq₂ := request_of_taken (by decide +kernel) hr₂ ht₂ (by decide)
  have hurl : UrlEnds (ascii "GET /a ") := by decide +kernel
  have h := request_isolation (ascii "GET /a ") env₀ env₀ _ _ s₁ s₂ {} {} hq₁ hq₂ hurl.pathEnds
  obtain ⟨t₁, t₂, hs₁, hp₁, hs₂, hp₂⟩ := h.2 hurl
  obtain ⟨path, ho₁, ho₂, hpath⟩ := h.1 t₁ t₂ hs₁ hp₁ hs₂ hp₂
  rw [show urlPath (ascii "GET /a ") = ascii ".//a" by decide +kernel] at hpath
  rw [hpath] at ho₁ ho₂
  exact ⟨s₁, s₂, t₁, t₂, hr₁, hr₂, hs₁, hs₂, ho₁, ho₂⟩

/-- The same six bytes, `GET /a`: behind them is the rest of the earlier path. -/
theorem request_stale :
    ∃ s₁ s₂ t₁ t₂, Request env₀ (firstRequest (ascii "GET /a")) s₁ (ascii "GET /a") ∧
      Request env₀ (secondRequest (ascii "GET /a")) s₂ (ascii "GET /a") ∧
      step env₀ program s₁ (.prog {}) = some t₁ ∧ step env₀ program s₂ (.prog {}) = some t₂ ∧
      t₁.world.opens = [ascii ".//a"] ∧ t₂.world.opens = [ascii ".//xyz", ascii ".//ayz"] := by
  have h₁ : (run (step env₀ program) (init env₀) (firstRequest (ascii "GET /a"))).map (fun s =>
      (taken s, (step env₀ program s (.prog {})).map fun t => t.world.opens)) =
      some (some (.recv 4096, 6, ascii "GET /a"), some [ascii ".//a"]) := by
    decide +kernel
  have h₂ : (run (step env₀ program) (init env₀) (secondRequest (ascii "GET /a"))).map (fun s =>
      (taken s, (step env₀ program s (.prog {})).map fun t => t.world.opens)) =
      some (some (.recv 4096, 6, ascii "GET /a"), some [ascii ".//xyz", ascii ".//ayz"]) := by
    decide +kernel
  obtain ⟨s₁, hr₁, he₁⟩ := Option.map_eq_some_iff.mp h₁
  obtain ⟨s₂, hr₂, he₂⟩ := Option.map_eq_some_iff.mp h₂
  obtain ⟨ht₁, ho₁⟩ := Prod.mk.inj he₁
  obtain ⟨ht₂, ho₂⟩ := Prod.mk.inj he₂
  obtain ⟨t₁, hs₁, ho₁⟩ := Option.map_eq_some_iff.mp ho₁
  obtain ⟨t₂, hs₂, ho₂⟩ := Option.map_eq_some_iff.mp ho₂
  exact ⟨s₁, s₂, t₁, t₂, request_of_taken (by decide +kernel) hr₁ ht₁ (by decide),
    request_of_taken (by decide +kernel) hr₂ ht₂ (by decide), hs₁, hs₂, ho₁, ho₂⟩

end KernelMagic.Socket.Uring
