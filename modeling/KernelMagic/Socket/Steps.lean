/-
  What one step of the event loop can do, and the rule for invariants that follows from it.

  `todo` are the requests that are queued, in flight or completed and not yet processed, as in
  `Server.Steps`. A step of the kernel turns one of them into its completion (`Transfer`); a turn of
  the loop takes a completion out and puts the requests it posts in (`Reaction`); every other step of
  the program, a crash included, leaves `todo` and the world as they are. So an invariant is a
  relation between `todo` and the world that the first two keep: `Keeps`, with the rule `run_keeps`.

  The user data always says what the request is (`Encoded`), except that the entry that was never
  prepared looks like an accept on descriptor 0. This part of the invariant is carried by the rule.
-/
import KernelMagic.Socket.Main

namespace KernelMagic.Socket

open KernelMagic.Lib

/-- The requests that are queued, in flight or completed and not processed, with their results. -/
def todo (s : State) : Multiset (Req × Option Int) := (s.ring.advance s.i).outstanding

/-- The completion that the next turn of the loop takes up. -/
def current (s : State) : Option (Cqe Req) :=
  if s.pc = .loop ∧ s.i < s.cqecount then s.ring.cq[s.i]? else none

/-- The completions that the loop goes through. -/
structure Window (s : State) : Prop where
  le : s.i ≤ s.cqecount
  le_length : s.cqecount ≤ s.ring.cq.length
  start : s.pc = .submit ∨ s.pc = .peek → s.i = 0

/-- The user data of a request, as it was written. -/
def Encoded (x : Req × Option Int) : Prop :=
  match x.1.op with
  | .nop => x.1.fd = 0 ∧ x.1.data = ⟨0, .accept⟩ ∧ ∀ r ∈ x.2, r = 0
  | .accept => x.1.data = ⟨x.1.fd, .accept⟩
  | .recv _ => x.1.data = ⟨x.1.fd, .read⟩
  | .send _ => x.1.data = ⟨x.1.fd, .write⟩

/-- The world and the ring after a turn of the loop that posts `news`. -/
def react (s : State) (news : List Req) (w : World) : State :=
  { s with ring := { s.ring with sq := s.ring.sq ++ news }, world := w }

/-! ## The two kinds of steps -/

/-- Request `q` completes with the given result. -/
inductive Transfer (env : Env) (w : World) (q : Req) : Int → Req → World → Prop
  | nop (hop : q.op = .nop) : Transfer env w q 0 q w
  | refused (res : Int) (hop : q.op = .accept) (hres : res < 0) : Transfer env w q res q w
  | accepted (fd : Nat) (hop : q.op = .accept) (hfd : q.fd = env.sockfd) (ht : w.table fd = none) :
      Transfer env w q fd (q.owned w.next) (w.accept fd)
  | failed (len : Nat) (res : Int) (hop : q.op = .recv len) (hres : res < 0) :
      Transfer env w q res q w
  | received (len : Nat) (bs : List UInt8) (hop : q.op = .recv len) (hlen : bs.length ≤ len) :
      Transfer env w q bs.length (q.filled (w.table q.fd) bs) (w.receive bs)
  | sent (len : Nat) (res : Int) (hop : q.op = .send len) (hres : res ≤ len) :
      Transfer env w q res q (w.transmit q len res.toNat)

/-- What a program does with the completion of a recv or a send: the requests it posts and the world
    after it. -/
def Service : Type := World → Cqe Req → List Req → World → Prop

/-- The loop takes up completion `x`. -/
inductive Reaction (R : Service) (w : World) (x : Cqe Req) : List Req → World → Prop
  | refused (hop : x.req.op = .accept) (hres : x.res < 0) : Reaction R w x [] w
  | adopted (hop : x.req.op = .accept) (hres : 0 ≤ x.res) :
      Reaction R w x [recvReq x.res.toNat maxline x.req.tag.owner, acceptReq x.req.fd]
        ((w.posted (recvReq x.res.toNat maxline x.req.tag.owner)).posted (acceptReq x.req.fd))
  | unprepared (hop : x.req.op = .nop) :
      Reaction R w x [recvReq 0 maxline x.req.tag.owner, acceptReq 0]
        ((w.posted (recvReq 0 maxline x.req.tag.owner)).posted (acceptReq 0))
  | served {news : List Req} {w' : World} (h : R w x news w') : Reaction R w x news w'

/-- The program does with the completions of its recvs and sends what `R` says, and `R` is about
    nothing else. -/
structure Serves (p : Program) (R : Service) : Prop where
  read : ∀ s x a t n, x.req.op = .recv n → x.req.data = ⟨x.req.fd, .read⟩ → p.onRead s x a = some t →
    ∃ news w, t = react s news w ∧ R s.world x news w
  write : ∀ s x a t n, x.req.op = .send n → x.req.data = ⟨x.req.fd, .write⟩ →
    p.onWrite s x a = some t → ∃ news w, t = react s news w ∧ R s.world x news w
  posts : ∀ w x news w', R w x news w' → ∀ q ∈ news, ∃ n, (∃ o, q = recvReq x.req.fd n o) ∨
    ∃ t, q = sendReq x.req.fd n t
  about : ∀ w x news w', R w x news w' → ∃ n, x.req.op = .recv n ∨ x.req.op = .send n
  accepted : ∀ w x news w', R w x news w' → w'.accepted = w.accepted
  table : ∀ w x news w', R w x news w' → ∀ fd, fd ≠ x.req.fd → w'.table fd = w.table fd
  history : ∀ w x news w', R w x news w' → ∃ ps, w'.posts = w.posts ++ ps ∧
    ∀ e ∈ ps, e.fd = x.req.fd ∧ e.op ≠ .accept ∧ e.given = w.accepted.contains x.req.fd

variable {env : Env} {p : Program} {R : Service} {s s' : State} {w w' : World} {q q' : Req}
  {x : Cqe Req}

/-- Both programs do the same at the end of the stream as after an error. -/
theorem ite_nonpos {α : Type} (res : Int) (a b : α) :
    (if res < 0 then a else if res = 0 then a else b) = if res ≤ 0 then a else b := by
  by_cases hlt : res < 0
  · rw [if_pos hlt, if_pos (Int.le_of_lt hlt)]
  · rw [if_neg hlt]
    exact if_congr (by omega) rfl rfl

theorem post_eq {t : State} (h : post s q = some t) : t = react s [q] (s.world.posted q) := by
  obtain ⟨r, hr, rfl⟩ := Option.map_eq_some_iff.mp h
  unfold IoRing.prep at hr
  split at hr
  · cases hr
    rfl
  · cases hr

theorem transfer_cases {res : Int} {bs : List UInt8}
    (h : transfer env w q res bs = some (q', w')) : Transfer env w q res q' w' := by
  unfold transfer at h
  split at h
  · next hop =>
    split at h
    · next hres =>
      cases h
      rw [hres]
      exact .nop hop
    · cases h
  · next hop =>
    split at h
    · next hres =>
      cases h
      exact .refused res hop hres
    · split at h
      · cases h
      · next hres hok =>
        rw [not_or, not_not, Option.not_isSome_iff_eq_none] at hok
        cases h
        have ht := Transfer.accepted res.toNat hop hok.1 hok.2
        rw [Int.toNat_of_nonneg (by omega)] at ht
        exact ht
  · next len hop =>
    split at h
    · next hres =>
      cases h
      exact .failed len res hop hres
    · split at h
      · cases h
      · next hres hok =>
        rw [not_or, not_not] at hok
        cases h
        have hcast : res = (bs.length : Int) := by omega
        rw [hcast]
        exact .received len bs hop (by omega)
  · next len hop =>
    split at h
    · cases h
    · cases h
      exact .sent len res hop (by omega)

theorem handleAccept_cases {t : State} (hres : 0 ≤ x.res) (h : handleAccept s x = some t) :
    t = react s [recvReq x.res.toNat maxline x.req.tag.owner, acceptReq x.req.data.connfd]
      ((s.world.posted (recvReq x.res.toNat maxline x.req.tag.owner)).posted
        (acceptReq x.req.data.connfd)) := by
  unfold handleAccept at h
  rw [if_neg (by omega)] at h
  obtain ⟨s₁, h₁, h₂⟩ := Option.bind_eq_some_iff.mp h
  rw [post_eq h₂, post_eq h₁]
  simp only [react, List.append_assoc, List.cons_append, List.nil_append]

theorem handle_cases (hp : Serves p R) {a : Answers} {t : State}
    (hx : Encoded (x.req, some x.res)) (h : handle p s x a = some t) :
    ∃ news w, t = react s news w ∧ Reaction R s.world x news w := by
  unfold Encoded at hx
  split at hx
  · next hop =>
    obtain ⟨hfd, hd, hr⟩ := hx
    have hres : x.res = 0 := hr x.res rfl
    simp only at hd hop
    unfold handle at h
    simp only [hd] at h
    have ht := handleAccept_cases (by omega) h
    rw [hd, hres] at ht
    exact ⟨_, _, ht, .unprepared hop⟩
  · next hop =>
    simp only at hx hop
    unfold handle at h
    simp only [hx] at h
    by_cases hres : x.res < 0
    · rw [handleAccept, if_pos hres] at h
      cases h
      refine ⟨[], s.world, ?_, .refused hop hres⟩
      simp [react]
    · have ht := handleAccept_cases (by omega) h
      rw [hx] at ht
      exact ⟨_, _, ht, .adopted hop (by omega)⟩
  · next n hop =>
    simp only at hx hop
    unfold handle at h
    simp only [hx] at h
    obtain ⟨news, w, ht, hR⟩ := hp.read s x a t n hop hx h
    exact ⟨news, w, ht, .served hR⟩
  · next n hop =>
    simp only at hx hop
    unfold handle at h
    simp only [hx] at h
    obtain ⟨news, w, ht, hR⟩ := hp.write s x a t n hop hx h
    exact ⟨news, w, ht, .served hR⟩

/-- What a turn of the loop puts in place of the completion. -/
theorem news_nil (P : Multiset (Req × Option Int)) :
    ((([] : List Req).map (·, none) : List (Req × Option Int)) : Multiset _) + P = P := by
  simp

theorem news_one (q : Req) (P : Multiset (Req × Option Int)) :
    (([q].map (·, none) : List (Req × Option Int)) : Multiset _) + P = (q, none) ::ₘ P := by
  simp

theorem news_two (q r : Req) (P : Multiset (Req × Option Int)) :
    (([q, r].map (·, none) : List (Req × Option Int)) : Multiset _) + P =
      (r, none) ::ₘ (q, none) ::ₘ P := by
  rw [Multiset.cons_swap, List.map_cons, ← Multiset.cons_coe, Multiset.cons_add, news_one]

/-! ## The rule -/

/-- The two kinds of steps keep `I` when they meet `P`. -/
structure Keeps (env : Env) (R : Service) (P : State → Act → Prop)
    (I : Multiset (Req × Option Int) → World → Prop) : Prop where
  kernel : ∀ s i res bs q q' w Q, P s (.complete i res bs) → s.ring.inflight[i]? = some q →
    Transfer env s.world q res q' w → todo s = (q, none) ::ₘ Q → Encoded (q, none) →
    I (todo s) s.world → I ((q', some res) ::ₘ Q) w
  prog : ∀ s a x news w Q, P s (.prog a) → current s = some x → Reaction R s.world x news w →
    todo s = (x.req, some x.res) ::ₘ Q → Encoded (x.req, some x.res) →
    I (todo s) s.world → I ((news.map (·, none) : List (Req × Option Int)) + Q) w

structure Inv (I : Multiset (Req × Option Int) → World → Prop) (s : State) : Prop where
  window : Window s
  encoded : ∀ x ∈ todo s, Encoded x
  holds : I (todo s) s.world

theorem encoded_finish {res : Int} (h : Encoded (q, none)) (ht : Transfer env w q res q' w') :
    Encoded (q', some res) := by
  unfold Encoded at h ⊢
  cases ht with
  | nop hop =>
    simp only [hop] at h ⊢
    exact ⟨h.1, h.2.1, fun r hr => (Option.some.inj hr).symm⟩
  | refused res hop hres =>
    simp only [hop] at h ⊢
    exact h
  | accepted fd hop hfd ht =>
    simp only [Req.owned, hop] at h ⊢
    exact h
  | failed len res hop hres =>
    simp only [hop] at h ⊢
    exact h
  | received len bs hop hlen =>
    simp only [Req.filled, hop] at h ⊢
    exact h
  | sent len res hop hres =>
    simp only [hop] at h ⊢
    exact h

theorem encoded_news {news : List Req} (hp : Serves p R) (h : Reaction R w x news w') :
    ∀ q ∈ news, Encoded (q, none) := by
  cases h with
  | refused hop hres => simp
  | adopted hop hres => simp [Encoded, recvReq, acceptReq]
  | unprepared hop => simp [Encoded, recvReq, acceptReq]
  | served hR =>
    intro q hq
    obtain ⟨n, ⟨o, rfl⟩ | ⟨t, rfl⟩⟩ := hp.posts _ _ _ _ hR q hq
    · rfl
    · rfl

variable {P : State → Act → Prop} {I : Multiset (Req × Option Int) → World → Prop}

theorem todo_head (hx : s.ring.cq[s.i]? = some x) :
    todo s = (x.req, some x.res) ::ₘ (s.ring.advance (s.i + 1)).outstanding :=
  IoRing.outstanding_head hx

theorem todo_react (news : List Req) (w : World) :
    todo { react s news w with i := s.i + 1 } =
      (news.map (·, none) : List (Req × Option Int)) +
        (s.ring.advance (s.i + 1)).outstanding :=
  IoRing.outstanding_append (s.ring.advance (s.i + 1)) news

theorem kernelStep_keeps (hk : Keeps env R P I) {i : Nat} {res : Int} {bs : List UInt8}
    (hi : Inv I s) (hP : P s (.complete i res bs)) (h : kernelStep env s i res bs = some s') :
    Inv I s' := by
  unfold kernelStep at h
  obtain ⟨q, hq, h⟩ := Option.bind_eq_some_iff.mp h
  obtain ⟨⟨q', w⟩, ht, rfl⟩ := Option.map_eq_some_iff.mp h
  have hwin := hi.window
  have hle : s.i ≤ s.ring.cq.length := hwin.le.trans hwin.le_length
  obtain ⟨Q, hQ, hQ'⟩ := IoRing.outstanding_finish_behind hq hle q' res
  have hT := transfer_cases ht
  have henc := hi.encoded
  rw [show todo s = (q, none) ::ₘ Q from hQ, Multiset.forall_mem_cons] at henc
  refine ⟨⟨hwin.le, ?_, hwin.start⟩, ?_, ?_⟩
  · simp only [List.length_append]
    exact hwin.le_length.trans (Nat.le_add_right _ _)
  · unfold todo
    simp only
    rw [hQ', Multiset.forall_mem_cons]
    exact ⟨encoded_finish henc.1 hT, henc.2⟩
  · unfold todo
    simp only
    rw [hQ']
    exact hk.kernel s i res bs q q' w Q hP hq hT hQ henc.1 hi.holds

/-- A step that leaves `todo` and the world as they are. -/
theorem Inv.same (hi : Inv I s) (hw : Window s') (htodo : todo s' = todo s)
    (hworld : s'.world = s.world) : Inv I s' :=
  ⟨hw, by rw [htodo]; exact hi.encoded, by rw [htodo, hworld]; exact hi.holds⟩

theorem loopStep_keeps (hp : Serves p R) (hk : Keeps env R P I) {a : Answers} (hi : Inv I s)
    (hpc : s.pc = .loop) (hP : P s (.prog a)) : Inv I (loopStep p s a) := by
  have hwin := hi.window
  have hle := hwin.le
  have hlen := hwin.le_length
  unfold loopStep
  by_cases hlt : s.i < s.cqecount
  · rw [if_pos hlt]
    have hx := List.getElem?_eq_getElem (show s.i < s.ring.cq.length by omega)
    have hhead := todo_head hx
    have hcur : current s = some s.ring.cq[s.i] := by
      rw [current, if_pos ⟨hpc, hlt⟩, hx]
    have henc := hi.encoded
    rw [hhead, Multiset.forall_mem_cons] at henc
    rw [hx, Option.bind_some]
    cases hh : handle p s s.ring.cq[s.i] a with
    | none =>
      simp only
      exact hi.same ⟨hle, hlen, by simp⟩ rfl rfl
    | some t =>
      simp only
      obtain ⟨news, w, rfl, hR⟩ := handle_cases hp henc.1 hh
      refine ⟨⟨?_, ?_, ?_⟩, ?_, ?_⟩
      · simp only [react]
        omega
      · exact hlen
      · simp [react, hpc]
      · rw [todo_react]
        intro y hy
        rcases Multiset.mem_add.mp hy with hy | hy
        · obtain ⟨q, hq, rfl⟩ := List.mem_map.mp hy
          exact encoded_news hp hR q hq
        · exact henc.2 y hy
      · rw [todo_react]
        exact hk.prog s a _ news w _ hP hcur hR hhead henc.1 hi.holds
  · rw [if_neg hlt]
    have hic : s.i = s.cqecount := by omega
    refine hi.same ⟨Nat.le_refl _, Nat.zero_le _, fun _ => rfl⟩ ?_ rfl
    simp only [todo, hic]
    rfl

theorem step_keeps (hp : Serves p R) (hk : Keeps env R P I) (s : State) (a : Act) (s' : State)
    (hi : Inv I s) (hP : P s a) (h : step env p s a = some s') : Inv I s' := by
  have hwin := hi.window
  match a with
  | .complete i res bs => exact kernelStep_keeps hk hi hP h
  | .prog a =>
    simp only [step, progStep] at h
    split at h
    · next hpc =>
      cases h
      have h0 := hwin.start (.inl hpc)
      refine hi.same ⟨hwin.le, ?_, fun _ => h0⟩ ?_ rfl
      · simp only [IoRing.cq_submit]
        exact hwin.le_length
      · simp only [todo, h0]
        exact IoRing.outstanding_submit s.ring a.submit
    · next hpc =>
      unfold peekStep at h
      split at h
      · cases h
      · cases h
        refine hi.same ⟨Nat.zero_le _, Nat.min_le_right _ _, fun _ => rfl⟩ ?_ rfl
        simp only [todo, hwin.start (.inr hpc)]
    · next hpc =>
      cases h
      exact loopStep_keeps hp hk hi hpc hP
    · cases h

theorem todo_init (env : Env) :
    todo (init env) = (unprepared, none) ::ₘ (acceptReq env.sockfd, none) ::ₘ 0 := rfl

theorem run_keeps (hp : Serves p R) (hk : Keeps env R P I) {acts : List Act}
    (h0 : I ((unprepared, none) ::ₘ (acceptReq env.sockfd, none) ::ₘ 0) (init env).world)
    (hP : Along (step env p) P (init env) acts) (hr : run (step env p) (init env) acts = some s) :
    Inv I s := by
  refine run_inv (step_keeps hp hk) ⟨⟨Nat.le_refl _, Nat.zero_le _, fun _ => rfl⟩, ?_, ?_⟩ hP hr
  · rw [todo_init]
    simp [Encoded, unprepared, acceptReq]
  · rw [todo_init]
    exact h0

end KernelMagic.Socket
