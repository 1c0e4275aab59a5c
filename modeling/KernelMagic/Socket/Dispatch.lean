/-
  The entry that is taken before the loop and never prepared, in both programs of `Socket`.

  Its user data is that of an accept on descriptor 0, and its result 0 that of an accept that has
  returned descriptor 0. So when the loop takes up its completion, it posts a recv and an accept on
  descriptor 0, which nobody has accepted and which does not listen. `dispatch_iff`: the requests are
  those the program means to make exactly until then. (`socket_uring_server.c` has a check for this.)
-/
import KernelMagic.Socket.Normal
import KernelMagic.Socket.Uring

namespace KernelMagic.Socket

open KernelMagic.Lib

/-- Recvs are posted on descriptors that an accept on the listening socket has returned, accepts on
    the listening socket. -/
def Dispatched (env : Env) (w : World) : Prop :=
  ∀ e ∈ w.posts, (∀ n, e.op = .recv n → e.given = true) ∧ (e.op = .accept → e.fd = env.sockfd)

/-- The unprepared entry has not been processed. -/
def Unprocessed (P : Multiset (Req × Option Int)) : Prop := ∃ x ∈ P, x.1.op = .nop

/-- The request is one that the program means to make. -/
def Meant (env : Env) (accepted : List Nat) (x : Req × Option Int) : Prop :=
  match x.1.op with
  | .nop => True
  | .accept => x.1.fd = env.sockfd ∧ ∀ r ∈ x.2, 0 ≤ r → r.toNat ∈ accepted
  | .recv _ => x.1.fd ∈ accepted
  | .send _ => x.1.fd ∈ accepted

structure Proper (env : Env) (P : Multiset (Req × Option Int)) (w : World) : Prop where
  meant : ∀ x ∈ P, Meant env w.accepted x
  listen : env.sockfd ∉ w.accepted
  table : w.table env.sockfd = some .own
  posts : Dispatched env w

/-- How many entries there are that were never prepared. -/
def nops (P : Multiset (Req × Option Int)) : Nat := P.countP fun x => x.1.op = .nop

structure Dispatch (env : Env) (P : Multiset (Req × Option Int)) (w : World) : Prop where
  once : nops P ≤ 1
  proper : Unprocessed P → Proper env P w
  spoilt : ¬ Unprocessed P → ¬ Dispatched env w

variable {env : Env} {p : Program} {R : Service} {s : State} {w w' : World} {q q' : Req}
  {c : Cqe Req} {P : Multiset (Req × Option Int)} {x : Req × Option Int}

theorem Meant.mono {l l' : List Nat} (h : Meant env l x) (hl : ∀ fd ∈ l, fd ∈ l') :
    Meant env l' x := by
  unfold Meant at h ⊢
  split at h
  · trivial
  · exact ⟨h.1, fun r hr h0 => hl _ (h.2 r hr h0)⟩
  · exact hl _ h
  · exact hl _ h

theorem nops_cons : nops (x ::ₘ P) = nops P + if x.1.op = .nop then 1 else 0 :=
  Multiset.countP_cons _ x P

theorem Dispatched.of_append (ps : List Post) (h : Dispatched env w')
    (hp : w'.posts = w.posts ++ ps) : Dispatched env w := by
  intro e he
  refine h e ?_
  rw [hp]
  exact List.mem_append_left _ he

theorem transfer_op {res : Int} (ht : Transfer env w q res q' w') : q'.op = q.op := by
  cases ht <;> rfl

theorem transfer_posts {res : Int} (ht : Transfer env w q res q' w') : w'.posts = w.posts := by
  cases ht <;> rfl

theorem unprocessed_congr {y : Req × Option Int} (h : y.1.op = x.1.op) :
    Unprocessed (y ::ₘ P) ↔ Unprocessed (x ::ₘ P) := by
  unfold Unprocessed
  simp only [Multiset.mem_cons, exists_eq_or_imp, h]

theorem unprocessed_cons (h : x.1.op ≠ .nop) : Unprocessed (x ::ₘ P) ↔ Unprocessed P := by
  unfold Unprocessed
  simp only [Multiset.mem_cons, exists_eq_or_imp, h, false_or]

theorem proper_kernel {res : Int} (h : Proper env ((q, none) ::ₘ P) w)
    (ht : Transfer env w q res q' w') : Proper env ((q', some res) ::ₘ P) w' := by
  have hmeant := h.meant
  rw [Multiset.forall_mem_cons] at hmeant
  have hq := hmeant.1
  unfold Meant at hq
  cases ht with
  | nop hop =>
    refine ⟨?_, h.listen, h.table, h.posts⟩
    rw [Multiset.forall_mem_cons]
    exact ⟨by simp [Meant, hop], hmeant.2⟩
  | refused res hop hres =>
    simp only [hop] at hq
    refine ⟨?_, h.listen, h.table, h.posts⟩
    rw [Multiset.forall_mem_cons]
    refine ⟨?_, hmeant.2⟩
    simp only [Meant, hop, Option.mem_some_iff, forall_eq']
    exact ⟨hq.1, by omega⟩
  | accepted fd hop hfd ht =>
    -- the new descriptor is not the listening socket, which is open
    have hne : env.sockfd ≠ fd := by
      rintro rfl
      rw [h.table] at ht
      cases ht
    refine ⟨?_, ?_, ?_, h.posts⟩
    · rw [Multiset.forall_mem_cons]
      refine ⟨?_, fun x hx => (hmeant.2 x hx).mono fun fd hm => List.mem_append_left _ hm⟩
      simp [Meant, Req.owned, hop, hfd, World.accept]
    · simp only [World.accept, List.mem_append, List.mem_singleton, not_or]
      exact ⟨h.listen, hne⟩
    · rw [World.accept]
      simp only [Function.update_of_ne hne]
      exact h.table
  | failed len res hop hres =>
    refine ⟨?_, h.listen, h.table, h.posts⟩
    rw [Multiset.forall_mem_cons]
    simp only [hop] at hq
    exact ⟨by simpa only [Meant, hop] using hq, hmeant.2⟩
  | received len bs hop hlen =>
    refine ⟨?_, h.listen, h.table, h.posts⟩
    rw [Multiset.forall_mem_cons]
    simp only [hop] at hq
    exact ⟨by simpa only [Meant, Req.filled, World.receive, hop] using hq, hmeant.2⟩
  | sent len res hop hres =>
    refine ⟨?_, h.listen, h.table, h.posts⟩
    rw [Multiset.forall_mem_cons]
    simp only [hop] at hq
    exact ⟨by simpa only [Meant, World.transmit, hop] using hq, hmeant.2⟩

theorem dispatch_kernel {res : Int} (h : Dispatch env ((q, none) ::ₘ P) w)
    (ht : Transfer env w q res q' w') : Dispatch env ((q', some res) ::ₘ P) w' := by
  have hop := transfer_op ht
  have hun := unprocessed_congr (P := P) (x := (q, none)) (y := (q', some res)) hop
  refine ⟨?_, fun hu => proper_kernel (h.proper (hun.mp hu)) ht, fun hu hd => ?_⟩
  · have := h.once
    rw [nops_cons] at this ⊢
    simp only [hop]
    exact this
  · refine h.spoilt (fun h' => hu (hun.mpr h')) (hd.of_append [] ?_)
    rw [transfer_posts ht, List.append_nil]

/-! ## The loop -/

theorem Dispatched.post (h : Dispatched env w) (hrecv : ∀ n, q.op = .recv n → q.fd ∈ w.accepted)
    (haccept : q.op = .accept → q.fd = env.sockfd) : Dispatched env (w.posted q) := by
  intro e he
  rcases List.mem_append.mp he with he | he
  · exact h e he
  · rw [List.mem_singleton.mp he]
    exact ⟨fun n hn => List.contains_iff_mem.mpr (hrecv n hn), haccept⟩

theorem proper_prog {news : List Req} (hp : Serves p R)
    (h : Proper env ((c.req, some c.res) ::ₘ P) w) (hr : Reaction R w c news w')
    (hop : c.req.op ≠ .nop) :
    Proper env ((news.map (·, none) : List (Req × Option Int)) + P) w' := by
  have hmeant := h.meant
  rw [Multiset.forall_mem_cons] at hmeant
  have hc := hmeant.1
  unfold Meant at hc
  cases hr with
  | refused hop hres =>
    rw [news_nil]
    exact ⟨hmeant.2, h.listen, h.table, h.posts⟩
  | adopted hop hres =>
    simp only [hop] at hc
    have hres' := hc.2 c.res rfl hres
    rw [news_two]
    refine ⟨?_, h.listen, h.table, (h.posts.post ?_ ?_).post ?_ ?_⟩
    · rw [Multiset.forall_mem_cons, Multiset.forall_mem_cons]
      refine ⟨?_, hres', hmeant.2⟩
      simp [Meant, acceptReq, hc.1]
    · exact fun n _ => hres'
    · simp [recvReq]
    · simp [acceptReq]
    · exact fun _ => hc.1
  | unprepared hop' => exact absurd hop' hop
  | served hR =>
    have hfd : c.req.fd ∈ w.accepted := by
      obtain ⟨n, hn | hn⟩ := hp.about _ _ _ _ hR
      · simpa only [hn] using hc
      · simpa only [hn] using hc
    have hne : env.sockfd ≠ c.req.fd := by
      intro he
      exact h.listen (he ▸ hfd)
    have hacc := hp.accepted _ _ _ _ hR
    obtain ⟨ps, hps, hall⟩ := hp.history _ _ _ _ hR
    refine ⟨?_, ?_, ?_, ?_⟩
    · rw [hacc]
      intro x hx
      rcases Multiset.mem_add.mp hx with hx | hx
      · obtain ⟨q, hq, rfl⟩ := List.mem_map.mp hx
        obtain ⟨n, ⟨o, rfl⟩ | ⟨t, rfl⟩⟩ := hp.posts _ _ _ _ hR q hq
        · exact hfd
        · exact hfd
      · exact hmeant.2 x hx
    · rw [hacc]
      exact h.listen
    · rw [hp.table _ _ _ _ hR _ hne]
      exact h.table
    · intro e he
      rw [hps] at he
      rcases List.mem_append.mp he with he | he
      · exact h.posts e he
      · obtain ⟨-, hop, hgiven⟩ := hall e he
        refine ⟨fun n _ => ?_, fun ha => absurd ha hop⟩
        rw [hgiven]
        exact List.contains_iff_mem.mpr hfd

/-- The recv or the accept on descriptor 0 is not one that the program means to make. -/
theorem Proper.spoil (h : Proper env P w) (o : Owner) :
    ¬ Dispatched env ((w.posted (recvReq 0 maxline o)).posted (acceptReq 0)) := by
  intro hd
  have haccept := (hd ⟨.accept, 0, .own, w.table 0, w.accepted.contains 0⟩
    (List.mem_append_right _ (List.mem_singleton_self _))).2 rfl
  have hrecv := (hd ⟨.recv maxline, 0, o, w.table 0, w.accepted.contains 0⟩
    (List.mem_append_left _ (List.mem_append_right _ (List.mem_singleton_self _)))).1 maxline rfl
  refine h.listen ?_
  rw [← haccept]
  exact List.contains_iff_mem.mp hrecv

theorem news_ne_nop {news : List Req} (hp : Serves p R) (hr : Reaction R w c news w') :
    ∀ q ∈ news, q.op ≠ .nop := by
  cases hr with
  | refused hop hres => simp
  | adopted hop hres => simp [recvReq, acceptReq]
  | unprepared hop => simp [recvReq, acceptReq]
  | served hR =>
    intro q hq
    obtain ⟨n, ⟨o, rfl⟩ | ⟨t, rfl⟩⟩ := hp.posts _ _ _ _ hR q hq
    · simp [recvReq]
    · simp [sendReq]

theorem unprocessed_news {news : List Req} (hn : ∀ q ∈ news, q.op ≠ .nop) :
    Unprocessed ((news.map (·, none) : List (Req × Option Int)) + P) ↔ Unprocessed P := by
  constructor
  · rintro ⟨x, hx, hop⟩
    rcases Multiset.mem_add.mp hx with hx | hx
    · obtain ⟨q, hq, rfl⟩ := List.mem_map.mp hx
      exact absurd hop (hn q hq)
    · exact ⟨x, hx, hop⟩
  · rintro ⟨x, hx, hop⟩
    exact ⟨x, Multiset.mem_add.mpr (.inr hx), hop⟩

theorem nops_news {news : List Req} (hn : ∀ q ∈ news, q.op ≠ .nop) :
    nops ((news.map (·, none) : List (Req × Option Int)) + P) = nops P := by
  have hz : nops (news.map (·, none) : List (Req × Option Int)) = 0 := by
    refine Multiset.countP_eq_zero.mpr fun x hx => ?_
    obtain ⟨q, hq, rfl⟩ := List.mem_map.mp hx
    exact hn q hq
  unfold nops at hz ⊢
  rw [Multiset.countP_add, hz, Nat.zero_add]

theorem reaction_posts {news : List Req} (hp : Serves p R) (hr : Reaction R w c news w') :
    ∃ ps, w'.posts = w.posts ++ ps := by
  cases hr with
  | refused hop hres => exact ⟨[], (List.append_nil _).symm⟩
  | adopted hop hres => exact ⟨_, List.append_assoc _ _ _⟩
  | unprepared hop => exact ⟨_, List.append_assoc _ _ _⟩
  | served hR =>
    obtain ⟨ps, hps, -⟩ := hp.history _ _ _ _ hR
    exact ⟨ps, hps⟩

theorem dispatch_prog {news : List Req} (hp : Serves p R)
    (h : Dispatch env ((c.req, some c.res) ::ₘ P) w) (hr : Reaction R w c news w') :
    Dispatch env ((news.map (·, none) : List (Req × Option Int)) + P) w' := by
  have hn := news_ne_nop hp hr
  have hun := unprocessed_news (P := P) hn
  have hcount := nops_news (P := P) hn
  have honce := h.once
  rw [nops_cons] at honce
  by_cases hop : c.req.op = .nop
  · rw [if_pos hop] at honce
    have hgone : ¬ Unprocessed P := by
      rintro ⟨x, hx, hx'⟩
      have hpos : 0 < nops P := Multiset.countP_pos.mpr ⟨x, hx, hx'⟩
      omega
    have hproper := h.proper ⟨_, Multiset.mem_cons_self _ _, hop⟩
    refine ⟨by omega, fun hu => absurd (hun.mp hu) hgone, fun _ => ?_⟩
    cases hr with
    | refused hop' hres => exact absurd (hop.symm.trans hop') (by simp)
    | adopted hop' hres => exact absurd (hop.symm.trans hop') (by simp)
    | unprepared hop' => exact hproper.spoil _
    | served hR =>
      obtain ⟨n, hn' | hn'⟩ := hp.about _ _ _ _ hR
      · exact absurd (hop.symm.trans hn') (by simp)
      · exact absurd (hop.symm.trans hn') (by simp)
  · have hcons := unprocessed_cons (x := (c.req, some c.res)) (P := P) hop
    refine ⟨by omega, fun hu => ?_, fun hu hd => ?_⟩
    · exact proper_prog hp (h.proper (hcons.mpr (hun.mp hu))) hr hop
    · obtain ⟨ps, hps⟩ := reaction_posts hp hr
      exact h.spoilt (fun h' => hu (hun.mpr (hcons.mp h'))) (hd.of_append _ hps)

theorem dispatch_keeps (hp : Serves p R) : Keeps env R (fun _ _ => True) (Dispatch env) where
  kernel := by
    intro s i res bs q q' w Q hP hq ht htodo henc h
    rw [htodo] at h
    exact dispatch_kernel h ht
  prog := by
    intro s a x news w Q hP hx hr htodo henc h
    rw [htodo] at h
    exact dispatch_prog hp h hr

theorem dispatch_init (env : Env) :
    Dispatch env ((unprepared, none) ::ₘ (acceptReq env.sockfd, none) ::ₘ 0) (init env).world := by
  have hun : Unprocessed ((unprepared, none) ::ₘ (acceptReq env.sockfd, none) ::ₘ 0) :=
    ⟨_, Multiset.mem_cons_self _ _, rfl⟩
  refine ⟨Nat.le_refl 1, fun _ => ?_, fun h => absurd hun h⟩
  refine ⟨by simp [Meant, unprepared, acceptReq], ?_, if_pos env.listening, ?_⟩
  · exact List.not_mem_nil
  · exact Dispatched.post (fun e he => absurd he List.not_mem_nil) (by simp [acceptReq]) fun _ => rfl

theorem dispatch_run (hp : Serves p R) {acts : List Act}
    (hr : run (step env p) (init env) acts = some s) :
    Dispatched env s.world ↔ Unprocessed (todo s) := by
  have h := (run_keeps hp (dispatch_keeps hp) (dispatch_init env)
    (along_of_forall (fun _ _ _ => trivial) _ _ fun _ _ => trivial) hr).holds
  constructor
  · intro hd
    by_contra hu
    exact h.spoilt hu hd
  · intro hu
    exact (h.proper hu).posts

/-- In either program the requests are those it means to make exactly until the loop takes up the
    completion of the unprepared entry. -/
theorem dispatch_iff (env : Env) (acts : List Act) (s : State) :
    (run (step env Normal.program) (init env) acts = some s →
      (Dispatched env s.world ↔ Unprocessed (todo s))) ∧
    (run (step env Uring.program) (init env) acts = some s →
      (Dispatched env s.world ↔ Unprocessed (todo s))) :=
  ⟨dispatch_run Normal.serves, dispatch_run Uring.serves⟩

instance (P : Multiset (Req × Option Int)) : Decidable (Unprocessed P) :=
  decidable_of_iff (0 < nops P) Multiset.countP_pos

/-- The first accept is processed before the no-op has completed. -/
def acceptFirst : List Act := [.prog {}, .complete 1 5 [], .prog {}, .prog {}]

/-- The no-op completes and is processed. -/
def nopFirst : List Act := [.prog {}, .complete 0 0 [], .prog {}, .prog {}]

theorem dispatch_iff_first :
    ∃ s t, run (step env₀ Normal.program) (init env₀) acceptFirst = some s ∧
      Dispatched env₀ s.world ∧ run (step env₀ Uring.program) (init env₀) nopFirst = some t ∧
      ¬ Dispatched env₀ t.world := by
  have hs : (run (step env₀ Normal.program) (init env₀) acceptFirst).map (fun s =>
      decide (Unprocessed (todo s))) = some true := by
    decide +kernel
  have ht : (run (step env₀ Uring.program) (init env₀) nopFirst).map (fun s =>
      decide (Unprocessed (todo s))) = some false := by
    decide +kernel
  obtain ⟨s, hrs, hs⟩ := Option.map_eq_some_iff.mp hs
  obtain ⟨t, hrt, ht⟩ := Option.map_eq_some_iff.mp ht
  have h₁ := (dispatch_iff env₀ acceptFirst s).1 hrs
  have h₂ := (dispatch_iff env₀ nopFirst t).2 hrt
  exact ⟨s, t, hrs, h₁.mpr (of_decide_eq_true hs), hrt, fun hd => of_decide_eq_false ht (h₂.mp hd)⟩

/-- Nothing has been accepted, the listening socket is 3; there are a recv and an accept on 0. -/
theorem dispatch_nop :
    (run (step env₀ Normal.program) (init env₀) nopFirst).map (fun s =>
        (s.world.accepted, s.world.posts)) =
      some ([], [⟨.accept, 3, .own, some .own, false⟩, ⟨.recv 4096, 0, .own, some .own, false⟩,
        ⟨.accept, 0, .own, some .own, false⟩]) ∧
    (run (step env₀ Uring.program) (init env₀) nopFirst).map (fun s =>
        (s.world.accepted, s.world.posts)) =
      some ([], [⟨.accept, 3, .own, some .own, false⟩, ⟨.recv 4096, 0, .own, some .own, false⟩,
        ⟨.accept, 0, .own, some .own, false⟩]) := by
  decide +kernel

end KernelMagic.Socket
