/-
  The accept of the programs of `Socket`, and the three servers together.

  As in `Server.Accepting` the accept on the listening socket is a standing request as long as it does
  not fail. In the two programs of `Socket` the loop also posts an accept on descriptor 0, for the
  entry that was never prepared; this is another one only if the listening socket is not 0.
-/
import KernelMagic.Server.Accepting
import KernelMagic.Socket.Normal
import KernelMagic.Socket.Uring

namespace KernelMagic.Socket

open KernelMagic.Lib

/-- The request is an accept on the listening socket. -/
def Listens (env : Env) (q : Req) : Prop := q.op = .accept ∧ q.fd = env.sockfd

instance (env : Env) : DecidablePred (Listens env) := fun q =>
  inferInstanceAs (Decidable (q.op = .accept ∧ q.fd = env.sockfd))

/-- No accept on the listening socket fails. -/
def Accepts (env : Env) (s : State) : Act → Prop
  | .complete i res _ => ∀ q ∈ s.ring.inflight[i]?, Listens env q → 0 ≤ res
  | .prog _ => True

instance decidableAccepts (env : Env) (s : State) : (a : Act) → Decidable (Accepts env s a)
  | .complete i res _ =>
    inferInstanceAs (Decidable (∀ q ∈ s.ring.inflight[i]?, Listens env q → 0 ≤ res))
  | .prog _ => isTrue trivial

variable {env : Env} {p : Program} {R : Service} {s : State} {w w' : World} {q q' : Req}
  {c : Cqe Req} {P : Multiset (Req × Option Int)}

theorem listens_transfer {res : Int} (ht : Transfer env w q res q' w') :
    Listens env q' ↔ Listens env q := by
  cases ht <;> exact Iff.rfl

theorem listens_acceptReq {sfd : Nat} : Listens env (acceptReq sfd) ↔ sfd = env.sockfd := by
  simp [Listens, acceptReq]

theorem standing_prog {news : List Req} (hp : Serves p R) (h0 : env.sockfd ≠ 0)
    (h : Standing (Listens env) ((c.req, some c.res) ::ₘ P)) (hr : Reaction R w c news w') :
    Standing (Listens env) ((news.map (·, none) : List (Req × Option Int)) + P) := by
  cases hr with
  | refused hop hres =>
    refine h.other _ (fun hl => ?_) (by simp)
    have := h.ok _ (Multiset.mem_cons_self _ _) hl c.res rfl
    omega
  | adopted hop hres =>
    by_cases hfd : c.req.fd = env.sockfd
    · refine h.renew [recvReq c.res.toNat maxline c.req.tag.owner] ⟨hop, hfd⟩ ?_
        (listens_acceptReq.mpr hfd)
      simp [Listens, recvReq]
    · refine h.other _ (fun hl => hfd hl.2) ?_
      rw [List.forall_mem_cons, List.forall_mem_singleton]
      exact ⟨by simp [Listens, recvReq], fun hl => hfd (listens_acceptReq.mp hl)⟩
  | unprepared hop =>
    refine h.other _ (by simp [Listens, hop]) ?_
    rw [List.forall_mem_cons, List.forall_mem_singleton]
    exact ⟨by simp [Listens, recvReq], fun hl => h0 (listens_acceptReq.mp hl).symm⟩
  | served hR =>
    refine h.other _ ?_ fun q hq => ?_
    · obtain ⟨n, hn | hn⟩ := hp.about _ _ _ _ hR
      · simp [Listens, hn]
      · simp [Listens, hn]
    · obtain ⟨n, ⟨o, rfl⟩ | ⟨t, rfl⟩⟩ := hp.posts _ _ _ _ hR q hq
      · simp [Listens, recvReq]
      · simp [Listens, sendReq]

theorem standing_keeps (hp : Serves p R) (h0 : env.sockfd ≠ 0) :
    Keeps env R (Accepts env) fun P _ => Standing (Listens env) P where
  kernel := by
    intro s i res bs q q' w Q hP hq ht htodo henc h
    rw [htodo] at h
    exact h.complete (listens_transfer ht) (hP q hq)
  prog := by
    intro s a x news w Q hP hx hr htodo henc h
    rw [htodo] at h
    exact standing_prog hp h0 h hr

theorem standing_run (hp : Serves p R) (h0 : env.sockfd ≠ 0) {acts : List Act}
    (hP : Along (step env p) (Accepts env) (init env) acts)
    (hr : run (step env p) (init env) acts = some s) : Standing (Listens env) (todo s) :=
  (run_keeps hp (standing_keeps hp h0)
    (Standing.start (by simp [Listens, unprepared]) (listens_acceptReq.mpr rfl)) hP hr).holds

/-- In each of the three servers, exactly one accept on the listening socket is queued, in flight or
    completed and not processed. -/
theorem keeps_accepting (env' : Server.Env) (env : Env) (h0 : env.sockfd ≠ 0) :
    (∀ acts s, Along (Server.step env') (Server.Accepts env') (Server.init env') acts →
      run (Server.step env') (Server.init env') acts = some s →
      (Server.todo s).countP (fun x => Server.Listens env' x.1) = 1) ∧
    (∀ acts s, Along (step env Normal.program) (Accepts env) (init env) acts →
      run (step env Normal.program) (init env) acts = some s →
      (todo s).countP (fun x => Listens env x.1) = 1) ∧
    (∀ acts s, Along (step env Uring.program) (Accepts env) (init env) acts →
      run (step env Uring.program) (init env) acts = some s →
      (todo s).countP (fun x => Listens env x.1) = 1) := by
  refine ⟨fun acts s hP hr => ?_, fun acts s hP hr => ?_, fun acts s hP hr => ?_⟩
  · exact (Server.standing_run hP hr).once
  · exact (standing_run Normal.serves h0 hP hr).once
  · exact (standing_run Uring.serves h0 hP hr).once

/-- One client is accepted. -/
def served : List Server.Act := [.prog {}, .complete 1 5 [], .prog {}, .prog {}]

/-- One client is accepted, after the no-op has been processed. -/
def servedNop : List Act := [.prog {}, .complete 0 0 [], .complete 0 5 [], .prog {}, .prog {}, .prog {}]

theorem keeps_accepting_served :
    ∃ s₁ s₂ s₃, run (Server.step Server.env₀) (Server.init Server.env₀) served = some s₁ ∧
      run (step env₀ Normal.program) (init env₀) servedNop = some s₂ ∧
      run (step env₀ Uring.program) (init env₀) servedNop = some s₃ ∧
      (Server.todo s₁).countP (fun x => Server.Listens Server.env₀ x.1) = 1 ∧
      (todo s₂).countP (fun x => Listens env₀ x.1) = 1 ∧
      (todo s₃).countP (fun x => Listens env₀ x.1) = 1 := by
  have h := keeps_accepting Server.env₀ env₀ (by decide)
  have h₁ : (run (Server.step Server.env₀) (Server.init Server.env₀) served).isSome = true := by
    decide +kernel
  have h₂ : (run (step env₀ Normal.program) (init env₀) servedNop).isSome = true := by
    decide +kernel
  have h₃ : (run (step env₀ Uring.program) (init env₀) servedNop).isSome = true := by
    decide +kernel
  obtain ⟨s₁, hr₁⟩ := Option.isSome_iff_exists.mp h₁
  obtain ⟨s₂, hr₂⟩ := Option.isSome_iff_exists.mp h₂
  obtain ⟨s₃, hr₃⟩ := Option.isSome_iff_exists.mp h₃
  exact ⟨s₁, s₂, s₃, hr₁, hr₂, hr₃, h.1 served s₁ (by decide +kernel) hr₁,
    h.2.1 servedNop s₂ (by decide +kernel) hr₂, h.2.2 servedNop s₃ (by decide +kernel) hr₃⟩

/-- The accept fails, for want of descriptors. -/
def refused : List Server.Act := [.prog {}, .complete 1 (-24) [], .prog {}, .prog {}]

def refusedNop : List Act :=
  [.prog {}, .complete 0 0 [], .complete 0 (-24) [], .prog {}, .prog {}, .prog {}]

/-- No accept is left in any of the three. -/
theorem accept_lost :
    (run (Server.step Server.env₀) (Server.init Server.env₀) refused).map (fun s =>
        (Server.todo s).countP (fun x => Server.Listens Server.env₀ x.1)) = some 0 ∧
      (run (step env₀ Normal.program) (init env₀) refusedNop).map (fun s =>
        (todo s).countP (fun x => Listens env₀ x.1)) = some 0 ∧
      (run (step env₀ Uring.program) (init env₀) refusedNop).map (fun s =>
        (todo s).countP (fun x => Listens env₀ x.1)) = some 0 := by
  decide +kernel

end KernelMagic.Socket
