/-
  The accept of the server is a standing request (`Lib.Standing`): the loop renews it when it has
  succeeded. When it has failed the loop frees its `ConnInfo` and does not renew it, so the condition is
  that no accept fails (`Accepts`).
-/
import KernelMagic.Lib.Standing
import KernelMagic.Server.Invariant

namespace KernelMagic.Server

open KernelMagic.Lib

/-- The request is an accept on the listening socket. -/
def Listens (env : Env) (q : Req) : Prop := q.op = .accept ∧ q.fd = env.sockfd

instance (env : Env) : DecidablePred (Listens env) := fun q =>
  inferInstanceAs (Decidable (q.op = .accept ∧ q.fd = env.sockfd))

/-- No accept on the listening socket fails. -/
def Accepts (env : Env) (s : State) : Act → Prop
  | .complete i res _ => ∀ q ∈ s.ring.inflight[i]?, Listens env q → 0 ≤ res
  | .prog _ => True

instance decidableAccepts (env : Env) (s : State) : (a : Act) → Decidable (Accepts env s a)
  | .complete i res _ =>
    inferInstanceAs (Decidable (∀ q ∈ s.ring.inflight[i]?, Listens env q → 0 ≤ res))
  | .prog _ => isTrue trivial

variable {env : Env} {s s' : State} {x : Cqe Req} {p : Nat} {ci : ConnInfo}

/-- What a turn of the loop leaves to do. -/
theorem todo_turn (h : Heap ConnInfo) (t : Nat → Option Nat) (k : Nat → Conn)
    (cs : List (Option Nat)) (news : List Req) :
    todo { s with
      heap := h
      ring := { s.ring with sq := s.ring.sq ++ news }
      table := t
      conns := k
      closes := cs
      i := s.i + 1 } =
    (news.map (·, none) : List (Req × Option Int)) + (s.ring.advance (s.i + 1)).outstanding :=
  IoRing.outstanding_append (s.ring.advance (s.i + 1)) news

/-- The job of the completion that the loop takes up. -/
theorem Inv.head (hi : Inv env s) (hx : s.ring.cq[s.i]? = some x) (hdata : x.req.data = some p)
    (hci : s.heap.cell p = some ci) : Ok env s.table s.conns (p, x.req, some x.res) ci := by
  have ho := hi.owned
  rw [todo_head hx, jobs_cons_some hdata] at ho
  exact ho.head hci

theorem Ok.not_accept {table : Nat → Option Nat} {conns : Nat → Conn} {j : Nat × Req × Option Int}
    (hok : Ok env table conns j ci) (he : ci.event ≠ .accept) : ¬ Listens env j.2.1 := by
  rintro ⟨hop, -⟩
  have hev := hok.job.event
  rw [hop] at hev
  exact he (Option.some.inj hev).symm

theorem standing_complete {i : Nat} {q : Req} {res : Int} (hi : Inv env s)
    (h : Standing (Listens env) (todo s)) (hq : s.ring.inflight[i]? = some q)
    (hres : Listens env q → 0 ≤ res) :
    Standing (Listens env) ((completed s.ring i q res).advance s.i).outstanding := by
  obtain ⟨P, hQ, hQ'⟩ := todo_complete hq hi.i_le res
  rw [hQ] at h
  rw [hQ']
  exact h.complete Iff.rfl hres

theorem standing_step {a : Act} (hi : Inv env s) (h : Standing (Listens env) (todo s))
    (hP : Accepts env s a) (ht : Trans env s a s') : Standing (Listens env) (todo s') := by
  have hw := hi.window
  cases ht with
  | idle i q res bs hq hop => exact standing_complete hi h hq (hP q hq)
  | accepted i q fd bs hq hop hr htb => exact standing_complete hi h hq (hP q hq)
  | received i q len p c ci res given bs hq hop hdata hci hc hres hbs =>
    exact standing_complete hi h hq (hP q hq)
  | sent i q len p c ci res given hq hop hdata hci hc hres =>
    exact standing_complete hi h hq (hP q hq)
  | submitted a hpc =>
    rw [hw.todo_submitted hpc]
    exact h
  | peeked a hpc =>
    rw [hw.todo_peeked hpc]
    exact h
  | advanced a hpc hic =>
    rw [todo_advanced hic]
    exact h
  | crashed a hpc hlt hwhy => exact h
  | null a x hpc hlt hx hdata =>
    have hop : x.req.op = .nop :=
      hi.null _ (by rw [todo_head hx]; exact Multiset.mem_cons_self _ _) hdata
    rw [todo_head hx] at h
    exact h.drop (by simp [Listens, hop])
  | acceptFail a x p ci hpc hlt hx hdata hci he hres =>
    -- the accept has not failed
    have hok := hi.head hx hdata hci
    have hop : x.req.op = .accept := hok.accept_op he
    have hfd : x.req.fd = ci.connfd := hok.job.fd
    rw [todo_head hx] at h
    have := h.ok _ (Multiset.mem_cons_self _ _) ⟨hop, hfd.trans (hok.job.listen he)⟩ x.res rfl
    omega
  | acceptDone a x p ci hpc hlt hx hdata hci he hres =>
    have hok := hi.head hx hdata hci
    have hop : x.req.op = .accept := hok.accept_op he
    have hfd : x.req.fd = ci.connfd := hok.job.fd
    have hlisten := hok.job.listen he
    rw [todo_head hx] at h
    simp only [List.append_assoc]
    rw [todo_turn]
    exact h.renew _ ⟨hop, hfd.trans hlisten⟩ (by simp [Listens]) ⟨rfl, hlisten⟩
  | ended a x p c ci hpc hlt hx hdata hci he hc hres =>
    have hok := hi.head hx hdata hci
    rw [todo_head hx] at h
    exact h.drop (hok.not_accept he)
  | echoed a x p c ci hpc hlt hx hdata hci he hc hres =>
    have hok := hi.head hx hdata hci
    rw [todo_head hx] at h
    rw [todo_turn]
    exact h.other _ (hok.not_accept (by simp [he])) (by simp [Listens])
  | resumed a x p c ci hpc hlt hx hdata hci he hc hres =>
    have hok := hi.head hx hdata hci
    rw [todo_head hx] at h
    rw [todo_turn]
    exact h.other _ (hok.not_accept (by simp [he])) (by simp [Listens])

theorem standing_run {acts : List Act} (hP : Along (step env) (Accepts env) (init env) acts)
    (hr : run (step env) (init env) acts = some s) : Standing (Listens env) (todo s) := by
  have hstep : ∀ s a s', Inv env s ∧ Standing (Listens env) (todo s) → Accepts env s a →
      step env s a = some s' → Inv env s' ∧ Standing (Listens env) (todo s') := by
    intro s a s' hi hP hs
    have ht := step_trans hi.1.ready hs
    exact ⟨inv_step hi.1 ht, standing_step hi.1 hi.2 hP ht⟩
  have h0 : Standing (Listens env) (todo (init env)) := by
    rw [show todo (init env) = (⟨.nop, 0, none⟩, none) ::ₘ
      (⟨.accept, env.sockfd, some 0⟩, none) ::ₘ 0 from rfl]
    exact Standing.start (by simp [Listens]) ⟨rfl, rfl⟩
  exact (run_inv hstep ⟨inv_init env, h0⟩ hP hr).2

end KernelMagic.Server
