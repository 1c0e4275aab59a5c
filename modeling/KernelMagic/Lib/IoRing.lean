/-
  The request ring shared by a program and the kernel. A request is queued in the submission queue
  (`prep`), handed over (`submit`), completed by the kernel in an order of its own (`complete`), and
  its completion is seen at the head of the completion queue until the program drops it (`advance`).

  `outstanding` is the one view of the ring that the invariants of a program need: every request that
  the program has not dropped yet, with its result once it is completed. It does not tell the three
  stages apart, so `submit` leaves it as it is, and each other operation changes one entry of it.
  `pending` is the same with the result 0 until then, for programs that count what has been moved.
-/
import Mathlib

namespace KernelMagic.Lib

/-- A completion: the request it answers and its result. -/
structure Cqe (ρ : Type) where
  req : ρ
  res : Int
  deriving DecidableEq, Repr

/-- What one submission does: every queued request is taken, only the first `n` are, or the call
    fails with `-e` and takes none. -/
inductive SubmitRet where
  | all
  | taken (n : Nat)
  | error (e : Nat)
  deriving DecidableEq, Repr

structure IoRing (ρ : Type) where
  entries : Nat
  sq : List ρ := []
  inflight : List ρ := []
  cq : List (Cqe ρ) := []
  deriving DecidableEq, Repr

namespace IoRing

variable {ρ : Type}

/-- Take a free submission entry and prepare it; `none` when the queue is full. -/
def prep (r : IoRing ρ) (q : ρ) : Option (IoRing ρ) :=
  if r.sq.length < r.entries then some { r with sq := r.sq ++ [q] } else none

/-- Submit, with the value the call returns. -/
def submit (r : IoRing ρ) : SubmitRet → IoRing ρ × Int
  | .all => ({ r with sq := [], inflight := r.inflight ++ r.sq }, r.sq.length)
  | .taken n => ({ r with sq := r.sq.drop n, inflight := r.inflight ++ r.sq.take n },
      (r.sq.take n).length)
  | .error e => (r, -e)

/-- The kernel completes the `i`-th request in flight. -/
def complete (r : IoRing ρ) (i : Nat) (res : Int) : Option (IoRing ρ) :=
  r.inflight[i]?.map fun q =>
    { r with inflight := r.inflight.eraseIdx i, cq := r.cq ++ [⟨q, res⟩] }

/-- Drop the first `n` completions. -/
def advance (r : IoRing ρ) (n : Nat) : IoRing ρ := { r with cq := r.cq.drop n }

/-- Drop the first completion and hand over everything queued, with `q` behind it. -/
def resubmit (r : IoRing ρ) (q : ρ) : IoRing ρ :=
  { r with sq := [], inflight := r.inflight ++ (r.sq ++ [q]), cq := r.cq.drop 1 }

/-- Queue `q`, submit, and drop the first completion. -/
def resend (r : IoRing ρ) (q : ρ) (a : SubmitRet) : IoRing ρ :=
  (submit { r with sq := r.sq ++ [q] } a).1.advance 1

/-- The requests that have not been dropped, each with its result once it is completed. -/
def outstanding (r : IoRing ρ) : Multiset (ρ × Option Int) :=
  ((r.sq.map (·, none) ++ r.inflight.map (·, none) ++ r.cq.map fun c => (c.req, some c.res) :
    List (ρ × Option Int)) : Multiset (ρ × Option Int))

/-- The same with 0 for the result until then. -/
def pending (r : IoRing ρ) : Multiset (Cqe ρ) :=
  ((r.sq.map (Cqe.mk · 0) ++ r.inflight.map (Cqe.mk · 0) ++ r.cq : List (Cqe ρ)) :
    Multiset (Cqe ρ))

/-! ## The queues after each operation -/

theorem prep_of_lt {r : IoRing ρ} {q : ρ} (h : r.sq.length < r.entries) :
    r.prep q = some { r with sq := r.sq ++ [q] } := if_pos h

theorem prep_of_not_lt {r : IoRing ρ} {q : ρ} (h : ¬ r.sq.length < r.entries) :
    r.prep q = none := if_neg h

@[simp] theorem submit_all (r : IoRing ρ) :
    r.submit .all = ({ r with sq := [], inflight := r.inflight ++ r.sq }, (r.sq.length : Int)) :=
  rfl

theorem cq_submit (r : IoRing ρ) (a : SubmitRet) : (r.submit a).1.cq = r.cq := by
  cases a <;> rfl

/-- A submission takes every queued request, or leaves some of them behind. -/
theorem submit_cases (r : IoRing ρ) (a : SubmitRet) :
    (r.submit a).1 = { r with sq := [], inflight := r.inflight ++ r.sq } ∨
      a ≠ .all ∧ (r.submit a).1.inflight.length < r.inflight.length + r.sq.length ∧
        (r.submit a).1.cq = r.cq := by
  cases a with
  | all => exact .inl rfl
  | taken n =>
    by_cases hn : r.sq.length ≤ n
    · left
      simp only [submit, List.drop_of_length_le hn, List.take_of_length_le hn]
    · refine .inr ⟨by simp, ?_, rfl⟩
      simp only [submit, List.length_append, List.length_take]
      omega
  | error e =>
    by_cases hs : r.sq = []
    · left
      simp only [submit, hs, List.append_nil]
      rw [← hs]
    · refine .inr ⟨by simp, ?_, rfl⟩
      have := List.length_pos_iff.mpr hs
      simp only [submit]
      omega

/-! ## Outstanding requests -/

theorem outstanding_prep (r : IoRing ρ) (q : ρ) :
    outstanding { r with sq := r.sq ++ [q] } = (q, none) ::ₘ r.outstanding := by
  simp only [outstanding, List.map_append, List.map_cons, List.map_nil, List.append_assoc,
    List.singleton_append, Multiset.cons_coe]
  exact Multiset.coe_eq_coe.mpr List.perm_middle

theorem outstanding_submit (r : IoRing ρ) (a : SubmitRet) :
    (r.submit a).1.outstanding = r.outstanding := by
  cases a with
  | all =>
    simp only [submit_all, outstanding, List.map_nil, List.nil_append, List.map_append]
    exact Multiset.coe_eq_coe.mpr (List.perm_append_comm.append_right _)
  | taken n =>
    have hsq : r.sq.map (fun q => (q, (none : Option Int))) =
        (r.sq.take n).map (·, none) ++ (r.sq.drop n).map (·, none) := by
      rw [← List.map_append, List.take_append_drop]
    simp only [submit, outstanding, List.map_append, hsq]
    refine Multiset.coe_eq_coe.mpr (List.Perm.append_right _ ?_)
    -- the requests that are taken move from the front to the back
    rw [List.append_assoc, ← List.append_assoc]
    exact List.perm_append_comm
  | error e => rfl

/-- The completion may carry another request than the one in flight, such as the same one with what
    the kernel has found out. -/
theorem outstanding_finish {r : IoRing ρ} {i : Nat} {q : ρ} (hq : r.inflight[i]? = some q)
    (q' : ρ) (res : Int) : ∃ P, r.outstanding = (q, none) ::ₘ P ∧
      outstanding { r with inflight := r.inflight.eraseIdx i, cq := r.cq ++ [⟨q', res⟩] } =
        (q', some res) ::ₘ P := by
  obtain ⟨hi, rfl⟩ := List.getElem?_eq_some_iff.mp hq
  refine ⟨((r.sq.map (·, none) ++ (r.inflight.eraseIdx i).map (·, none) ++
    r.cq.map fun c => (c.req, some c.res) : List (ρ × Option Int)) :
      Multiset (ρ × Option Int)), ?_, ?_⟩
  · have hp : (r.inflight.map fun q => (q, (none : Option Int))).Perm
        ((r.inflight[i], none) :: (r.inflight.eraseIdx i).map (·, none)) :=
      ((List.getElem_cons_eraseIdx_perm hi).symm.map _)
    rw [outstanding, Multiset.cons_coe, Multiset.coe_eq_coe]
    refine ((hp.append_left _).append_right _).trans ?_
    rw [List.append_assoc, List.cons_append]
    refine List.perm_middle.trans ?_
    rw [List.append_assoc]
  · rw [outstanding, Multiset.cons_coe, Multiset.coe_eq_coe, List.map_append, ← List.append_assoc]
    exact List.perm_append_singleton _ _

theorem outstanding_complete {r : IoRing ρ} {i : Nat} {q : ρ} (hq : r.inflight[i]? = some q)
    (res : Int) : ∃ P, r.outstanding = (q, none) ::ₘ P ∧
      outstanding { r with inflight := r.inflight.eraseIdx i, cq := r.cq ++ [⟨q, res⟩] } =
        (q, some res) ::ₘ P :=
  outstanding_finish hq q res

theorem outstanding_advance {r : IoRing ρ} {c : Cqe ρ} {cs : List (Cqe ρ)} (h : r.cq = c :: cs) :
    r.outstanding = (c.req, some c.res) ::ₘ (r.advance 1).outstanding := by
  rw [outstanding, outstanding, h, Multiset.cons_coe, Multiset.coe_eq_coe, List.map_cons]
  refine List.perm_middle.trans (List.Perm.cons _ ?_)
  simp [advance, h]

theorem outstanding_append (r : IoRing ρ) (qs : List ρ) :
    outstanding { r with sq := r.sq ++ qs } =
      (qs.map (·, none) : List (ρ × Option Int)) + r.outstanding := by
  induction qs generalizing r with
  | nil => simp
  | cons q qs ih =>
    have h : r.sq ++ q :: qs = (r.sq ++ [q]) ++ qs := by simp
    have ihq := ih { r with sq := r.sq ++ [q] }
    simp only at ihq
    rw [h, ihq, outstanding_prep, List.map_cons, ← Multiset.cons_coe, Multiset.cons_add,
      Multiset.add_cons]

/-! ## Behind a window

  A program that goes through a batch of completions and drops them together is done with the first
  `n` of them before it calls `advance`. -/

theorem outstanding_finish_behind {r : IoRing ρ} {i n : Nat} {q : ρ}
    (hq : r.inflight[i]? = some q) (hn : n ≤ r.cq.length) (q' : ρ) (res : Int) :
    ∃ P, (r.advance n).outstanding = (q, none) ::ₘ P ∧
      (advance { r with inflight := r.inflight.eraseIdx i, cq := r.cq ++ [⟨q', res⟩] }
        n).outstanding = (q', some res) ::ₘ P := by
  obtain ⟨P, hP, hP'⟩ := outstanding_finish (r := r.advance n) hq q' res
  refine ⟨P, hP, ?_⟩
  rw [← hP']
  simp only [advance, List.drop_append_of_le_length hn]

theorem outstanding_head {r : IoRing ρ} {n : Nat} {x : Cqe ρ} (hx : r.cq[n]? = some x) :
    (r.advance n).outstanding = (x.req, some x.res) ::ₘ (r.advance (n + 1)).outstanding := by
  obtain ⟨hlt, rfl⟩ := List.getElem?_eq_some_iff.mp hx
  have hcq : (r.advance n).cq = r.cq[n] :: r.cq.drop (n + 1) := List.drop_eq_getElem_cons hlt
  have h := outstanding_advance hcq
  rw [h]
  simp only [advance, List.drop_drop]

/-! ## Pending requests -/

theorem pending_eq (r : IoRing ρ) :
    r.pending = r.outstanding.map fun x => ⟨x.1, x.2.getD 0⟩ := by
  simp [pending, outstanding, Function.comp_def]

theorem pending_prep (r : IoRing ρ) (q : ρ) :
    pending { r with sq := r.sq ++ [q] } = ⟨q, 0⟩ ::ₘ r.pending := by
  rw [pending_eq, pending_eq, outstanding_prep, Multiset.map_cons, Option.getD_none]

theorem pending_submit (r : IoRing ρ) (a : SubmitRet) : (r.submit a).1.pending = r.pending := by
  rw [pending_eq, pending_eq, outstanding_submit]

theorem pending_submit_all (r : IoRing ρ) : (r.submit .all).1.pending = r.pending :=
  pending_submit r .all

theorem pending_complete {r : IoRing ρ} {i : Nat} {q : ρ} (hq : r.inflight[i]? = some q)
    (res : Int) : ∃ P, r.pending = ⟨q, 0⟩ ::ₘ P ∧
      pending { r with inflight := r.inflight.eraseIdx i, cq := r.cq ++ [⟨q, res⟩] } =
        ⟨q, res⟩ ::ₘ P := by
  obtain ⟨P, hP, hP'⟩ := outstanding_complete hq res
  refine ⟨P.map fun x => ⟨x.1, x.2.getD 0⟩, ?_, ?_⟩
  · rw [pending_eq, hP, Multiset.map_cons, Option.getD_none]
  · rw [pending_eq, hP', Multiset.map_cons, Option.getD_some]

theorem pending_advance {r : IoRing ρ} {c : Cqe ρ} {cs : List (Cqe ρ)} (h : r.cq = c :: cs) :
    r.pending = c ::ₘ (r.advance 1).pending := by
  rw [pending_eq, pending_eq, outstanding_advance h, Multiset.map_cons, Option.getD_some]

theorem pending_resubmit (r : IoRing ρ) (q : ρ) :
    (r.resubmit q).pending = ⟨q, 0⟩ ::ₘ (r.advance 1).pending := by
  have h : r.resubmit q = (submit { r.advance 1 with sq := r.sq ++ [q] } .all).1 := rfl
  rw [h, pending_submit_all]
  exact pending_prep (r.advance 1) q

theorem pending_resend (r : IoRing ρ) (q : ρ) (a : SubmitRet) :
    (r.resend q a).pending = ⟨q, 0⟩ ::ₘ (r.advance 1).pending := by
  have h : r.resend q a = (submit { r.advance 1 with sq := r.sq ++ [q] } a).1 := by
    cases a <;> rfl
  rw [h, pending_submit]
  exact pending_prep (r.advance 1) q

theorem entries_submit (r : IoRing ρ) (a : SubmitRet) : (r.submit a).1.entries = r.entries := by
  cases a <;> rfl

theorem mem_pending_of_inflight {r : IoRing ρ} {q : ρ} (h : q ∈ r.inflight) :
    (⟨q, 0⟩ : Cqe ρ) ∈ r.pending := by
  simp [pending, h]

theorem mem_pending_of_cq {r : IoRing ρ} {c : Cqe ρ} (h : c ∈ r.cq) : c ∈ r.pending := by
  simp [pending, h]

theorem head_mem_cq {r : IoRing ρ} {c : Cqe ρ} {cs : List (Cqe ρ)} (hcq : r.cq = c :: cs) :
    c ∈ r.cq := by
  rw [hcq]
  exact List.mem_cons_self

theorem head_mem_pending {r : IoRing ρ} {c : Cqe ρ} {cs : List (Cqe ρ)} (hcq : r.cq = c :: cs) :
    c ∈ r.pending :=
  mem_pending_of_cq (head_mem_cq hcq)

theorem length_sq_le_card (r : IoRing ρ) : r.sq.length ≤ r.pending.card := by
  simp only [pending, Multiset.coe_card, List.length_append, List.length_map]
  omega

/-- A request that is completed takes no entry. -/
theorem length_sq_lt_card {r : IoRing ρ} {c : Cqe ρ} {cs : List (Cqe ρ)} (h : r.cq = c :: cs) :
    r.sq.length < r.pending.card := by
  simp only [pending, Multiset.coe_card, List.length_append, List.length_map, h, List.length_cons]
  omega

/-! ## Requests

  The outstanding requests without their results: a completion does not change them. -/

def requests (r : IoRing ρ) : Multiset ρ := r.outstanding.map Prod.fst

theorem requests_prep (r : IoRing ρ) (q : ρ) :
    requests { r with sq := r.sq ++ [q] } = q ::ₘ r.requests := by
  rw [requests, requests, outstanding_prep, Multiset.map_cons]

theorem requests_submit (r : IoRing ρ) (a : SubmitRet) : (r.submit a).1.requests = r.requests := by
  rw [requests, requests, outstanding_submit]

theorem requests_complete {r : IoRing ρ} {i : Nat} {q : ρ} (hq : r.inflight[i]? = some q)
    (res : Int) :
    requests { r with inflight := r.inflight.eraseIdx i, cq := r.cq ++ [⟨q, res⟩] } =
      r.requests := by
  obtain ⟨P, hP, hP'⟩ := outstanding_complete hq res
  rw [requests, requests, hP, hP', Multiset.map_cons, Multiset.map_cons]

theorem requests_advance {r : IoRing ρ} {c : Cqe ρ} {cs : List (Cqe ρ)} (h : r.cq = c :: cs) :
    r.requests = c.req ::ₘ (r.advance 1).requests := by
  rw [requests, requests, outstanding_advance h, Multiset.map_cons]

theorem mem_requests_of_inflight {r : IoRing ρ} {q : ρ} (h : q ∈ r.inflight) : q ∈ r.requests := by
  simp [requests, outstanding, h]

theorem mem_requests_of_cq {r : IoRing ρ} {c : Cqe ρ} (h : c ∈ r.cq) : c.req ∈ r.requests := by
  simp only [requests, outstanding, Multiset.map_coe, Multiset.mem_coe, List.map_append,
    List.mem_append, List.map_map]
  exact .inr (List.mem_map.mpr ⟨c, h, rfl⟩)

/-! ## Weights

  A weight that each request loses a unit of at every stage it passes: two stages lie between its
  entry in the submission queue and the completion queue. -/

def weigh (w : ρ → Nat) (r : IoRing ρ) : Nat :=
  (r.sq.map fun q => w q + 2).sum + (r.inflight.map fun q => w q + 1).sum +
    (r.cq.map fun c => w c.req).sum

variable (w : ρ → Nat)

theorem weigh_prep (r : IoRing ρ) (q : ρ) :
    weigh w { r with sq := r.sq ++ [q] } = weigh w r + (w q + 2) := by
  simp only [weigh, List.map_append, List.map_cons, List.map_nil, List.sum_append, List.sum_cons,
    List.sum_nil]
  omega

theorem sum_map_succ (l : List ρ) :
    (l.map fun q => w q + 2).sum = (l.map fun q => w q + 1).sum + l.length := by
  induction l with
  | nil => rfl
  | cons q l ih =>
    simp only [List.map_cons, List.sum_cons, List.length_cons]
    omega

theorem weigh_submit (r : IoRing ρ) :
    weigh w { r with sq := [], inflight := r.inflight ++ r.sq } + r.sq.length = weigh w r := by
  have h := sum_map_succ w r.sq
  simp only [weigh, List.map_append, List.map_nil, List.sum_append, List.sum_nil]
  omega

theorem weigh_complete {r : IoRing ρ} {i : Nat} {q : ρ} (hq : r.inflight[i]? = some q)
    (res : Int) :
    weigh w { r with inflight := r.inflight.eraseIdx i, cq := r.cq ++ [⟨q, res⟩] } + 1 =
      weigh w r := by
  obtain ⟨hi, rfl⟩ := List.getElem?_eq_some_iff.mp hq
  have hp := ((List.getElem_cons_eraseIdx_perm hi).map fun q => w q + 1).sum_eq
  simp only [List.map_cons, List.sum_cons] at hp
  simp only [weigh, List.map_append, List.map_cons, List.map_nil, List.sum_append, List.sum_cons,
    List.sum_nil]
  omega

theorem weigh_advance {r : IoRing ρ} {c : Cqe ρ} {cs : List (Cqe ρ)} (h : r.cq = c :: cs) :
    weigh w (r.advance 1) + w c.req = weigh w r := by
  simp only [weigh, advance, h, List.drop_succ_cons, List.drop_zero, List.map_cons, List.sum_cons]
  omega

theorem weigh_resubmit {r : IoRing ρ} {c : Cqe ρ} {cs : List (Cqe ρ)} (h : r.cq = c :: cs)
    (q : ρ) : weigh w (r.resubmit q) + w c.req + r.sq.length = weigh w r + (w q + 1) := by
  have hs := sum_map_succ w r.sq
  simp only [weigh, resubmit, h, List.drop_succ_cons, List.drop_zero, List.map_cons, List.sum_cons,
    List.map_append, List.map_nil, List.sum_append, List.sum_nil]
  omega

end IoRing

end KernelMagic.Lib
