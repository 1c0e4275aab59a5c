/-
  A loop that serves a completion queue in batches of at most `size`: it submits, waits and looks at
  the batch, takes a turn for each completion in it, and drops them together. Completions arrive at any
  time; the wait may return with the queue empty (`early`).

  The steps of the loop are paid for in advance: an arrival brings 4 units of credit, an early return 3,
  and each step of the loop spends one (`Turn.credit_lt`). A machine that `Drives` the loop, seen through
  `view`, therefore takes no more steps of it than have been paid for (`Drives.turns_le`), and by itself
  it comes to stand at the wait with nothing to serve (`Drives.settles`).
-/
import KernelMagic.Lib.Machine

namespace KernelMagic.Lib

inductive Phase where
  | submit
  | wait
  | serve
  | stopped
  deriving DecidableEq, Repr

/-- `i` of the `count` completions of the batch are served; the queue has `len`. -/
structure EventLoop where
  phase : Phase
  i : Nat
  count : Nat
  len : Nat
  deriving DecidableEq, Repr

namespace EventLoop

/-- The loop waits and there is nothing to serve. -/
def Idle (l : EventLoop) : Prop := l.phase = .wait ∧ l.len = 0

def arrive (l : EventLoop) : EventLoop := { l with len := l.len + 1 }

/-- One step of the loop. A turn may crash. -/
inductive Turn (size : Nat) (early : Bool) : EventLoop → EventLoop → Prop
  | submitted (i count len : Nat) : Turn size early ⟨.submit, i, count, len⟩ ⟨.wait, i, count, len⟩
  | waited (i count len : Nat) (h : 0 < len ∨ early = true) :
      Turn size early ⟨.wait, i, count, len⟩ ⟨.serve, 0, min size len, len⟩
  | served (i count len : Nat) (h : i < count) :
      Turn size early ⟨.serve, i, count, len⟩ ⟨.serve, i + 1, count, len⟩
  | dropped (count len : Nat) :
      Turn size early ⟨.serve, count, count, len⟩ ⟨.submit, 0, 0, len - count⟩
  | crashed (i count len : Nat) (h : i < count) :
      Turn size early ⟨.serve, i, count, len⟩ ⟨.stopped, i, count, len⟩

/-- The steps that are paid for. A completion behind the batch is good for 4, the ones around it
    included. -/
def credit (l : EventLoop) : Nat :=
  match l.phase with
  | .submit => 4 * l.len + 1
  | .wait => 4 * l.len
  | .serve => 4 * (l.len - l.count) + 2 + (l.count - l.i)
  | .stopped => 0

theorem credit_le {l : EventLoop} (h : l.count ≤ l.len) : l.credit ≤ 4 * l.len + 2 := by
  unfold credit
  split <;> omega

theorem credit_arrive (l : EventLoop) : l.arrive.credit ≤ l.credit + 4 := by
  unfold credit
  cases hp : l.phase <;> simp only [arrive, hp] <;> omega

theorem Turn.credit_lt {size : Nat} {early : Bool} {l l' : EventLoop} (h : Turn size early l l')
    (hsize : 0 < size) : l'.credit + 1 ≤ l.credit + (if early then 3 else 0) := by
  cases h with
  | submitted => exact Nat.le_add_right _ _
  | waited i count len h =>
    simp only [credit]
    rcases h with h | rfl
    · split <;> omega
    · simp only [if_true]
      omega
  | served i count len h =>
    simp only [credit]
    omega
  | dropped count len =>
    simp only [credit]
    omega
  | crashed i count len h =>
    simp only [credit]
    omega

end EventLoop

open EventLoop

/-- What an action is to the loop. -/
inductive Kind where
  | arrival
  | turn (early : Bool)
  deriving DecidableEq, Repr

def Kind.isArrival : Kind → Bool
  | .arrival => true
  | .turn _ => false

def Kind.isTurn : Kind → Bool
  | .arrival => false
  | .turn _ => true

/-- A step whose wait may return early. -/
def Kind.isEarly : Kind → Bool
  | .arrival => false
  | .turn early => early

/-- At most four steps of the loop for each arrival, three for each wait that may return early, and the
    first submit. -/
def Paced {α : Type} (kind : α → Kind) (as : List α) : Prop :=
  as.countP (fun a => (kind a).isTurn) ≤ 4 * as.countP (fun a => (kind a).isArrival) +
    3 * as.countP (fun a => (kind a).isEarly) + 1

variable {σ α : Type} {step : σ → α → Option σ} {P : σ → α → Prop} {Inv : σ → Prop}
  {view : σ → EventLoop} {kind : α → Kind} {size : Nat}

/-- The steps that meet `P` keep `Inv`, and are steps of the loop or arrivals. -/
structure Drives (step : σ → α → Option σ) (P : σ → α → Prop) (Inv : σ → Prop)
    (view : σ → EventLoop) (kind : α → Kind) (size : Nat) : Prop where
  size_pos : 0 < size
  keeps : ∀ s a s', Inv s → P s a → step s a = some s' → Inv s'
  arrival : ∀ s a s', Inv s → P s a → step s a = some s' → kind a = .arrival →
    view s' = (view s).arrive
  turn : ∀ s a s' early, Inv s → P s a → step s a = some s' → kind a = .turn early →
    Turn size early (view s) (view s')

/-- No step of the loop is taken that has not been paid for. -/
theorem Drives.turns_le (hd : Drives step P Inv view kind size) {s t : σ} {as : List α} (h0 : Inv s)
    (hP : Along step P s as) (hr : run step s as = some t) :
    as.countP (fun a => (kind a).isTurn) + (view t).credit ≤ (view s).credit +
      4 * as.countP (fun a => (kind a).isArrival) + 3 * as.countP (fun a => (kind a).isEarly) := by
  induction as generalizing s with
  | nil =>
    obtain rfl := Option.some.inj hr
    exact Nat.le_of_eq (Nat.zero_add _)
  | cons a as ih =>
    obtain ⟨s', hs, hr'⟩ := run_cons_eq_some.mp hr
    have hrest := ih (hd.keeps s a s' h0 hP.1 hs) (hP.2 s' hs) hr'
    rw [List.countP_cons, List.countP_cons, List.countP_cons]
    cases hk : kind a with
    | arrival =>
      have hv := hd.arrival s a s' h0 hP.1 hs hk
      have hc := credit_arrive (view s)
      rw [← hv] at hc
      have ht : (if Kind.arrival.isTurn = true then 1 else 0) = 0 := rfl
      have harr : (if Kind.arrival.isArrival = true then 1 else 0) = 1 := rfl
      omega
    | turn early =>
      have hc := (hd.turn s a s' early h0 hP.1 hs hk).credit_lt hd.size_pos
      have ht : (if (Kind.turn early).isTurn = true then 1 else 0) = 1 := rfl
      have hearly : 3 * (if (Kind.turn early).isEarly = true then 1 else 0) =
          if early = true then 3 else 0 := by cases early <;> rfl
      omega

/-- A loop that starts with a submit and nothing to serve. -/
theorem Drives.paced (hd : Drives step P Inv view kind size) {s t : σ} {as : List α} (h0 : Inv s)
    (hstart : (view s).credit = 1) (hP : Along step P s as) (hr : run step s as = some t) :
    Paced kind as := by
  have h := hd.turns_le h0 hP hr
  unfold Paced
  omega

/-- Left to itself the machine serves what there is and then waits: action `a` is a step of the loop
    that does not return early, and is enabled unless the loop is idle. -/
theorem Drives.settles (hd : Drives step P Inv view kind size) {a : α} (ha : kind a = .turn false)
    (hP : ∀ s, P s a) (hgo : ∀ s, Inv s → (view s).Idle ∨ ∃ s', step s a = some s') {s : σ}
    (h0 : Inv s) :
    ∃ n ≤ (view s).credit, ∃ t, run step s (List.replicate n a) = some t ∧ Inv t ∧
      (view t).Idle := by
  -- the credit left bounds the steps to come
  generalize hm : (view s).credit = m
  induction m using Nat.strong_induction_on generalizing s with
  | _ m ih =>
    rcases hgo s h0 with hidle | ⟨s', hs⟩
    · exact ⟨0, Nat.zero_le _, s, rfl, h0, hidle⟩
    · have hc := (hd.turn s a s' false h0 (hP s) hs ha).credit_lt hd.size_pos
      simp only [Bool.false_eq_true, if_false] at hc
      obtain ⟨n, hn, t, hr, hi, hidle⟩ :=
        ih (view s').credit (by omega) (hd.keeps s a s' h0 (hP s) hs) rfl
      refine ⟨n + 1, by omega, t, ?_, hi, hidle⟩
      rw [List.replicate_succ]
      exact run_cons_eq_some.mpr ⟨s', hs, hr⟩

end KernelMagic.Lib
