/-
  `semaphore_demo.c`: a counter that is read, increased, written back and printed under a semaphore.

  `my_module_init` makes two calls of `access_shared_resource`, one after the other. Here there is any
  number of tasks, each of which does what it does with its own number of calls, and a schedule
  interleaves their steps; `myModuleInit` is the task of the module itself. The increment is a load and
  a store, so it is the semaphore alone that keeps it from being lost.

  `down_interruptible` takes the semaphore when it can. Otherwise it sleeps, and a signal makes it fail;
  the answer of the environment is whether there is one. Which of the tasks that sleep comes next is
  left open.
-/
import KernelMagic.Lib.Interleave

namespace KernelMagic.Semaphore

open KernelMagic.Lib

/-- What is printed: "Failed to acquire semaphore", "Shared resource value: %d" and "Semaphore test
    completed!". -/
inductive Line where
  | failed
  | value (v : Int)
  | completed
  deriving DecidableEq, Repr

/-- `mySem` is the count of the semaphore, `sharedResource` an `int`. -/
structure Mem where
  mySem : Nat
  sharedResource : BitVec 32
  log : List Line
  deriving DecidableEq

/-- Where a task is: before its next call, in `access_shared_resource` behind `down_interruptible`, the
    load, the store and the `printk`, or there with a semaphore it has not got. -/
inductive Place where
  | call
  | acquired
  | loaded (x : BitVec 32)
  | stored
  | printed
  | failed
  | ended
  deriving DecidableEq, Repr

/-- `left` is the number of calls that follow. -/
structure Task where
  place : Place
  left : Nat
  deriving DecidableEq, Repr

def printk (m : Mem) (line : Line) : Mem := { m with log := m.log ++ [line] }

/-- `sema_init` with the value 1, and the initial value of `shared_resource`. -/
def initial : Mem := ⟨1, 0, []⟩

/-- `down_interruptible` in front of a call with `left` calls after it. -/
def downInterruptible (left : Nat) (signal : Bool) (m : Mem) : Option (Task × Mem) :=
  match m.mySem, signal with
  | n + 1, _ => some (⟨.acquired, left⟩, { m with mySem := n })
  | 0, true => some (⟨.failed, left⟩, m)
  | 0, false => none

def up (m : Mem) : Mem := { m with mySem := m.mySem + 1 }

/-- One step of a task that calls `access_shared_resource` a number of times. -/
def accessSharedResource (t : Task) (signal : Bool) (m : Mem) : Option (Task × Mem) :=
  match t with
  | ⟨.call, n + 1⟩ => downInterruptible n signal m
  | ⟨.acquired, n⟩ => some (⟨.loaded m.sharedResource, n⟩, m)
  | ⟨.loaded x, n⟩ => some (⟨.stored, n⟩, { m with sharedResource := x + 1 })
  | ⟨.stored, n⟩ => some (⟨.printed, n⟩, printk m (.value m.sharedResource.toInt))
  | ⟨.printed, n⟩ => some (⟨.call, n⟩, up m)
  | ⟨.failed, n⟩ => some (⟨.call, n⟩, printk m .failed)
  | ⟨.call, 0⟩ => some (⟨.ended, 0⟩, printk m .completed)
  | ⟨.ended, _⟩ => none

/-- The task of the module. -/
def myModuleInit : Task := ⟨.call, 2⟩

abbrev State : Type := Pool Task Mem

/-- A number of the task that steps, and whether there is a signal for it. -/
abbrev Act : Type := Nat × Bool

def step (s : State) (a : Act) : Option State := s.step accessSharedResource a

/-- Tasks with their numbers of calls. -/
def start (calls : List Nat) : State := ⟨calls.map fun n => ⟨.call, n⟩, initial⟩

/-! ## One step of a task -/

/-- Between `down_interruptible` and `up`. -/
def inside (t : Task) : Bool :=
  match t.place with
  | .acquired | .loaded _ | .stored | .printed => true
  | .call | .failed | .ended => false

/-- The values printed. -/
def values (log : List Line) : List Int :=
  log.filterMap fun line => match line with
    | .value v => some v
    | .failed | .completed => none

/-- The first `n` values of a counter that is an `int`. -/
def counting (n : Nat) : List Int := (List.range n).map fun i => (BitVec.ofNat 32 (i + 1)).toInt

@[simp] theorem values_failed (log : List Line) : values (log ++ [.failed]) = values log := by
  simp [values]

@[simp] theorem values_completed (log : List Line) :
    values (log ++ [.completed]) = values log := by
  simp [values]

@[simp] theorem values_value (log : List Line) (v : Int) :
    values (log ++ [.value v]) = values log ++ [v] := by
  simp [values]

@[simp] theorem values_map (vs : List Int) : values (vs.map .value) = vs := by
  simp [values, List.filterMap_map]

@[simp] theorem length_counting (n : Nat) : (counting n).length = n := by
  simp [counting]

theorem counting_succ (n : Nat) :
    counting (n + 1) = counting n ++ [(BitVec.ofNat 32 (n + 1)).toInt] := by
  simp [counting, List.range_succ]

/-- The counter has counted the `n` values printed. -/
def Counted (n : Nat) (m : Mem) : Prop :=
  values m.log = counting n ∧ m.sharedResource = BitVec.ofNat 32 n

/-- The memory while nobody is inside. -/
def Consistent (m : Mem) : Prop := ∃ n, Counted n m

/-- The memory as the task inside sees it. -/
def Own (t : Task) (m : Mem) : Prop :=
  match t.place with
  | .acquired | .printed => Consistent m
  | .loaded x => ∃ n, Counted n m ∧ x = BitVec.ofNat 32 n
  | .stored => ∃ n, values m.log = counting n ∧ m.sharedResource = BitVec.ofNat 32 (n + 1)
  | .call | .failed | .ended => True

variable {t t' : Task} {signal : Bool} {m m' : Mem}

/-- A step from the outside: a call takes the semaphore, or there is none and a signal; a failure is
    printed; the last line is printed. -/
theorem outside_cases (hc : accessSharedResource t signal m = some (t', m'))
    (hin : inside t = false) :
    (∃ n, t = ⟨.call, n + 1⟩ ∧ t' = ⟨.acquired, n⟩ ∧ m.mySem = m'.mySem + 1 ∧
        m' = { m with mySem := m'.mySem }) ∨
      (∃ n, t = ⟨.call, n + 1⟩ ∧ t' = ⟨.failed, n⟩ ∧ m.mySem = 0 ∧ m' = m) ∨
      (∃ n, t = ⟨.failed, n⟩ ∧ t' = ⟨.call, n⟩ ∧ m' = printk m .failed) ∨
      (t = ⟨.call, 0⟩ ∧ t' = ⟨.ended, 0⟩ ∧ m' = printk m .completed) := by
  unfold accessSharedResource at hc
  split at hc
  · next n =>
    unfold downInterruptible at hc
    split at hc
    · next k hk =>
      cases hc
      exact .inl ⟨n, rfl, rfl, hk, rfl⟩
    · next hk =>
      cases hc
      exact .inr (.inl ⟨n, rfl, rfl, hk, rfl⟩)
    · cases hc
  · cases hin
  · cases hin
  · cases hin
  · cases hin
  · next n =>
    cases hc
    exact .inr (.inr (.inl ⟨n, rfl, rfl, rfl⟩))
  · cases hc
    exact .inr (.inr (.inr ⟨rfl, rfl, rfl⟩))
  · cases hc

/-- A step from the inside: the load, the store, the `printk`, `up`. -/
theorem inside_cases (hc : accessSharedResource t signal m = some (t', m'))
    (hin : inside t = true) :
    (∃ n, t = ⟨.acquired, n⟩ ∧ t' = ⟨.loaded m.sharedResource, n⟩ ∧ m' = m) ∨
      (∃ n x, t = ⟨.loaded x, n⟩ ∧ t' = ⟨.stored, n⟩ ∧ m' = { m with sharedResource := x + 1 }) ∨
      (∃ n, t = ⟨.stored, n⟩ ∧ t' = ⟨.printed, n⟩ ∧
        m' = printk m (.value m.sharedResource.toInt)) ∨
      (∃ n, t = ⟨.printed, n⟩ ∧ t' = ⟨.call, n⟩ ∧ m' = up m) := by
  unfold accessSharedResource at hc
  split at hc
  · cases hin
  · next n =>
    cases hc
    exact .inl ⟨n, rfl, rfl, rfl⟩
  · next x n =>
    cases hc
    exact .inr (.inl ⟨n, x, rfl, rfl, rfl⟩)
  · next n =>
    cases hc
    exact .inr (.inr (.inl ⟨n, rfl, rfl, rfl⟩))
  · next n =>
    cases hc
    exact .inr (.inr (.inr ⟨n, rfl, rfl, rfl⟩))
  · cases hin
  · cases hin
  · cases hin

theorem Consistent.printk_failed (h : Consistent m) : Consistent (printk m .failed) := by
  obtain ⟨n, hv, hx⟩ := h
  exact ⟨n, by rw [printk, values_failed, hv], hx⟩

theorem Consistent.printk_completed (h : Consistent m) : Consistent (printk m .completed) := by
  obtain ⟨n, hv, hx⟩ := h
  exact ⟨n, by rw [printk, values_completed, hv], hx⟩

/-- A line that is not a value does not disturb the task inside. -/
theorem Own.printk {line : Line} {u : Task} (hline : ∀ log, values (log ++ [line]) = values log)
    (h : Own u m) : Own u (printk m line) := by
  unfold Own at h ⊢
  split at h <;> simp_all [Semaphore.printk, Consistent, Counted]

/-- `access_shared_resource` is a critical region. -/
theorem region : Region accessSharedResource inside Mem.mySem Consistent Own where
  token := by
    intro t e m t' m' hc
    cases hin : inside t with
    | false =>
      rcases outside_cases hc hin with ⟨n, rfl, rfl, hsem, -⟩ | ⟨n, rfl, rfl, -, rfl⟩ |
        ⟨n, rfl, rfl, rfl⟩ | ⟨rfl, rfl, rfl⟩
      · rw [hsem]
        exact (Nat.add_comm 1 _).trans (Nat.zero_add _).symm
      · rfl
      · rfl
      · rfl
    | true =>
      rcases inside_cases hc hin with ⟨n, rfl, rfl, rfl⟩ | ⟨n, x, rfl, rfl, rfl⟩ |
        ⟨n, rfl, rfl, rfl⟩ | ⟨n, rfl, rfl, rfl⟩
      · rfl
      · rfl
      · rfl
      · exact (Nat.zero_add _).trans (Nat.add_comm m.mySem 1)
  enter := by
    intro t e m t' m' hc hin hin' hm
    rcases outside_cases hc hin with ⟨n, rfl, rfl, -, hm'⟩ | ⟨n, rfl, rfl, -⟩ |
      ⟨n, rfl, rfl, -⟩ | ⟨rfl, rfl, -⟩
    · rw [hm']
      exact hm
    · cases hin'
    · cases hin'
    · cases hin'
  within := by
    intro t e m t' m' hc hin hin' hown
    rcases inside_cases hc hin with ⟨n, rfl, rfl, rfl⟩ | ⟨n, x, rfl, rfl, rfl⟩ |
      ⟨n, rfl, rfl, rfl⟩ | ⟨n, rfl, rfl, rfl⟩
    · obtain ⟨k, hk⟩ := hown
      exact ⟨k, hk, hk.2⟩
    · obtain ⟨k, hk, rfl⟩ := hown
      exact ⟨k, hk.1, (BitVec.ofNat_add k 1).symm⟩
    · obtain ⟨k, hv, hx⟩ := hown
      refine ⟨k + 1, ?_, hx⟩
      rw [printk, values_value, hv, hx, counting_succ]
    · cases hin'
  leave := by
    intro t e m t' m' hc hin hin' hown
    rcases inside_cases hc hin with ⟨n, rfl, rfl, rfl⟩ | ⟨n, x, rfl, rfl, rfl⟩ |
      ⟨n, rfl, rfl, rfl⟩ | ⟨n, rfl, rfl, rfl⟩
    · cases hin'
    · cases hin'
    · cases hin'
    · exact hown
  outside := by
    intro t e m t' m' hc hin hin'
    rcases outside_cases hc hin with ⟨n, rfl, rfl, -⟩ | ⟨n, rfl, rfl, -, rfl⟩ |
      ⟨n, rfl, rfl, rfl⟩ | ⟨rfl, rfl, rfl⟩
    · cases hin'
    · exact ⟨id, fun _ _ h => h⟩
    · exact ⟨Consistent.printk_failed, fun _ _ h => h.printk values_failed⟩
    · exact ⟨Consistent.printk_completed, fun _ _ h => h.printk values_completed⟩

/-! ## Mutual exclusion -/

theorem start_inv (calls : List Nat) :
    Region.Inv inside Mem.mySem Consistent Own (start calls) where
  one := by
    have hout : ∀ t ∈ (start calls).tasks, ¬ inside t = true := by
      simp only [start, List.mem_map]
      rintro _ ⟨n, -, rfl⟩
      simp [inside]
    rw [Region.sum_inside, List.countP_eq_zero.mpr hout]
    rfl
  idle := fun _ => ⟨0, rfl, rfl⟩
  busy := by
    simp only [start, List.mem_map]
    rintro _ ⟨n, -, rfl⟩ hin
    cases hin

theorem Own.counting (hin : inside t = true) (h : Own t m) :
    values m.log = counting (values m.log).length := by
  have hex : ∃ n, values m.log = Semaphore.counting n := by
    unfold Own at h
    split at h
    · exact ⟨h.choose, h.choose_spec.1⟩
    · exact ⟨h.choose, h.choose_spec.1⟩
    · exact ⟨h.choose, h.choose_spec.1.1⟩
    · exact ⟨h.choose, h.choose_spec.1⟩
    all_goals simp_all [inside]
  obtain ⟨n, hn⟩ := hex
  rw [hn, length_counting]

/-- **Mutual exclusion.** In every state of every run at most one task is between its
    `down_interruptible` and its `up`, and the values printed so far are 1, 2, 3 and so on: no increment
    is lost and none is printed twice or out of order. -/
theorem access_exclusive (calls : List Nat) (as : List Act) (s : State)
    (hr : run step (start calls) as = some s) :
    s.tasks.countP inside ≤ 1 ∧
      values s.shared.log = counting (values s.shared.log).length := by
  have hi := region.inv (start_inv calls) hr
  refine ⟨hi.exclusive, ?_⟩
  by_cases hf : s.shared.mySem = 1
  · obtain ⟨n, hv, -⟩ := hi.idle hf
    rw [hv, length_counting]
  · have hone := hi.one
    rw [Region.sum_inside] at hone
    have hpos : 0 < s.tasks.countP inside := by omega
    obtain ⟨t, ht, hin⟩ := List.countP_pos_iff.mp hpos
    exact (hi.busy t ht hin).counting hin

/-- Two tasks with one call each. A signal wakes the second while the first has the semaphore. -/
def twoTasks : List Act :=
  [(0, false), (0, false), (1, true), (0, false), (1, false), (0, false), (0, false), (0, false)]

theorem exclusive_twoTasks :
    ∃ s, run step (start [1, 1]) twoTasks = some s ∧
      s.shared.log = [.failed, .value 1, .completed] ∧ s.tasks.countP inside ≤ 1 ∧
        values s.shared.log = counting (values s.shared.log).length := by
  have hr : run step (start [1, 1]) twoTasks =
      some ⟨[⟨.ended, 0⟩, ⟨.call, 0⟩], 1, 1, [.failed, .value 1, .completed]⟩ := by decide
  exact ⟨_, hr, rfl, access_exclusive [1, 1] twoTasks _ hr⟩

/-! ## Termination -/

/-- The steps that are left of a task. -/
def steps (t : Task) : Nat :=
  match t.place with
  | .call => 5 * t.left + 1
  | .acquired => 5 * t.left + 5
  | .loaded _ => 5 * t.left + 4
  | .stored => 5 * t.left + 3
  | .printed | .failed => 5 * t.left + 2
  | .ended => 0

/-- The calls of a task that have not printed yet. -/
def pending (t : Task) : Nat :=
  match t.place with
  | .call | .printed => t.left
  | .acquired | .loaded _ | .stored | .failed => t.left + 1
  | .ended => 0

/-- The calls that have printed. -/
def printed (m : Mem) : Nat := (values m.log).length + m.log.count .failed

theorem steps_lt (hc : accessSharedResource t signal m = some (t', m')) : steps t' < steps t := by
  cases hin : inside t with
  | false =>
    rcases outside_cases hc hin with ⟨n, rfl, rfl, -⟩ | ⟨n, rfl, rfl, -⟩ | ⟨n, rfl, rfl, -⟩ |
      ⟨rfl, rfl, -⟩ <;> simp only [steps] <;> omega
  | true =>
    rcases inside_cases hc hin with ⟨n, rfl, rfl, -⟩ | ⟨n, x, rfl, rfl, -⟩ | ⟨n, rfl, rfl, -⟩ |
      ⟨n, rfl, rfl, -⟩ <;> simp only [steps] <;> omega

/-- A call prints one line. -/
theorem pending_printed (hc : accessSharedResource t signal m = some (t', m')) :
    pending t' + printed m' = pending t + printed m := by
  cases hin : inside t with
  | false =>
    rcases outside_cases hc hin with ⟨n, rfl, rfl, -, hm'⟩ | ⟨n, rfl, rfl, -, rfl⟩ |
      ⟨n, rfl, rfl, rfl⟩ | ⟨rfl, rfl, rfl⟩
    · rw [hm']
      rfl
    · rfl
    · simp [pending, printed, printk]
      omega
    · simp [pending, printed, printk]
  | true =>
    rcases inside_cases hc hin with ⟨n, rfl, rfl, rfl⟩ | ⟨n, x, rfl, rfl, rfl⟩ |
      ⟨n, rfl, rfl, rfl⟩ | ⟨n, rfl, rfl, rfl⟩
    · rfl
    · rfl
    · simp [pending, printed, printk]
      omega
    · rfl

/-- A task that has not ended can step without a signal, unless it is before a call and the semaphore
    is taken. -/
theorem exists_code (hend : t.place ≠ .ended)
    (hfree : t.place = .call → m.mySem ≠ 0) :
    ∃ t' m', accessSharedResource t false m = some (t', m') := by
  obtain ⟨place, left⟩ := t
  match place, left with
  | .call, n + 1 =>
    obtain ⟨k, hk⟩ := Nat.exists_eq_succ_of_ne_zero (hfree rfl)
    refine ⟨⟨.acquired, n⟩, { m with mySem := k }, ?_⟩
    simp only [accessSharedResource, downInterruptible, hk]
  | .call, 0 => exact ⟨_, _, rfl⟩
  | .acquired, _ => exact ⟨_, _, rfl⟩
  | .loaded _, _ => exact ⟨_, _, rfl⟩
  | .stored, _ => exact ⟨_, _, rfl⟩
  | .printed, _ => exact ⟨_, _, rfl⟩
  | .failed, _ => exact ⟨_, _, rfl⟩
  | .ended, _ => exact absurd rfl hend

/-- How a run ends: every task has ended, the semaphore is free, and every call has printed its value or
    its failure. -/
structure Done (calls : List Nat) (s : State) : Prop where
  ended : ∀ t ∈ s.tasks, t.place = .ended
  released : s.shared.mySem = 1
  printed : (values s.shared.log).length + s.shared.log.count .failed = calls.sum
  counted : Counted (values s.shared.log).length s.shared

/-- What every state of a run has. -/
structure Reached (calls : List Nat) (s : State) : Prop where
  region : Region.Inv inside Mem.mySem Consistent Own s
  calls : Pool.total pending printed s = calls.sum

theorem start_reached (calls : List Nat) : Reached calls (start calls) where
  region := start_inv calls
  calls := by
    simp only [Pool.total, start, List.map_map]
    rw [show pending ∘ (fun n => Task.mk .call n) = id from rfl, List.map_id]
    rfl

theorem Reached.step {calls : List Nat} {s s' : State} {a : Act} (hi : Reached calls s)
    (hs : step s a = some s') : Reached calls s' where
  region := Semaphore.region.inv_step hi.region hs
  calls := by
    rw [← hi.calls]
    exact Pool.total_step pending printed (fun _ _ _ _ _ hc => pending_printed hc) hs

/-- No deadlock, even if there are no signals. -/
theorem Reached.go {calls : List Nat} {s : State} (hi : Reached calls s) :
    Done calls s ∨ ∃ i s', Semaphore.step s (i, false) = some s' := by
  by_cases hend : ∀ t ∈ s.tasks, t.place = .ended
  · left
    have hout : ∀ t ∈ s.tasks, ¬ inside t = true := fun t ht hin => by
      rw [inside, hend t ht] at hin
      cases hin
    have hfree : s.shared.mySem = 1 := by
      have hone := hi.region.one
      rw [Region.sum_inside, List.countP_eq_zero.mpr hout] at hone
      omega
    have hpend : (s.tasks.map pending).sum = 0 := by
      refine List.sum_eq_zero fun n hn => ?_
      obtain ⟨t, ht, rfl⟩ := List.mem_map.mp hn
      rw [pending, hend t ht]
    refine ⟨hend, hfree, ?_, ?_⟩
    · have hcalls := hi.calls
      rwa [Pool.total, hpend, Nat.zero_add] at hcalls
    · obtain ⟨n, hv, hx⟩ := hi.region.idle hfree
      rw [hv, length_counting]
      exact ⟨hv, hx⟩
  · right
    push Not at hend
    obtain ⟨t, ht, hne⟩ := hend
    by_cases hin : ∃ u ∈ s.tasks, inside u = true
    · -- the task inside never waits
      obtain ⟨u, hu, hin⟩ := hin
      obtain ⟨u', m', hc⟩ := exists_code (m := s.shared) (t := u)
        (fun h => by rw [inside, h] at hin; cases hin)
        (fun h => by rw [inside, h] at hin; cases hin)
      exact Pool.step_of_code hu hc
    · have hone := hi.region.one
      rw [Region.sum_inside, List.countP_eq_zero.mpr fun u hu h => hin ⟨u, hu, h⟩] at hone
      obtain ⟨t', m', hc⟩ := exists_code (m := s.shared) hne fun _ => by omega
      exact Pool.step_of_code ht hc

/-- **Total correctness.** Whichever signals may come, every run ends, no state is a deadlock, and in the
    end the semaphore is free, every call has printed its value or its failure, and the resource is the
    number of the calls that have printed a value. -/
theorem access_total (calls : List Nat) (signals : State → Nat → Prop) :
    Finishes step (fun s a => a.2 = true → signals s a.1) (start calls) (Done calls) := by
  refine finishes_of_measure (fun s => (s.tasks.map steps).sum) ?_ ?_ (start_reached calls)
  · intro s a s' hi _ hs
    exact ⟨hi.step hs, Pool.measure_step steps (fun _ _ _ _ _ hc => steps_lt hc) hs⟩
  · intro s hi
    rcases hi.go with hdone | ⟨i, s', hs⟩
    · exact .inl hdone
    · exact .inr ⟨(i, false), s', fun h => Bool.noConfusion h, hs⟩

/-! ## One task -/

/-- A task on its own finds the semaphore free, so what it has printed are its values. -/
structure Alone (n : Nat) (s : State) : Prop where
  reached : Reached [n] s
  one : ∃ t vs, s.tasks = [t] ∧ t.place ≠ .failed ∧
    s.shared.log = List.map .value vs ++ if t.place = .ended then [.completed] else []

theorem start_alone (n : Nat) : Alone n (start [n]) where
  reached := start_reached [n]
  one := ⟨⟨.call, n⟩, [], rfl, by simp, rfl⟩

theorem Alone.step {n : Nat} {s s' : State} {a : Act} (hi : Alone n s) (hs : step s a = some s') :
    Alone n s' := by
  refine ⟨hi.reached.step hs, ?_⟩
  obtain ⟨t, vs, htasks, hplace, hlog⟩ := hi.one
  obtain ⟨l, u, r, t', m', hsplit, hc, rfl⟩ := Pool.step_cases hs
  rw [htasks] at hsplit
  obtain ⟨rfl, rfl, rfl⟩ : l = [] ∧ t = u ∧ r = [] := by
    rcases List.append_eq_singleton_iff.mp hsplit.symm with ⟨hl, hr⟩ | ⟨-, hr⟩
    · exact ⟨hl, (List.cons.inj hr).1.symm, (List.cons.inj hr).2⟩
    · cases hr
  cases hin : inside t with
  | false =>
    have hsem : s.shared.mySem = 1 := by
      have hone := hi.reached.region.one
      rw [htasks, List.map_singleton, hin] at hone
      exact (Nat.zero_add _).symm.trans hone
    rcases outside_cases hc hin with ⟨k, rfl, rfl, -, hm'⟩ | ⟨k, rfl, rfl, hzero, -⟩ |
      ⟨k, rfl, -⟩ | ⟨rfl, rfl, rfl⟩
    · rw [hm']
      exact ⟨_, vs, rfl, by simp, by simpa using hlog⟩
    · omega
    · exact absurd rfl hplace
    · exact ⟨_, vs, rfl, by simp, by simpa [printk] using hlog⟩
  | true =>
    rcases inside_cases hc hin with ⟨k, rfl, rfl, rfl⟩ | ⟨k, x, rfl, rfl, rfl⟩ |
      ⟨k, rfl, rfl, rfl⟩ | ⟨k, rfl, rfl, rfl⟩
    · exact ⟨_, vs, rfl, by simp, by simpa using hlog⟩
    · exact ⟨_, vs, rfl, by simp, by simpa using hlog⟩
    · exact ⟨_, vs ++ [s.shared.sharedResource.toInt], rfl, by simp,
        by simpa [printk] using hlog⟩
    · exact ⟨_, vs, rfl, by simp, by simpa [up] using hlog⟩

/-- A module whose `my_module_init` makes `n` calls prints the values 1 to `n` and its last line,
    whichever signals come. -/
theorem init_prints (n : Nat) (signals : State → Nat → Prop) :
    Finishes step (fun s a => a.2 = true → signals s a.1) (start [n])
      fun s => s.shared.log = (counting n).map .value ++ [.completed] := by
  refine finishes_of_measure (fun s => (s.tasks.map steps).sum) ?_ ?_ (start_alone n)
  · intro s a s' hi _ hs
    exact ⟨hi.step hs, Pool.measure_step steps (fun _ _ _ _ _ hc => steps_lt hc) hs⟩
  · intro s hi
    rcases hi.reached.go with hdone | ⟨i, s', hs⟩
    · left
      obtain ⟨t, vs, htasks, hplace, hlog⟩ := hi.one
      have hend := hdone.ended t (by rw [htasks]; exact List.mem_singleton_self t)
      rw [if_pos hend] at hlog
      have hvs : values s.shared.log = vs := by rw [hlog, values_completed, values_map]
      have hfailed : s.shared.log.count .failed = 0 := by
        rw [hlog]
        exact List.count_eq_zero.mpr (by simp)
      have hlen : vs.length = n := by
        have hp := hdone.printed
        rwa [hvs, hfailed, List.sum_singleton, Nat.add_zero] at hp
      rw [hlog, ← hvs, hdone.counted.1, hvs, hlen]
    · exact .inr ⟨(i, false), s', fun h => Bool.noConfusion h, hs⟩

end KernelMagic.Semaphore
