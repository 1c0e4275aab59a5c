/-
  `demoqueue.c`: a work item that the module queues when it is loaded and cancels before it is unloaded.

  `cancel_work_sync` takes the work off its queue and then waits for a run of it that is under way.
  `destroy_workqueue` waits until the queue has nothing left to run. `create_workqueue` may fail; the
  answer of the environment is whether it succeeds.
-/
import KernelMagic.Lib.Deferred
import KernelMagic.Lib.History

namespace KernelMagic.Workqueue

open KernelMagic.Lib

/-- Where the module is: before each call of `my_module_init` and of `my_module_exit`, between the two,
    or behind them. `cancelled` is inside `cancel_work_sync`. -/
inductive Place where
  | init
  | create
  | noQueue
  | queue
  | loaded
  | cancelled
  | destroy
  | exit
  | failed
  | exited
  deriving DecidableEq, Repr

/-- What is printed: "Module initialized", "Failed to create workqueue", "Work function executed" and
    "Module exited". -/
inductive Line where
  | initialized
  | noQueue
  | executed
  | exited
  deriving DecidableEq, Repr

/-- `myWorkqueue` says whether the workqueue exists. -/
structure Mem where
  myWorkqueue : Bool
  log : List Line
  deriving DecidableEq

def printk (line : Line) (m : Mem) : Mem := { m with log := m.log ++ [line] }

/-- The steps of `my_work_function`: what it prints. -/
def myWorkFunction : List Line := [.executed]

/-- `my_module_init` and `my_module_exit`. -/
def module (k : Place) (created : Bool) (myWork : Job Line) (m : Mem) :
    Option (Place × Job.Op × Mem) :=
  match k with
  | .init => some (.create, .keep, printk .initialized m)
  | .create =>
    if created then some (.queue, .keep, { m with myWorkqueue := true })
    else some (.noQueue, .keep, m)
  | .noQueue => some (.failed, .keep, printk .noQueue m)
  | .queue => some (.loaded, .queue, m)
  | .loaded => some (.cancelled, .cancel, m)
  | .cancelled => if myWork.rest = none then some (.destroy, .keep, m) else none
  | .destroy =>
    if myWork = .idle then some (.exit, .keep, { m with myWorkqueue := false }) else none
  | .exit => some (.exited, .keep, printk .exited m)
  | .failed => none
  | .exited => none

abbrev State : Type := Deferred Line Place Mem

def step (s : State) (a : Party Bool) : Option State := s.step printk myWorkFunction module a

def start : State := ⟨.idle, .init, ⟨false, []⟩⟩

/-! ## The work function -/

/-- The module has no work pending: it has not queued it yet, or has begun to cancel it. -/
def Taken (k : Place) : Prop := k ≠ .loaded

/-- The module has no work running either: `cancel_work_sync` has returned. -/
def Stopped (k : Place) : Prop := k ≠ .loaded ∧ k ≠ .cancelled

/-- The work has not been queued. -/
def Before (k : Place) : Prop :=
  k = .init ∨ k = .create ∨ k = .noQueue ∨ k = .queue ∨ k = .failed

/-- The module has a workqueue. -/
def Has (k : Place) : Prop := k = .queue ∨ k = .loaded ∨ k = .cancelled ∨ k = .destroy

/-- What the work function has printed. -/
def executed (m : Mem) : List Line := m.log.filter (· = .executed)

instance : DecidablePred Taken := fun _ => instDecidableNot

instance : DecidablePred Stopped := fun _ => instDecidableAnd

variable {k k' : Place} {e : Bool} {j : Job Line} {op : Job.Op} {m m' : Mem} {s s' : State}

theorem quiet : Deferred.Quiet module Taken Stopped where
  take := by
    intro k e j m k' op m' hc ht
    unfold module at hc
    split at hc <;> grind [Taken]
  wait := by
    intro k e j m k' op m' hc hs
    unfold module at hc
    split at hc <;> grind [Taken, Stopped, Job.idle]

theorem once : Deferred.Once module executed Before Taken where
  own_eq := by
    intro k e j m k' op m' hc
    unfold module at hc
    split at hc <;> grind [printk, executed]
  before := by
    intro k e j m k' op m' hc hb
    unfold module at hc
    split at hc <;> grind [Before]
  queue := by
    intro k e j m k' op m' hc hop
    unfold module at hc
    split at hc <;> grind [Before]
  skip := by
    intro k e j m k' op m' hc hop hs
    unfold module at hc
    split at hc <;> grind [Taken]

/-! ## A run -/

/-- What the module has printed at each place in front of the line of the work, and behind it. -/
def head : Place → List Line
  | .init => []
  | .failed => [.initialized, .noQueue]
  | .create | .noQueue | .queue | .loaded | .cancelled | .destroy | .exit | .exited => [.initialized]

def tail : Place → List Line
  | .exited => [.exited]
  | .init | .create | .noQueue | .queue | .loaded | .cancelled | .destroy | .exit | .failed => []

/-- A step of the work, for what the work has printed. -/
def ran (line : Line) (r : List Line) : List Line := if line = .executed then r ++ [line] else r

theorem executed_printk (line : Line) (m : Mem) :
    executed (printk line m) = ran line (executed m) := by
  unfold executed printk ran
  rw [List.filter_append, List.filter_singleton]
  split <;> simp_all

/-- The order of the lines, and the life of the workqueue. -/
structure Shape (s : State) : Prop where
  log : s.mem.log = head s.module ++ executed s.mem ++ tail s.module
  queue : s.mem.myWorkqueue = true ↔ Has s.module

/-- What every state of a run has. -/
structure Reached (s : State) : Prop where
  quiet : Deferred.Quiet.Inv Taken Stopped s
  once : Deferred.Once.Inv ran myWorkFunction executed [] Before Taken s
  shape : Shape s

theorem start_reached : Reached start where
  quiet := .of_idle rfl
  once := .of_idle rfl rfl (by decide)
  shape := ⟨rfl, by simp [start, Has]⟩

/-- The work prints before the module has stopped it. -/
theorem shape_work {line : Line} {l : List Line} (hi : Reached s)
    (hj : s.job.rest = some (line :: l)) :
    Shape { s with job := { s.job with rest := some l }, mem := printk line s.mem } := by
  have hline : line = .executed := by
    obtain ⟨l₀, hbody, -⟩ := hi.once.progress.running _ hj
    have hmem : line ∈ myWorkFunction := by
      rw [hbody]
      simp
    exact List.mem_singleton.mp hmem
  have hplace : s.module = .loaded ∨ s.module = .cancelled := by
    have hnot : ¬ Stopped s.module := by
      intro hst
      rw [hi.quiet.wait hst] at hj
      cases hj
    unfold Stopped at hnot
    tauto
  have hends : head s.module = [.initialized] ∧ tail s.module = [] := by
    rcases hplace with h | h
    · rw [h]
      exact ⟨rfl, rfl⟩
    · rw [h]
      exact ⟨rfl, rfl⟩
  refine ⟨?_, hi.shape.queue⟩
  show s.mem.log ++ [line] = head s.module ++ executed (printk line s.mem) ++ tail s.module
  rw [executed_printk, hline, ran, if_pos rfl, hi.shape.log, hends.1, hends.2]
  simp

theorem shape_module (hi : Reached s) (hc : module s.module e s.job s.mem = some (k', op, m')) :
    Shape ⟨s.job.apply op, k', m'⟩ := by
  obtain ⟨hlog, hq⟩ := hi.shape
  have hown := once.own_eq _ _ _ _ _ _ _ hc
  have hbefore := hi.once.before
  constructor
  · unfold module at hc
    split at hc <;> grind [head, tail, printk, Before]
  · unfold module at hc
    split at hc <;> grind [printk, Has]

theorem Reached.step {a : Party Bool} (hi : Reached s) (hs : step s a = some s') :
    Reached s' where
  quiet := Workqueue.quiet.step hi.quiet hs
  once := Workqueue.once.step executed_printk hi.once hs
  shape := by
    match a with
    | .job =>
      rcases Deferred.jobStep_cases hs with ⟨-, rfl⟩ | ⟨b, l, hj, rfl⟩ | ⟨-, rfl⟩
      · exact ⟨hi.shape.log, hi.shape.queue⟩
      · exact shape_work hi hj
      · exact ⟨hi.shape.log, hi.shape.queue⟩
    | .module e =>
      obtain ⟨k', op, m', hc, rfl⟩ := Deferred.moduleStep_cases hs
      exact shape_module hi hc

/-- The work has printed its line at most once so far. -/
theorem Reached.executed_le (hi : Reached s) : s.mem.log.count .executed ≤ 1 := by
  obtain ⟨l₀, hl, hown⟩ := hi.once.progress.exists_prefix
  have hcount : s.mem.log.count .executed = (executed s.mem).length := by
    rw [List.count_eq_countP, List.countP_eq_length_filter]
    exact congrArg List.length (List.filter_congr fun _ _ => rfl)
  rw [hcount, hown]
  rcases List.prefix_cons_iff.mp hl with rfl | ⟨l, rfl, hnil⟩
  · exact Nat.zero_le 1
  · rw [List.prefix_nil.mp hnil]
    decide

/-- **Unloading.** In every state of every run: outside the time between `queue_work` and the return of
    `cancel_work_sync` the work is neither pending nor running, so nothing is left of it when the module
    has been unloaded or has failed to load; while it is pending or running the workqueue exists; it has
    run at most once, and when the module is gone, after its first line and before its last. -/
theorem work_stopped (as : List (Party Bool)) (s : State) (hr : run step start as = some s) :
    (Stopped s.module → s.job = .idle) ∧ (s.job ≠ .idle → s.mem.myWorkqueue = true) ∧
      s.mem.log.count .executed ≤ 1 ∧
      (s.module = .failed → s.mem.log = [.initialized, .noQueue]) ∧
      (s.module = .exited → s.mem.log = [.initialized, .exited] ∨
        s.mem.log = [.initialized, .executed, .exited]) := by
  have hi : Reached s := run_keeps hr start_reached fun _ _ _ hi hs => hi.step hs
  have hlog := hi.shape.log
  refine ⟨hi.quiet.wait, fun hj => hi.shape.queue.mpr ?_, hi.executed_le, fun hk => ?_, fun hk => ?_⟩
  · have hnot : ¬ Stopped s.module := fun hst => hj (hi.quiet.wait hst)
    unfold Stopped at hnot
    unfold Has
    grind
  · rw [hlog, hk, (hi.once.before (by simp [hk, Before])).2]
    rfl
  · have hidle := hi.quiet.wait (by simp [hk, Stopped])
    rcases hi.once.progress.done hidle with ⟨-, hown⟩ | hown
    · left
      rw [hlog, hk, hown]
      rfl
    · right
      rw [hlog, hk, hown]
      rfl

/-- The module is unloaded while its work is running. -/
def duringWork : List (Party Bool) :=
  [.module true, .module true, .module true, .job, .module true, .job, .job, .module true,
    .module true, .module true]

theorem stopped_duringWork :
    ∃ s, run step start duringWork = some s ∧ s.module = .exited ∧
      (Stopped s.module → s.job = .idle) ∧ (s.job ≠ .idle → s.mem.myWorkqueue = true) ∧
      s.mem.log.count .executed ≤ 1 ∧
      (s.module = .failed → s.mem.log = [.initialized, .noQueue]) ∧
      (s.module = .exited → s.mem.log = [.initialized, .exited] ∨
        s.mem.log = [.initialized, .executed, .exited]) := by
  have hr : run step start duringWork =
      some ⟨.idle, .exited, false, [.initialized, .executed, .exited]⟩ := by decide
  exact ⟨_, hr, rfl, work_stopped duringWork _ hr⟩

/-! ## Termination -/

/-- The steps of the module that are left, and of the work while it is still to be queued. -/
def steps : Place → Nat
  | .init => 10
  | .create => 9
  | .queue => 8
  | .loaded => 4
  | .cancelled => 3
  | .destroy => 2
  | .exit => 1
  | .noQueue => 1
  | .failed => 0
  | .exited => 0

theorem steps_lt (hc : module k e j m = some (k', op, m')) :
    steps k' + (if op = .queue then myWorkFunction.length + 2 else 0) < steps k := by
  unfold module at hc
  split at hc <;> grind [steps, myWorkFunction]

/-- The module can go on, or waits for the work. -/
theorem goes (s : State) :
    (s.module = .exited ∨ s.module = .failed) ∧ s.job = .idle ∨
      ∃ a s', Workqueue.step s a = some s' := by
  by_cases hidle : s.job = .idle
  · match hk : s.module with
    | .exited => exact .inl ⟨.inl rfl, hidle⟩
    | .failed => exact .inl ⟨.inr rfl, hidle⟩
    | .init | .create | .noQueue | .queue | .loaded | .cancelled | .destroy | .exit =>
      refine .inr ⟨.module true, ?_⟩
      simp [Workqueue.step, Deferred.step, Deferred.moduleStep, module, hk, hidle, Job.idle]
  · obtain ⟨s', hs⟩ := Deferred.exists_jobStep hidle
    exact .inr ⟨.job, s', hs⟩

/-- **No hang.** Every run comes to an end, with the module unloaded or not loaded and no work left. -/
theorem unload_total :
    Finishes step (fun _ _ => True) start
      fun s => (s.module = .exited ∨ s.module = .failed) ∧ s.job = .idle := by
  refine finishes_of_measure (Deferred.left myWorkFunction steps) ?_ ?_ start_reached
  · intro s a s' hi _ hs
    exact ⟨hi.step hs, Deferred.left_lt (fun _ _ _ _ _ _ _ hc => steps_lt hc) hs⟩
  · intro s _
    rcases goes s with hdone | ⟨a, s', hs⟩
    · exact .inl hdone
    · exact .inr ⟨a, s', trivial, hs⟩

end KernelMagic.Workqueue
