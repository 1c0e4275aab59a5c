/-
  `tasklet_demo.c`: a tasklet that the module schedules when it is loaded and kills before it is
  unloaded.

  `tasklet_kill` does not take the tasklet off its list. It waits until the tasklet is no longer
  scheduled, which is when its handler has started, and then until the handler has returned. So the
  handler of a module that has been unloaded has run, and exactly once.
-/
import KernelMagic.Lib.Deferred
import KernelMagic.Lib.History

namespace KernelMagic.Tasklet

open KernelMagic.Lib

/-- Where the module is: before `tasklet_schedule` and the `printk` of `my_module_init`, loaded, inside
    `tasklet_kill`, before the `printk` of `my_module_exit`, or behind it. -/
inductive Place where
  | init
  | scheduled
  | loaded
  | unscheduled
  | killed
  | exited
  deriving DecidableEq, Repr

/-- What is printed: "Tasklet scheduled", "Tasklet executed: data = %lu" and "Tasklet killed". -/
inductive Line where
  | scheduled
  | executed (data : Nat)
  | killed
  deriving DecidableEq, Repr

def printk (line : Line) (log : List Line) : List Line := log ++ [line]

/-- The steps of `my_tasklet_handler`: what it prints. -/
def myTaskletHandler (data : Nat) : List Line := [.executed data]

/-- The handler with the data that `tasklet_init` gives it. -/
def myTasklet : List Line := myTaskletHandler 3344

/-- `my_module_init` and `my_module_exit`. -/
def module (k : Place) (_ : Unit) (tasklet : Job Line) (log : List Line) :
    Option (Place × Job.Op × List Line) :=
  match k with
  | .init => some (.scheduled, .queue, log)
  | .scheduled => some (.loaded, .keep, printk .scheduled log)
  | .loaded => if tasklet.pending then none else some (.unscheduled, .keep, log)
  | .unscheduled => if tasklet.rest = none then some (.killed, .keep, log) else none
  | .killed => some (.exited, .keep, printk .killed log)
  | .exited => none

abbrev State : Type := Deferred Line Place (List Line)

def step (s : State) (a : Party Unit) : Option State := s.step printk myTasklet module a

def start : State := ⟨.idle, .init, []⟩

/-! ## The handler -/

/-- The tasklet is not scheduled: not yet, or `tasklet_kill` has seen that it no longer is. -/
def Taken (k : Place) : Prop := k ≠ .scheduled ∧ k ≠ .loaded

/-- Its handler is not running either. -/
def Stopped (k : Place) : Prop := k = .init ∨ k = .killed ∨ k = .exited

def Before (k : Place) : Prop := k = .init

/-- What the handler has printed. -/
def executed (log : List Line) : List Line :=
  log.filter fun line => line ≠ .scheduled ∧ line ≠ .killed

/-- A step of the handler, for what it has printed. -/
def ran (line : Line) (r : List Line) : List Line :=
  r ++ [line].filter fun line => line ≠ .scheduled ∧ line ≠ .killed

theorem executed_printk (line : Line) (log : List Line) :
    executed (printk line log) = ran line (executed log) := List.filter_append _ _

variable {k k' : Place} {e : Unit} {j : Job Line} {op : Job.Op} {log log' : List Line}
  {s s' : State}

theorem quiet : Deferred.Quiet module Taken Stopped where
  take := by
    intro k e j m k' op m' hc ht
    unfold module at hc
    split at hc <;> grind [Taken]
  wait := by
    intro k e j m k' op m' hc hs
    unfold module at hc
    split at hc <;> grind [Taken, Stopped]

/-- The tasklet is never cancelled, so it may not have run only before it is scheduled. -/
theorem once : Deferred.Once module executed Before Before where
  own_eq := by
    intro k e j m k' op m' hc
    unfold module at hc
    split at hc <;> grind [printk, executed]
  before := by
    intro k e j m k' op m' hc hb
    unfold module at hc
    split at hc <;> grind [Before]
  queue := by
    intro k e j m k' op m' hc hop
    unfold module at hc
    split at hc <;> grind [Before]
  skip := by
    intro k e j m k' op m' hc hop hs
    unfold module at hc
    split at hc <;> grind [Before]

/-! ## A run -/

/-- The lines at a place, with those of the handler among them. -/
def Shape (k : Place) (log own : List Line) : Prop :=
  match k with
  | .init => log = []
  | .scheduled => log = own
  | .loaded | .unscheduled | .killed => log = .scheduled :: own ∨ log = own ++ [.scheduled]
  | .exited => log = .scheduled :: own ++ [.killed] ∨ log = own ++ [.scheduled] ++ [.killed]

/-- What every state of a run has. -/
structure Reached (s : State) : Prop where
  quiet : Deferred.Quiet.Inv Taken Stopped s
  once : Deferred.Once.Inv ran myTasklet executed [] Before Before s
  shape : Shape s.module s.mem (executed s.mem)

theorem start_reached : Reached start where
  quiet := .of_idle rfl
  once := .of_idle rfl rfl rfl
  shape := rfl

/-- The handler prints its one line while the module has not stopped it. -/
theorem shape_handler {line : Line} {l : List Line} (hi : Reached s)
    (hj : s.job.rest = some (line :: l)) :
    Shape s.module (printk line s.mem) (executed (printk line s.mem)) := by
  obtain ⟨l₀, hbody, hown⟩ := hi.once.progress.running _ hj
  obtain ⟨rfl, rfl⟩ : l₀ = [] ∧ line = .executed 3344 := by
    match l₀, hbody with
    | [], h => exact ⟨rfl, (List.cons.inj h).1.symm⟩
    | _ :: l₁, h =>
      have hnil := congrArg List.length (List.cons.inj h).2
      simp at hnil
  have hnot : ¬ Stopped s.module := by
    intro hst
    rw [hi.quiet.wait hst] at hj
    cases hj
  have hshape := hi.shape
  rw [executed_printk, hown]
  rw [hown] at hshape
  match hk : s.module with
  | .init => exact absurd (.inl hk) hnot
  | .killed => exact absurd (.inr (.inl hk)) hnot
  | .exited => exact absurd (.inr (.inr hk)) hnot
  | .scheduled =>
    rw [hk] at hshape
    rw [show s.mem = [] from hshape]
    rfl
  | .loaded | .unscheduled =>
    -- nothing of the handler is there yet, so both orders are the same
    rw [hk] at hshape
    rw [show s.mem = [.scheduled] from hshape.elim id id]
    exact .inl rfl

theorem shape_module (hi : Reached s)
    (hc : module s.module e s.job s.mem = some (k', op, log')) :
    Shape k' log' (executed log') := by
  have hshape := hi.shape
  have hown := once.own_eq _ _ _ _ _ _ _ hc
  rw [hown]
  unfold module at hc
  split at hc <;> grind [Shape, printk, executed]

theorem Reached.step {a : Party Unit} (hi : Reached s) (hs : step s a = some s') : Reached s' where
  quiet := Tasklet.quiet.step hi.quiet hs
  once := Tasklet.once.step executed_printk hi.once hs
  shape := by
    match a with
    | .job =>
      rcases Deferred.jobStep_cases hs with ⟨-, rfl⟩ | ⟨b, l, hj, rfl⟩ | ⟨-, rfl⟩
      · exact hi.shape
      · exact shape_handler hi hj
      · exact hi.shape
    | .module e =>
      obtain ⟨k', op, m', hc, rfl⟩ := Deferred.moduleStep_cases hs
      exact shape_module hi hc

/-- What is printed once `tasklet_kill` has returned. -/
theorem Reached.shape_killed (hi : Reached s) (hk : s.module = .killed ∨ s.module = .exited) :
    Shape s.module s.mem [.executed 3344] := by
  have hidle : s.job = .idle := hi.quiet.wait (.inr hk)
  rcases hi.once.progress.done hidle with ⟨hb, -⟩ | hown
  · rcases hk with hk | hk <;> exact absurd (hk.symm.trans hb) (by decide)
  · have hshape := hi.shape
    rw [hown] at hshape
    exact hshape

/-- **Kill.** In every state of every run the handler is neither scheduled nor running once
    `tasklet_kill` has returned; and then it has run exactly once, with its data, either before or after
    the line of `my_module_init`, and always before the last line of the module. -/
theorem kill_waits (as : List (Party Unit)) (s : State) (hr : run step start as = some s) :
    (Stopped s.module → s.job = .idle) ∧
      (s.module = .killed → s.mem = [.scheduled, .executed 3344] ∨
        s.mem = [.executed 3344, .scheduled]) ∧
      (s.module = .exited → s.mem = [.scheduled, .executed 3344, .killed] ∨
        s.mem = [.executed 3344, .scheduled, .killed]) := by
  have hi : Reached s := run_keeps hr start_reached fun _ _ _ hi hs => hi.step hs
  refine ⟨hi.quiet.wait, fun hk => ?_, fun hk => ?_⟩
  · have hshape := hi.shape_killed (.inl hk)
    rw [hk] at hshape
    exact hshape
  · have hshape := hi.shape_killed (.inr hk)
    rw [hk] at hshape
    exact hshape

/-- The softirq runs the handler before the module has printed its first line. -/
def handlerFirst : List (Party Unit) :=
  [.module (), .job, .job, .module (), .module (), .job, .module (), .module ()]

theorem kill_handlerFirst :
    ∃ s, run step start handlerFirst = some s ∧ s.module = .exited ∧
      (Stopped s.module → s.job = .idle) ∧
      (s.module = .killed → s.mem = [.scheduled, .executed 3344] ∨
        s.mem = [.executed 3344, .scheduled]) ∧
      (s.module = .exited → s.mem = [.scheduled, .executed 3344, .killed] ∨
        s.mem = [.executed 3344, .scheduled, .killed]) := by
  have hr : run step start handlerFirst =
      some ⟨.idle, .exited, [.executed 3344, .scheduled, .killed]⟩ := by decide
  exact ⟨_, hr, rfl, kill_waits handlerFirst _ hr⟩

/-! ## Termination -/

def steps : Place → Nat
  | .init => 8
  | .scheduled => 4
  | .loaded => 3
  | .unscheduled => 2
  | .killed => 1
  | .exited => 0

theorem steps_lt (hc : module k e j log = some (k', op, log')) :
    steps k' + (if op = .queue then myTasklet.length + 2 else 0) < steps k := by
  unfold module at hc
  split at hc <;> grind [steps, myTasklet, myTaskletHandler]

/-- `tasklet_kill` does not wait for ever. -/
theorem kill_total :
    Finishes step (fun _ _ => True) start fun s => s.module = .exited ∧ s.job = .idle := by
  refine finishes_of_measure (Deferred.left myTasklet steps) ?_ ?_ start_reached
  · intro s a s' hi _ hs
    exact ⟨hi.step hs, Deferred.left_lt (fun _ _ _ _ _ _ _ hc => steps_lt hc) hs⟩
  · intro s _
    by_cases hidle : s.job = .idle
    · match hk : s.module with
      | .exited => exact .inl ⟨rfl, hidle⟩
      | .init | .scheduled | .loaded | .unscheduled | .killed =>
        refine .inr ⟨.module (), ?_⟩
        simp [step, Deferred.step, Deferred.moduleStep, module, hk, hidle, Job.idle]
    · obtain ⟨s', hs⟩ := Deferred.exists_jobStep hidle
      exact .inr ⟨.job, s', trivial, hs⟩

end KernelMagic.Tasklet
