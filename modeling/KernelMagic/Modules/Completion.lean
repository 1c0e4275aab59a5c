/-
  `complete_demo.c`: a thread that updates a resource, and a `my_module_init` that waits for it.

  `wait_for_completion` returns when `complete` has been called once more than it has been waited for.
  `kthread_run` may fail; the answer of the environment is whether it succeeds. `kthread_stop` of a
  thread that has not started takes it away and returns `-EINTR`; otherwise it waits for its return.

  `my_module_init` clears `my_thread` before it returns, so `my_module_exit` never stops the thread. By
  then the thread has called `complete`, but it still has a line to print and to return, and nothing
  waits for that. Once `my_module_exit` has returned, the text of the module is freed (`unloaded`), and
  a thread that has not come to its end by then runs into memory that is not there: a `fault`.
-/
import KernelMagic.Lib.Deferred
import KernelMagic.Lib.History

namespace KernelMagic.Completion

open KernelMagic.Lib

/-- Where the module is: before each call of `my_module_init` and of `my_module_exit`, between the two,
    behind them, or gone. -/
inductive Place where
  | init
  | create
  | noThread
  | created
  | waiting
  | received
  | clear
  | loaded
  | stop
  | kill
  | killed (ret : Int)
  | absent
  | exit
  | failed
  | exited
  | unloaded
  | fault
  deriving DecidableEq, Repr

/-- What is printed, in the order in which it stands in the source. -/
inductive Line where
  | started
  | updated (sharedResource : Int)
  | completed
  | noThread
  | waiting
  | received
  | stop
  | already
  | stopped (ret : Int)
  | absent
  | exited
  deriving DecidableEq, Repr

/-- `my_thread`: `NULL`, the thread, or an error. -/
inductive TaskPtr where
  | null
  | thread
  | err
  deriving DecidableEq, Repr

/-- `compl` is the count of the completion. -/
structure Mem where
  compl : Nat
  sharedResource : Int
  myThread : TaskPtr
  log : List Line
  deriving DecidableEq

def printk (line : Line) (m : Mem) : Mem := { m with log := m.log ++ [line] }

/-- The statements of `my_thread_func`. -/
inductive Stmt where
  | printStarted
  | msleep
  | update
  | printUpdated
  | complete
  | printCompleted
  deriving DecidableEq, Repr

def Stmt.exec (b : Stmt) (m : Mem) : Mem :=
  match b with
  | .printStarted => printk .started m
  | .msleep => m
  | .update => { m with sharedResource := m.sharedResource + 1 }
  | .printUpdated => printk (.updated m.sharedResource) m
  | .complete => { m with compl := m.compl + 1 }
  | .printCompleted => printk .completed m

def myThreadFunc : List Stmt :=
  [.printStarted, .msleep, .update, .printUpdated, .complete, .printCompleted]

/-- `EINTR`. -/
def eintr : Int := 4

/-- `my_module_init` and `my_module_exit`. -/
def module (k : Place) (created : Bool) (thread : Job Stmt) (m : Mem) :
    Option (Place × Job.Op × Mem) :=
  match k with
  | .init => some (.create, .keep, { m with compl := 0 })
  | .create =>
    if created then some (.created, .queue, { m with myThread := .thread })
    else some (.noThread, .keep, { m with myThread := .err })
  | .noThread => some (.failed, .keep, printk .noThread m)
  | .created => some (.waiting, .keep, printk .waiting m)
  | .waiting =>
    if 0 < m.compl then some (.received, .keep, { m with compl := m.compl - 1 }) else none
  | .received => some (.clear, .keep, printk .received m)
  | .clear => some (.loaded, .keep, { m with myThread := .null })
  | .loaded => some (if m.myThread = .null then .absent else .stop, .keep, m)
  | .stop => some (.kill, .keep, printk .stop m)
  | .kill =>
    if thread.pending then some (.killed (-eintr), .cancel, m)
    else if thread.rest = none then some (.killed 0, .keep, m) else none
  | .killed ret => some (.exit, .keep, printk (if ret = -eintr then .already else .stopped ret) m)
  | .absent => some (.exit, .keep, printk .absent m)
  | .exit => some (.exited, .keep, printk .exited m)
  | .exited => some (.unloaded, .keep, m)
  | .failed => none
  | .unloaded => none
  | .fault => none

abbrev State : Type := Deferred Stmt Place Mem

/-- The next step of the thread; its text is that of the module. -/
def threadStep (s : State) : Option State :=
  if s.module = .unloaded then
    if s.job = .idle then none else some { s with module := .fault }
  else if s.module = .fault then none
  else s.jobStep Stmt.exec myThreadFunc

def step (s : State) : Party Bool → Option State
  | .job => threadStep s
  | .module e => s.moduleStep module e

def start : State := ⟨.idle, .init, ⟨0, 0, .null, []⟩⟩

/-! ## The thread -/

/-- The thread has not been created. -/
def Before (k : Place) : Prop := k = .init ∨ k = .create ∨ k = .noThread ∨ k = .failed

/-- The module is in the branch of `my_module_exit` that stops the thread. -/
def Stopping (k : Place) : Prop := k = .stop ∨ k = .kill ∨ ∃ ret, k = .killed ret

/-- `my_module_exit` is at its last line, or behind it. -/
def Leaving (k : Place) : Prop := k = .exit ∨ k = .exited ∨ k = .unloaded ∨ k = .fault

/-- The thread may never have run. -/
def Skipped (k : Place) : Prop := Before k ∨ Stopping k ∨ Leaving k

/-- `my_module_init` has returned 0. -/
def Loaded (k : Place) : Prop := k = .loaded ∨ k = .absent ∨ Leaving k

/-- `wait_for_completion` has returned. -/
def Received (k : Place) : Prop := k = .received ∨ k = .clear ∨ Loaded k

instance : DecidablePred Before := fun k =>
  inferInstanceAs (Decidable (k = .init ∨ k = .create ∨ k = .noThread ∨ k = .failed))

instance : DecidablePred Received := fun k =>
  inferInstanceAs (Decidable (k = .received ∨ k = .clear ∨ (k = .loaded ∨ k = .absent ∨
    (k = .exit ∨ k = .exited ∨ k = .unloaded ∨ k = .fault))))

/-- A step of the thread, for the resource. -/
def updates (b : Stmt) (r : Int) : Int := if b = .update then r + 1 else r

theorem sharedResource_exec (b : Stmt) (m : Mem) :
    (b.exec m).sharedResource = updates b m.sharedResource := by
  cases b <;> rfl

/-- The number of times that the thread has called `complete`. -/
def sent (k : Place) (j : Job Stmt) : Nat :=
  if j.pending then 0
  else match j.rest with
    | some l => if .complete ∈ l then 0 else 1
    | none => if Before k then 0 else 1

variable {k k' : Place} {e : Bool} {j : Job Stmt} {op : Job.Op} {m m' : Mem} {s s' : State}

theorem once : Deferred.Once module Mem.sharedResource Before Skipped where
  own_eq := by
    intro k e j m k' op m' hc
    unfold module at hc
    split at hc <;> grind [printk]
  before := by
    intro k e j m k' op m' hc hb
    unfold module at hc
    split at hc <;> grind [Before]
  queue := by
    intro k e j m k' op m' hc hop
    unfold module at hc
    split at hc <;> grind [Before]
  skip := by
    intro k e j m k' op m' hc hop hs
    unfold module at hc
    split at hc <;> grind [Skipped, Before, Stopping, Leaving]

/-- What is left of the thread is no more than its last line and its return. -/
def Passed (j : Job Stmt) : Prop :=
  j.pending = false ∧ ∀ l, j.rest = some l → l = [.printCompleted] ∨ l = []

/-- The completion, and what the module knows once it has waited for it. -/
structure Shape (s : State) : Prop where
  compl : ¬ Received s.module → ¬ Stopping s.module ∧ s.mem.compl = sent s.module s.job
  updated : Received s.module → s.mem.sharedResource = 1 ∧ Passed s.job
  told : Received s.module → s.module ≠ .received → .received ∈ s.mem.log
  cleared : Loaded s.module → s.mem.myThread = .null

/-- What every state of a run has. -/
structure Reached (s : State) : Prop where
  once : Deferred.Once.Inv updates myThreadFunc Mem.sharedResource 0 Before Skipped s
  shape : Shape s

theorem start_reached : Reached start where
  once := .of_idle rfl rfl (.inl (.inl rfl))
  shape := by
    have hnot : ¬ Received start.module := by decide
    exact ⟨fun _ => ⟨by simp [start, Stopping], rfl⟩, fun h => absurd h hnot, fun h => absurd h hnot,
      fun h => absurd (.inr (.inr h)) hnot⟩

/-- Behind `complete` there is the last line, and the update has been made. -/
theorem behind_complete {l₀ l : List Stmt} (hbody : myThreadFunc = l₀ ++ l)
    (hc : Stmt.complete ∉ l) :
    (l = [.printCompleted] ∨ l = []) ∧ l₀.foldl (fun r b => updates b r) 0 = 1 := by
  have hall : ∀ n ≤ 6, Stmt.complete ∉ myThreadFunc.drop n →
      (myThreadFunc.drop n = [.printCompleted] ∨ myThreadFunc.drop n = []) ∧
        (myThreadFunc.take n).foldl (fun r b => updates b r) 0 = 1 := by decide
  have hlen : l₀.length ≤ 6 := by
    have := congrArg List.length hbody
    rw [List.length_append] at this
    exact Nat.le.intro this.symm
  have h := hall l₀.length hlen
  rw [hbody, List.drop_left, List.take_left] at h
  exact h hc

/-- A thread that has called `complete` has updated the resource. -/
theorem Reached.sent_one (hi : Reached s) (hk : ¬ Skipped s.module)
    (h : sent s.module s.job ≠ 0) : s.mem.sharedResource = 1 ∧ Passed s.job := by
  have hpending : s.job.pending = false := by
    by_contra hp
    exact h (if_pos (by simpa using hp))
  match hr : s.job.rest with
  | none =>
    refine ⟨?_, hpending, fun l hl => by simp [hr] at hl⟩
    rcases hi.once.progress.done (Job.eq_idle hpending hr) with ⟨hs, -⟩ | hown
    · exact absurd hs hk
    · exact hown
  | some l =>
    have hc : Stmt.complete ∉ l := by
      intro hc
      refine h ?_
      rw [sent, hpending, hr]
      simp [hc]
    obtain ⟨l₀, hbody, hown⟩ := hi.once.progress.running l hr
    obtain ⟨hl, hone⟩ := behind_complete hbody hc
    exact ⟨hown.trans hone, hpending, fun l' hl' => Option.some.inj (hr.symm.trans hl') ▸ hl⟩

theorem compl_exec (b : Stmt) (m : Mem) :
    (b.exec m).compl = m.compl + if b = .complete then 1 else 0 := by
  cases b <;> rfl

theorem myThread_exec (b : Stmt) (m : Mem) : (b.exec m).myThread = m.myThread := by
  cases b <;> rfl

theorem log_exec (b : Stmt) (m : Mem) : m.log <+: (b.exec m).log := by
  cases b <;> simp [Stmt.exec, printk]

/-- A statement of the thread, for the completion. -/
theorem sent_cons {l₀ l : List Stmt} {b : Stmt} (hbody : myThreadFunc = l₀ ++ b :: l) :
    sent k ⟨false, some l⟩ = sent k ⟨false, some (b :: l)⟩ + if b = .complete then 1 else 0 := by
  have hnodup : (b :: l).Nodup := by
    have h : myThreadFunc.Nodup := by decide
    rw [hbody] at h
    exact h.of_append_right
  unfold sent
  by_cases hb : b = .complete
  · have hnot : Stmt.complete ∉ l := hb ▸ (List.nodup_cons.mp hnodup).1
    simp [hb, hnot]
  · simp [hb, Ne.symm hb]

theorem shape_thread (hi : Reached s) (hs : Deferred.jobStep Stmt.exec myThreadFunc s = some s') :
    Shape s' := by
  obtain ⟨hcompl, hupd, htold, hclear⟩ := hi.shape
  have hbefore := hi.once.before
  have hpending := hi.once.progress.pending
  have hnot : ¬ Before s.module := by
    intro hb
    rw [Deferred.jobStep_idle (hbefore hb).1] at hs
    cases hs
  rcases Deferred.jobStep_cases hs with ⟨hj, rfl⟩ | ⟨b, l, hj, rfl⟩ | ⟨hj, rfl⟩
  · refine ⟨fun hk => ⟨(hcompl hk).1, ?_⟩, fun hk => ?_, htold, hclear⟩
    · rw [(hcompl hk).2, hj]
      rfl
    · rw [hj] at hupd
      exact absurd (hupd hk).2.1 (by decide)
  · obtain ⟨l₀, hbody, -⟩ := hi.once.progress.running _ hj
    have hp : s.job.pending = false := by
      by_contra hp
      rw [(hpending (by simpa using hp)).1] at hj
      cases hj
    have hjob : s.job = ⟨false, some (b :: l)⟩ := by rw [← hp, ← hj]
    refine ⟨fun hk => ⟨(hcompl hk).1, ?_⟩, fun hk => ?_, fun hk hne => ?_, fun hk => ?_⟩
    · show (b.exec s.mem).compl = sent s.module { s.job with rest := some l }
      rw [compl_exec, (hcompl hk).2, hjob, sent_cons hbody]
    · obtain ⟨hone, -, hl⟩ := hupd hk
      have hb : b = .printCompleted ∧ l = [] := by
        rcases hl _ hj with h | h
        · exact ⟨(List.cons.inj h).1, (List.cons.inj h).2⟩
        · cases h
      obtain ⟨rfl, rfl⟩ := hb
      refine ⟨hone, hp, fun l hl => .inr (Option.some.inj hl).symm⟩
    · exact (log_exec b s.mem).subset (htold hk hne)
    · show (b.exec s.mem).myThread = .null
      rw [myThread_exec]
      exact hclear hk
  · refine ⟨fun hk => ⟨(hcompl hk).1, ?_⟩, fun hk => ⟨(hupd hk).1, (hupd hk).2.1, ?_⟩, htold, hclear⟩
    · show s.mem.compl = sent s.module { s.job with rest := none }
      rw [(hcompl hk).2]
      unfold sent
      simp [hj, hnot]
    · intro l hl
      cases hl

/-- The thread runs into the text that is gone: nothing else changes. -/
theorem Reached.faulted (hi : Reached s) (hk : s.module = .unloaded) :
    Reached { s with module := .fault } where
  once := by
    have hnot : ¬ Before .fault := by decide
    refine ⟨fun hb => absurd hb hnot, ?_⟩
    obtain ⟨hpending, hrunning, hdone⟩ := hi.once.progress
    refine ⟨hpending, hrunning, fun hidle => (hdone hidle).imp_left fun h => ⟨?_, h.2⟩⟩
    exact .inr (.inr (.inr (.inr (.inr rfl))))
  shape := by
    have hleaving : Loaded s.module := by simp [Loaded, Leaving, hk]
    have hrec : Received s.module := .inr (.inr hleaving)
    refine ⟨fun h => absurd (.inr (.inr (.inr (.inr (.inr (.inr (.inr rfl))))))) h, fun _ => ?_,
      fun _ _ => ?_, fun _ => ?_⟩
    · exact hi.shape.updated hrec
    · exact hi.shape.told hrec (by simp [hk])
    · exact hi.shape.cleared hleaving

theorem threadStep_cases (hs : threadStep s = some s') :
    (s.module = .unloaded ∧ s.job ≠ .idle ∧ s' = { s with module := .fault }) ∨
      Deferred.jobStep Stmt.exec myThreadFunc s = some s' := by
  unfold threadStep at hs
  split at hs
  · next hk =>
    split at hs
    · cases hs
    · next hj => exact .inl ⟨hk, hj, (Option.some.inj hs).symm⟩
  · split at hs
    · cases hs
    · exact .inr hs

theorem shape_module (hi : Reached s) (hc : module s.module e s.job s.mem = some (k', op, m')) :
    Shape ⟨s.job.apply op, k', m'⟩ := by
  obtain ⟨hcompl, hupd, htold, hclear⟩ := hi.shape
  have hbefore := hi.once.before
  have hone := hi.sent_one
  refine ⟨fun hk => ?_, fun hk => ?_, fun hk hne => ?_, fun hk => ?_⟩
  · unfold module at hc
    split at hc <;> grind [Received, Stopping, Loaded, Leaving, Before, printk, Job.apply, sent, Job.idle]
  · unfold module at hc
    split at hc <;> grind [Received, Loaded, Leaving, Stopping, Before, Skipped, printk, Job.apply]
  · unfold module at hc
    split at hc <;> grind [Received, Loaded, Leaving, Stopping, printk]
  · unfold module at hc
    split at hc <;> grind [Received, Loaded, Leaving, Stopping, printk]

theorem Reached.step {a : Party Bool} (hi : Reached s) (hs : step s a = some s') : Reached s' := by
  match a with
  | .job =>
    rcases threadStep_cases hs with ⟨hk, -, rfl⟩ | hs
    · exact hi.faulted hk
    · exact ⟨Deferred.Once.jobStep sharedResource_exec hi.once hs, shape_thread hi hs⟩
  | .module e =>
    obtain ⟨k', op, m', hc, rfl⟩ := Deferred.moduleStep_cases hs
    exact ⟨Completion.once.moduleStep hi.once hs, shape_module hi hc⟩

/-! ## A run -/

/-- **Completion.** In every state of every run: once `wait_for_completion` has returned, the resource has
    been updated and nothing is left of the thread but its last line and its return; `kthread_stop` is
    never called, since `my_thread` is cleared before the exit reads it; and where the thread could not
    be created nothing of it has happened. -/
theorem completion_received (as : List (Party Bool)) (s : State)
    (hr : run step start as = some s) :
    (Received s.module → s.mem.sharedResource = 1 ∧ Passed s.job) ∧ ¬ Stopping s.module ∧
      (Loaded s.module → s.mem.myThread = .null) ∧
      (s.module = .failed → s.mem.sharedResource = 0 ∧ s.job = .idle) := by
  have hi : Reached s := run_keeps hr start_reached fun _ _ _ hi hs => hi.step hs
  refine ⟨hi.shape.updated, fun hstop => ?_, hi.shape.cleared, fun hk => ?_⟩
  · refine (hi.shape.compl fun hrec => ?_).1 hstop
    unfold Stopping at hstop
    unfold Received Loaded Leaving at hrec
    grind
  · obtain ⟨hidle, hown⟩ := hi.once.before (.inr (.inr (.inr hk)))
    exact ⟨hown, hidle⟩

/-- The module is loaded and unloaded; the thread calls `complete` and has not printed its last line
    yet. -/
def overtake : List (Party Bool) :=
  [.module true, .module true, .module true, .job, .job, .job, .job, .job, .job, .module true,
    .module true, .module true, .module true, .module true, .module true, .module true]

theorem received_overtake :
    ∃ s, run step start overtake = some s ∧ s.module = .unloaded ∧
      s.job.rest = some [.printCompleted] ∧ step s .job = some { s with module := .fault } ∧
      (Received s.module → s.mem.sharedResource = 1 ∧ Passed s.job) ∧ ¬ Stopping s.module ∧
      (Loaded s.module → s.mem.myThread = .null) ∧
      (s.module = .failed → s.mem.sharedResource = 0 ∧ s.job = .idle) := by
  have hr : run step start overtake = some ⟨⟨false, some [.printCompleted]⟩, .unloaded,
      0, 1, .null, [.waiting, .started, .updated 1, .received, .absent, .exited]⟩ := by decide
  exact ⟨_, hr, rfl, rfl, rfl, completion_received overtake _ hr⟩

/-! ## Termination -/

def steps : Place → Nat
  | .init => 21
  | .create => 20
  | .created => 11
  | .waiting => 10
  | .received => 9
  | .clear => 8
  | .loaded => 7
  | .stop => 6
  | .kill => 5
  | .killed _ => 4
  | .absent => 4
  | .exit => 3
  | .exited => 2
  | .unloaded => 1
  | .noThread => 1
  | .failed => 0
  | .fault => 0

theorem steps_lt (hc : module k e j m = some (k', op, m')) :
    steps k' + (if op = .queue then myThreadFunc.length + 2 else 0) < steps k := by
  unfold module at hc
  split at hc <;> grind [steps, myThreadFunc]

theorem left_lt {a : Party Bool} (hs : step s a = some s') :
    s'.left myThreadFunc steps < s.left myThreadFunc steps := by
  have hlt : ∀ {t : State} {b : Party Bool}, s.step Stmt.exec myThreadFunc module b = some t →
      t.left myThreadFunc steps < s.left myThreadFunc steps :=
    fun h => Deferred.left_lt (fun _ _ _ _ _ _ _ hc => steps_lt hc) h
  match a with
  | .job =>
    rcases threadStep_cases hs with ⟨hk, -, rfl⟩ | hs
    · simp [Deferred.left, steps, hk]
    · exact hlt (b := .job) hs
  | .module e => exact hlt (b := .module e) hs

/-- The ends of the runs. -/
inductive Ended (s : State) : Prop
  | failed (hk : s.module = .failed) (hj : s.job = .idle)
  | unloaded (hk : s.module = .unloaded) (hj : s.job = .idle)
  | fault (hk : s.module = .fault) (hj : Passed s.job)

/-- The thread goes on, or the module does: it waits for no completion that does not come. -/
theorem Reached.go (hi : Reached s) : Ended s ∨ ∃ a s', Completion.step s a = some s' := by
  by_cases hfault : s.module = .fault
  · refine .inl (.fault hfault (hi.shape.updated ?_).2)
    simp [Received, Loaded, Leaving, hfault]
  by_cases hidle : s.job = .idle
  · have hcompl := hi.shape.compl
    match hk : s.module with
    | .failed => exact .inl (.failed hk hidle)
    | .unloaded => exact .inl (.unloaded hk hidle)
    | .fault => exact absurd hk hfault
    | .waiting =>
      have hpos : 0 < s.mem.compl := by
        rw [(hcompl (by rw [hk]; decide)).2, hk, hidle]
        decide
      refine .inr ⟨.module true, ?_⟩
      simp [Completion.step, Deferred.moduleStep, module, hk, hpos]
    | .init | .create | .noThread | .created | .received | .clear | .loaded | .stop | .kill
    | .killed _ | .absent | .exit | .exited =>
      refine .inr ⟨.module true, ?_⟩
      simp [Completion.step, Deferred.moduleStep, module, hk, hidle, Job.idle]
  · refine .inr ⟨.job, ?_⟩
    simp only [Completion.step, threadStep]
    by_cases hk : s.module = .unloaded
    · rw [if_pos hk, if_neg hidle]
      exact ⟨_, rfl⟩
    · rw [if_neg hk, if_neg hfault]
      exact Deferred.exists_jobStep hidle

/-- **No hang.** Every run comes to an end: the thread could not be created, or the module has said that
    it has got the completion and is unloaded. Then the thread has returned, unless it was at its last
    line or its return when the text of the module went. -/
theorem wait_total :
    Finishes step (fun _ _ => True) start
      fun s => Ended s ∧ (s.module = .failed ∨ .received ∈ s.mem.log) := by
  refine finishes_of_measure (Deferred.left myThreadFunc steps) ?_ ?_ start_reached
  · intro s a s' hi _ hs
    exact ⟨hi.step hs, left_lt hs⟩
  · intro s hi
    rcases hi.go with hend | ⟨a, s', hs⟩
    · refine .inl ⟨hend, ?_⟩
      have htold := hi.shape.told
      rcases hend with ⟨hk, -⟩ | ⟨hk, -⟩ | ⟨hk, -⟩
      · exact .inl hk
      · exact .inr (htold (by simp [Received, Loaded, Leaving, hk]) (by simp [hk]))
      · exact .inr (htold (by simp [Received, Loaded, Leaving, hk]) (by simp [hk]))
    · exact .inr ⟨a, s', trivial, hs⟩

end KernelMagic.Completion
