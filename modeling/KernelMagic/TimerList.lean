/-
  `timer_list.c`: a timer whose callback arms it again, and the exit of the module, which is to stop it.

  The callback and the exit run on different CPUs, and a schedule interleaves their steps. The kernel
  takes a pending timer that has expired off the list before it starts the callback, and the same timer
  is not run twice at once. `del_timer` takes a pending timer off the list and does not wait for a
  callback that is running. `hz` is the number of jiffies in a second.

  A callback that has started and not yet armed its timer survives `del_timer`: from then on the timer is
  pending or on its way to it in every state (`live_step`). A callback that has armed it no longer does,
  but it may still be running when the exit returns. Every other unload leaves nothing behind.
-/
import KernelMagic.Lib.History

namespace KernelMagic.TimerList

open KernelMagic.Lib

/-- Where `my_timer_callback` is: not running, or behind the start, its `pr_info`, its `mod_timer`. -/
inductive Callback where
  | idle
  | started
  | printed
  | armed
  deriving DecidableEq, Repr

/-- Where `my_module_exit` is: not called, or behind its `del_timer`, its `pr_info`, its return. -/
inductive Exit where
  | loaded
  | deleted
  | printed
  | returned
  deriving DecidableEq, Repr

/-- `myTimer` is the time at which the timer expires while it is pending; `log` is what was printed. -/
structure State where
  jiffies : Nat
  myTimer : Option Nat := none
  callback : Callback := .idle
  exit : Exit := .loaded
  log : List String := []
  deriving DecidableEq

/-- A step of a party, or time that passes. -/
inductive Act where
  | tick (d : Nat)
  | callback
  | exit
  deriving DecidableEq, Repr

/-! ## The module -/

/-- `msecs_to_jiffies`. -/
def msecsToJiffies (hz m : Nat) : Nat := (m * hz + 999) / 1000

def modTimer (s : State) (expires : Nat) : State := { s with myTimer := some expires }

def delTimer (s : State) : State := { s with myTimer := none }

/-- `pr_info`. -/
def prInfo (s : State) (line : String) : State := { s with log := s.log ++ [line] }

/-- The start of the callback by the kernel, and its steps. -/
def myTimerCallback (hz : Nat) (s : State) : Option State :=
  match s.callback with
  | .idle =>
    match s.myTimer with
    | none => none
    | some expires =>
      if expires ≤ s.jiffies then some { delTimer s with callback := .started } else none
  | .started => some { prInfo s "Timer expired!" with callback := .printed }
  | .printed => some { modTimer s (s.jiffies + msecsToJiffies hz 1000) with callback := .armed }
  | .armed => some { s with callback := .idle }

/-- The state that `my_module_init` leaves. -/
def myModuleInit (hz jiffies : Nat) : State :=
  modTimer (prInfo { jiffies := jiffies } "Module loaded") (jiffies + msecsToJiffies hz 1000)

def myModuleExit (s : State) : Option State :=
  match s.exit with
  | .loaded => some { delTimer s with exit := .deleted }
  | .deleted => some { prInfo s "Module unloaded" with exit := .printed }
  | .printed => some { s with exit := .returned }
  | .returned => none

def step (hz : Nat) (s : State) : Act → Option State
  | .tick d => some { s with jiffies := s.jiffies + d }
  | .callback => myTimerCallback hz s
  | .exit => myModuleExit s

/-- Once the exit has returned, the timer is not pending and its callback not running. -/
def Safe (s : State) : Prop := s.exit = .returned → s.myTimer = none ∧ s.callback = .idle

/-- `del_timer` is not called between the start of a callback and its `mod_timer`, and the exit does not
    return during a callback. -/
def Meets (s : State) : Act → Prop
  | .tick _ => True
  | .callback => True
  | .exit =>
    (s.exit = .loaded → s.callback = .idle ∨ s.callback = .armed) ∧
      (s.exit = .printed → s.callback = .idle)

instance (s : State) : (a : Act) → Decidable (Meets s a)
  | .tick _ => isTrue trivial
  | .callback => isTrue trivial
  | .exit => inferInstanceAs (Decidable (_ ∧ _))

/-! ## What a step does -/

variable {hz : Nat} {s s' : State} {a : Act}

/-- The callback starts on an expired timer, which is pending no longer; it prints; it arms the timer; it
    returns. The exit stays where it is. -/
theorem myTimerCallback_cases (h : myTimerCallback hz s = some s') :
    s'.exit = s.exit ∧
      (s.callback = .idle ∧ s.myTimer ≠ none ∧ s'.callback = .started ∨
        s.callback = .started ∧ s'.callback = .printed ∧ s'.myTimer = s.myTimer ∨
        s.callback = .printed ∧ s'.callback = .armed ∧ s'.myTimer ≠ none ∨
        s.callback = .armed ∧ s'.callback = .idle ∧ s'.myTimer = s.myTimer) := by
  unfold myTimerCallback at h
  split at h
  · next hcb =>
    split at h
    · exact absurd h nofun
    · next expires ht =>
      split at h
      · obtain rfl := Option.some.inj h
        exact ⟨rfl, .inl ⟨hcb, by rw [ht]; exact nofun, rfl⟩⟩
      · exact absurd h nofun
  · next hcb =>
    obtain rfl := Option.some.inj h
    exact ⟨rfl, .inr (.inl ⟨hcb, rfl, rfl⟩)⟩
  · next hcb =>
    obtain rfl := Option.some.inj h
    exact ⟨rfl, .inr (.inr (.inl ⟨hcb, rfl, nofun⟩))⟩
  · next hcb =>
    obtain rfl := Option.some.inj h
    exact ⟨rfl, .inr (.inr (.inr ⟨hcb, rfl, rfl⟩))⟩

/-- The exit takes the timer off, prints, and returns. The callback stays where it is. -/
theorem myModuleExit_cases (h : myModuleExit s = some s') :
    s'.callback = s.callback ∧
      (s.exit = .loaded ∧ s'.exit = .deleted ∧ s'.myTimer = none ∨
        s.exit = .deleted ∧ s'.exit = .printed ∧ s'.myTimer = s.myTimer ∨
        s.exit = .printed ∧ s'.exit = .returned ∧ s'.myTimer = s.myTimer) := by
  unfold myModuleExit at h
  split at h
  · next hex =>
    obtain rfl := Option.some.inj h
    exact ⟨rfl, .inl ⟨hex, rfl, rfl⟩⟩
  · next hex =>
    obtain rfl := Option.some.inj h
    exact ⟨rfl, .inr (.inl ⟨hex, rfl, rfl⟩)⟩
  · next hex =>
    obtain rfl := Option.some.inj h
    exact ⟨rfl, .inr (.inr ⟨hex, rfl, rfl⟩)⟩
  · exact absurd h nofun

/-! ## A timer that has escaped -/

/-- The exit has called `del_timer`, and the timer is pending or about to be. -/
structure Live (s : State) : Prop where
  deleted : s.exit ≠ .loaded
  timer : s.myTimer ≠ none ∨ s.callback = .started ∨ s.callback = .printed

/-- It stays so forever. -/
theorem live_step (hl : Live s) (h : step hz s a = some s') : Live s' := by
  obtain ⟨hdel, ht⟩ := hl
  match a with
  | .tick d =>
    obtain rfl := Option.some.inj h
    exact ⟨hdel, ht⟩
  | .callback =>
    obtain ⟨hex, hcb⟩ := myTimerCallback_cases h
    refine ⟨hex ▸ hdel, ?_⟩
    rcases hcb with ⟨-, -, hc⟩ | ⟨-, hc, -⟩ | ⟨-, -, ht'⟩ | ⟨hc, -, ht'⟩
    · exact .inr (.inl hc)
    · exact .inr (.inr hc)
    · exact .inl ht'
    · -- a callback that returns has armed the timer
      rw [ht']
      refine .inl (ht.resolve_right ?_)
      rw [hc]
      decide
  | .exit =>
    obtain ⟨hcb, hex⟩ := myModuleExit_cases h
    rcases hex with ⟨hload, -⟩ | ⟨-, hex, ht'⟩ | ⟨-, hex, ht'⟩
    · exact absurd hload hdel
    · exact ⟨by rw [hex]; decide, by rw [hcb, ht']; exact ht⟩
    · exact ⟨by rw [hex]; decide, by rw [hcb, ht']; exact ht⟩

theorem Live.not_safe (hl : Live s) (hret : s.exit = .returned) : ¬ Safe s := by
  intro hsafe
  obtain ⟨ht, hc⟩ := hsafe hret
  rcases hl.timer with h | h | h
  · exact h ht
  · exact absurd (hc.symm.trans h) (by decide)
  · exact absurd (hc.symm.trans h) (by decide)

/-- A step of the exit that does not meet the condition lets the timer escape, or returns during a
    callback. -/
theorem escapes (h : step hz s a = some s') (hm : ¬ Meets s a) :
    Live s' ∨ s'.exit = .returned ∧ s'.callback ≠ .idle := by
  match a with
  | .tick _ => exact absurd trivial hm
  | .callback => exact absurd trivial hm
  | .exit =>
    obtain ⟨hcb, hex⟩ := myModuleExit_cases h
    rcases hex with ⟨hload, hex, -⟩ | ⟨hdel, -⟩ | ⟨hpr, hex, -⟩
    · -- `del_timer` has come too early for the `mod_timer` of the callback
      left
      refine ⟨by rw [hex]; decide, .inr ?_⟩
      rw [hcb]
      match hc : s.callback with
      | .started => exact .inl rfl
      | .printed => exact .inr rfl
      | .idle => exact absurd ⟨fun _ => .inl hc, fun _ => hc⟩ hm
      | .armed => exact absurd ⟨fun _ => .inr hc, fun hp => absurd (hload.symm.trans hp) nofun⟩ hm
    · exact absurd ⟨fun hl => absurd (hdel.symm.trans hl) nofun,
        fun hp => absurd (hdel.symm.trans hp) nofun⟩ hm
    · right
      refine ⟨hex, fun hc => hm ⟨fun hl => absurd (hpr.symm.trans hl) nofun, fun _ => ?_⟩⟩
      exact hcb.symm.trans hc

/-! ## An exit that is in time -/

/-- The exit has called `del_timer` with effect: the timer is not pending, and a callback that is still
    running has nothing left to do but to return. -/
structure Off (s : State) : Prop where
  deleted : s.exit ≠ .loaded
  timer : s.myTimer = none
  callback : s.callback = .idle ∨ s.callback = .armed
  returned : s.exit = .returned → s.callback = .idle

theorem Off.safe (ho : Off s) : Safe s := fun hret => ⟨ho.timer, ho.returned hret⟩

theorem off_step (ho : Off s) (hm : Meets s a) (h : step hz s a = some s') : Off s' := by
  match a with
  | .tick d =>
    obtain rfl := Option.some.inj h
    exact ⟨ho.deleted, ho.timer, ho.callback, ho.returned⟩
  | .callback =>
    obtain ⟨hex, hcb⟩ := myTimerCallback_cases h
    have hdel : s'.exit ≠ .loaded := hex ▸ ho.deleted
    rcases hcb with ⟨-, ht, -⟩ | ⟨hc, -⟩ | ⟨hc, -⟩ | ⟨-, hc, ht⟩
    · exact absurd ho.timer ht
    · exact absurd ho.callback (by rw [hc]; decide)
    · exact absurd ho.callback (by rw [hc]; decide)
    · exact ⟨hdel, ht.trans ho.timer, .inl hc, fun _ => hc⟩
  | .exit =>
    obtain ⟨hcb, hex⟩ := myModuleExit_cases h
    have hcall : s'.callback = .idle ∨ s'.callback = .armed := hcb ▸ ho.callback
    rcases hex with ⟨hload, -⟩ | ⟨-, hex, ht⟩ | ⟨hpr, hex, ht⟩
    · exact absurd hload ho.deleted
    · exact ⟨by rw [hex]; decide, ht.trans ho.timer, hcall, by rw [hex]; exact nofun⟩
    · exact ⟨by rw [hex]; decide, ht.trans ho.timer, hcall, fun _ => hcb.trans (hm.2 hpr)⟩

/-- What every state of a run has whose steps meet the condition. -/
def Stopped (s : State) : Prop := s.exit = .loaded ∨ Off s

theorem Stopped.safe (hi : Stopped s) : Safe s := by
  rcases hi with hload | ho
  · exact fun hret => absurd (hload.symm.trans hret) nofun
  · exact ho.safe

theorem stopped_step (hi : Stopped s) (hm : Meets s a) (h : step hz s a = some s') :
    Stopped s' := by
  rcases hi with hload | ho
  · match a with
    | .tick d =>
      obtain rfl := Option.some.inj h
      exact .inl hload
    | .callback => exact .inl ((myTimerCallback_cases h).1.trans hload)
    | .exit =>
      obtain ⟨hcb, hex⟩ := myModuleExit_cases h
      rcases hex with ⟨-, hex, ht⟩ | ⟨hdel, -⟩ | ⟨hpr, -⟩
      · exact .inr ⟨by rw [hex]; decide, ht, hcb ▸ hm.1 hload, by rw [hex]; exact nofun⟩
      · exact absurd (hload.symm.trans hdel) nofun
      · exact absurd (hload.symm.trans hpr) nofun
  · exact .inr (off_step ho hm h)

/-! ## Unloading -/

/-- In a run that is safe throughout and in which the exit returns, every step meets the condition. -/
theorem along_of_safe {t : State} {as : List Act} (hr : run (step hz) s as = some t)
    (hret : t.exit = .returned) (hsafe : Always (step hz) Safe s as) :
    Along (step hz) Meets s as := by
  induction as generalizing s with
  | nil => trivial
  | cons a as ih =>
    obtain ⟨s', hs, hr'⟩ := run_cons_eq_some.mp hr
    have hsafe' := hsafe.2 s' hs
    refine (along_cons hs).mpr ⟨?_, ih hr' hsafe'⟩
    by_contra hm
    rcases escapes hs hm with hl | ⟨hex, hc⟩
    · have hl : Live t := run_keeps hr' hl fun _ _ _ hl hs => live_step hl hs
      exact hl.not_safe hret (hsafe'.last hr')
    · exact hc (hsafe'.head hex).2

theorem returned_step (h : step hz s a = some s') (hret : s.exit = .returned) :
    s'.exit = .returned := by
  match a with
  | .tick d =>
    obtain rfl := Option.some.inj h
    exact hret
  | .callback => exact (myTimerCallback_cases h).1.trans hret
  | .exit =>
    rcases (myModuleExit_cases h).2 with ⟨hex, -⟩ | ⟨hex, -⟩ | ⟨hex, -⟩
    · exact absurd (hret.symm.trans hex) nofun
    · exact absurd (hret.symm.trans hex) nofun
    · exact absurd (hret.symm.trans hex) nofun

/-- **Unloading.** A run is safe in every state if and only if, in case the exit returns in it,
    `del_timer` is not called between the start of a callback and its `mod_timer`, and the exit does not
    return during a callback. -/
theorem unload_iff (hz jiffies : Nat) (as : List Act) (t : State)
    (hr : run (step hz) (myModuleInit hz jiffies) as = some t) :
    Always (step hz) Safe (myModuleInit hz jiffies) as ↔
      (t.exit = .returned → Along (step hz) Meets (myModuleInit hz jiffies) as) := by
  constructor
  · exact fun hsafe hret => along_of_safe hr hret hsafe
  · intro hmeets
    by_cases hret : t.exit = .returned
    · exact always_inv (fun _ _ _ hi hm hs => stopped_step hi hm hs) (fun _ hi => hi.safe)
        (.inl rfl) (hmeets hret)
    · have hnot : Always (step hz) (fun s => s.exit ≠ .returned) (myModuleInit hz jiffies) as :=
        always_of_last (fun _ _ _ h hs => not_not.mpr (returned_step hs (not_not.mp h))) hr hret
      exact hnot.imp fun _ hne hret => absurd hret hne

/-- One expiry, and an unload after it. -/
def inTime : List Act :=
  [.tick 250, .callback, .callback, .callback, .callback, .exit, .exit, .exit]

theorem unload_inTime :
    ∃ t, run (step 250) (myModuleInit 250 0) inTime = some t ∧ t.exit = .returned ∧
      Always (step 250) Safe (myModuleInit 250 0) inTime := by
  have hr : run (step 250) (myModuleInit 250 0) inTime = some
      ⟨250, none, .idle, .returned, ["Module loaded", "Timer expired!", "Module unloaded"]⟩ := by
    decide
  exact ⟨_, hr, rfl, (unload_iff 250 0 inTime _ hr).mpr fun _ => by decide⟩

/-- The timer expires, and the module is unloaded before its callback has armed it again. -/
def duringCallback : List Act :=
  [.tick 250, .callback, .exit, .exit, .exit, .callback, .callback, .callback]

/-- The callback has returned after the exit, and the timer of the unloaded module is pending. -/
theorem unload_duringCallback :
    ∃ t, run (step 250) (myModuleInit 250 0) duringCallback = some t ∧ t.exit = .returned ∧
      t.callback = .idle ∧ t.myTimer = some 500 ∧
      ¬ Always (step 250) Safe (myModuleInit 250 0) duringCallback := by
  have hr : run (step 250) (myModuleInit 250 0) duringCallback = some
      ⟨250, some 500, .idle, .returned,
        ["Module loaded", "Module unloaded", "Timer expired!"]⟩ := by
    decide
  exact ⟨_, hr, rfl, rfl, rfl, fun h => absurd ((h.last hr) rfl).1 nofun⟩

end KernelMagic.TimerList
