/-
  Machines driven by a schedule. `step s a` is what action `a` does in state `s`, `none` when the
  action is not enabled there. A schedule is a list of actions; `run` follows it.

  `Along step P s as` says that every step taken on the schedule `as` from `s` meets `P`, and
  `Always step Q s as` that every state it goes through has `Q`. The inductions over schedules are done
  here once:
  * `run_inv`: an invariant that each step meeting `P` keeps holds at the end of every run.
  * `always_inv`: it holds in every state on the way.
  * `run_length`: if each such step also lowers a measure, the run is no longer than the measure.
  `Finishes` is total correctness of a machine under a condition on its steps; `finishes_of_measure`
  proves it from an invariant, a measure and the absence of stuck states. `EndsIn` are the ends of the
  complete runs: there is one (`Finishes.exists_end`), and each is as it should be (`Finishes.at_end`).
-/
import Mathlib

namespace KernelMagic.Lib

variable {σ α : Type}

/-- Follow a schedule; `none` as soon as an action is not enabled. -/
def run (step : σ → α → Option σ) : σ → List α → Option σ
  | s, [] => some s
  | s, a :: as => (step s a).bind fun s' => run step s' as

/-- Every step taken on the schedule meets `P` (read in the state before the step). -/
def Along (step : σ → α → Option σ) (P : σ → α → Prop) : σ → List α → Prop
  | _, [] => True
  | s, a :: as => P s a ∧ ∀ s', step s a = some s' → Along step P s' as

instance decidableAlong (step : σ → α → Option σ) (P : σ → α → Prop)
    [∀ s a, Decidable (P s a)] : (s : σ) → (as : List α) → Decidable (Along step P s as)
  | _, [] => isTrue trivial
  | s, a :: as =>
    match h : step s a with
    | none => decidable_of_iff (P s a) ⟨fun hp => ⟨hp, fun _ hs => by cases h.symm.trans hs⟩, And.left⟩
    | some s' =>
      have := decidableAlong step P s' as
      decidable_of_iff (P s a ∧ Along step P s' as)
        ⟨fun hp => ⟨hp.1, fun _ hs => Option.some.inj (h.symm.trans hs) ▸ hp.2⟩,
          fun hp => ⟨hp.1, hp.2 s' h⟩⟩

variable {step : σ → α → Option σ} {P : σ → α → Prop}

theorem run_cons (s : σ) (a : α) (as : List α) :
    run step s (a :: as) = (step s a).bind fun s' => run step s' as := rfl

theorem run_cons_eq_some {s t : σ} {a : α} {as : List α} :
    run step s (a :: as) = some t ↔ ∃ s', step s a = some s' ∧ run step s' as = some t := by
  rw [run_cons, Option.bind_eq_some_iff]

/-- A machine that is never stuck follows every schedule. -/
theorem exists_run (h : ∀ s a, ∃ s', step s a = some s') (s : σ) (as : List α) :
    ∃ t, run step s as = some t := by
  induction as generalizing s with
  | nil => exact ⟨s, rfl⟩
  | cons a as ih =>
    obtain ⟨s', hs⟩ := h s a
    obtain ⟨t, ht⟩ := ih s'
    exact ⟨t, run_cons_eq_some.mpr ⟨s', hs, ht⟩⟩

theorem along_of_forall {Q : α → Prop} (h : ∀ s a, Q a → P s a) (s : σ) (as : List α)
    (hQ : ∀ a ∈ as, Q a) : Along step P s as := by
  induction as generalizing s with
  | nil => trivial
  | cons a as ih =>
    rw [List.forall_mem_cons] at hQ
    exact ⟨h s a hQ.1, fun s' _ => ih s' hQ.2⟩

theorem Along.and {Q : σ → α → Prop} {s : σ} {as : List α} (hP : Along step P s as)
    (hQ : Along step Q s as) : Along step (fun s a => P s a ∧ Q s a) s as := by
  induction as generalizing s with
  | nil => trivial
  | cons a as ih => exact ⟨⟨hP.1, hQ.1⟩, fun s' hs' => ih (hP.2 s' hs') (hQ.2 s' hs')⟩

/-- The invariant rule: what each step meeting `P` keeps, a whole run keeps. -/
theorem run_inv {Inv : σ → Prop}
    (hstep : ∀ s a s', Inv s → P s a → step s a = some s' → Inv s') {s t : σ} {as : List α}
    (h0 : Inv s) (hP : Along step P s as) (hr : run step s as = some t) : Inv t := by
  induction as generalizing s with
  | nil =>
    cases hr
    exact h0
  | cons a as ih =>
    obtain ⟨s', hs, hr'⟩ := run_cons_eq_some.mp hr
    exact ih (hstep s a s' h0 hP.1 hs) (hP.2 s' hs) hr'

/-- The same with no condition on the steps. -/
theorem run_keeps {I : σ → Prop} {s t : σ} {as : List α} (hr : run step s as = some t) (h0 : I s)
    (hstep : ∀ s a s', I s → step s a = some s' → I s') : I t :=
  run_inv (P := fun _ _ => True) (fun s a s' hi _ hs => hstep s a s' hi hs) h0
    (along_of_forall (fun _ _ h => h) s as fun _ _ => trivial) hr

/-- Every state that the schedule goes through has `Q`. -/
def Always (step : σ → α → Option σ) (Q : σ → Prop) : σ → List α → Prop
  | s, [] => Q s
  | s, a :: as => Q s ∧ ∀ s', step s a = some s' → Always step Q s' as

theorem Always.head {Q : σ → Prop} {s : σ} {as : List α} (h : Always step Q s as) : Q s := by
  match as with
  | [] => exact h
  | _ :: _ => exact h.1

theorem Always.last {Q : σ → Prop} {s t : σ} {as : List α} (h : Always step Q s as)
    (hr : run step s as = some t) : Q t := by
  induction as generalizing s with
  | nil =>
    obtain rfl := Option.some.inj hr
    exact h
  | cons a as ih =>
    obtain ⟨s', hs, hr'⟩ := run_cons_eq_some.mp hr
    exact ih (h.2 s' hs) hr'

/-- The invariant rule for every state on the way. -/
theorem always_inv {Inv Q : σ → Prop}
    (hstep : ∀ s a s', Inv s → P s a → step s a = some s' → Inv s') (hQ : ∀ s, Inv s → Q s) {s : σ}
    {as : List α} (h0 : Inv s) (hP : Along step P s as) : Always step Q s as := by
  induction as generalizing s with
  | nil => exact hQ s h0
  | cons a as ih => exact ⟨hQ s h0, fun s' hs => ih (hstep s a s' h0 hP.1 hs) (hP.2 s' hs)⟩

/-- What cannot be regained once it is lost, and is there at the end, is there all the way. -/
theorem always_of_last {Q : σ → Prop} (hstep : ∀ s a s', ¬ Q s → step s a = some s' → ¬ Q s')
    {s t : σ} {as : List α} (hr : run step s as = some t) (ht : Q t) : Always step Q s as := by
  have h0 : Q s := by
    by_contra hs
    exact run_keeps hr hs hstep ht
  induction as generalizing s with
  | nil => exact h0
  | cons a as ih =>
    refine ⟨h0, fun s' hs => ?_⟩
    obtain ⟨s₁, hs₁, hr'⟩ := run_cons_eq_some.mp hr
    obtain rfl := Option.some.inj (hs₁.symm.trans hs)
    exact ih hr' (by_contra fun hs' => run_keeps hr' hs' hstep ht)

theorem Always.imp {Q Q' : σ → Prop} (hQ : ∀ s, Q s → Q' s) {s : σ} {as : List α}
    (h : Always step Q s as) : Always step Q' s as := by
  induction as generalizing s with
  | nil => exact hQ s h
  | cons a as ih => exact ⟨hQ s h.1, fun s' hs => ih (h.2 s' hs)⟩

/-- The simulation rule: what the second machine can answer in one step, it can answer in a run. -/
theorem run_sim {τ : Type} {step' : τ → α → Option τ} {R : σ → τ → Prop}
    (hstep : ∀ s t a s', R s t → P s a → step s a = some s' → ∃ t', step' t a = some t' ∧ R s' t')
    {s s' : σ} {t : τ} {as : List α} (h0 : R s t) (hP : Along step P s as)
    (hr : run step s as = some s') : ∃ t', run step' t as = some t' ∧ R s' t' := by
  induction as generalizing s t with
  | nil =>
    cases hr
    exact ⟨t, rfl, h0⟩
  | cons a as ih =>
    obtain ⟨s₁, hs, hr'⟩ := run_cons_eq_some.mp hr
    obtain ⟨t₁, ht, hR⟩ := hstep s t a s₁ h0 hP.1 hs
    obtain ⟨t', ht', hR'⟩ := ih hR (hP.2 s₁ hs) hr'
    exact ⟨t', run_cons_eq_some.mpr ⟨t₁, ht, ht'⟩, hR'⟩

/-- The termination rule: a measure that each step lowers bounds the length of every run. -/
theorem run_length {Inv : σ → Prop} (μ : σ → Nat)
    (hstep : ∀ s a s', Inv s → P s a → step s a = some s' → Inv s' ∧ μ s' < μ s)
    {s t : σ} {as : List α} (h0 : Inv s) (hP : Along step P s as)
    (hr : run step s as = some t) : as.length + μ t ≤ μ s := by
  induction as generalizing s with
  | nil =>
    cases hr
    simp
  | cons a as ih =>
    obtain ⟨s', hs, hr'⟩ := run_cons_eq_some.mp hr
    obtain ⟨hi, hlt⟩ := hstep s a s' h0 hP.1 hs
    have := ih hi (hP.2 s' hs) hr'
    rw [List.length_cons]
    omega

/-- Every run whose steps meet `P` comes to an end in a state with `Q`: its length is bounded, and it
    can go on until it is there. -/
structure Finishes (step : σ → α → Option σ) (P : σ → α → Prop) (s : σ) (Q : σ → Prop) : Prop where
  bounded : ∃ n, ∀ as t, Along step P s as → run step s as = some t → as.length ≤ n
  ends : ∀ as t, Along step P s as → run step s as = some t →
    Q t ∨ ∃ a t', P t a ∧ step t a = some t'

theorem Finishes.imp {Q Q' : σ → Prop} {s : σ} (hf : Finishes step P s Q)
    (h : ∀ t, Q t → Q' t) : Finishes step P s Q' := by
  refine ⟨hf.bounded, ?_⟩
  intro as t hP hr
  rcases hf.ends as t hP hr with hq | hgo
  · exact .inl (h t hq)
  · exact .inr hgo

theorem finishes_of_measure {Inv Q : σ → Prop} (μ : σ → Nat)
    (hstep : ∀ s a s', Inv s → P s a → step s a = some s' → Inv s' ∧ μ s' < μ s)
    (hgo : ∀ s, Inv s → Q s ∨ ∃ a s', P s a ∧ step s a = some s') {s : σ} (h0 : Inv s) :
    Finishes step P s Q where
  bounded := ⟨μ s, fun as t hP hr => by
    have := run_length μ hstep h0 hP hr
    omega⟩
  ends := fun as t hP hr =>
    hgo t (run_inv (fun s a s' hi hp hs => (hstep s a s' hi hp hs).1) h0 hP hr)

/-- A run from `s` whose steps meet `P` ends in `t`: no further step does. -/
def EndsIn (step : σ → α → Option σ) (P : σ → α → Prop) (s t : σ) : Prop :=
  ∃ as, Along step P s as ∧ run step s as = some t ∧ ∀ a, P t a → step t a = none

theorem EndsIn.cons {s s' t : σ} {a : α} (hP : P s a) (hs : step s a = some s')
    (h : EndsIn step P s' t) : EndsIn step P s t := by
  obtain ⟨as, hA, hr, hend⟩ := h
  refine ⟨a :: as, ⟨hP, fun s₁ hs₁ => ?_⟩, run_cons_eq_some.mpr ⟨s', hs, hr⟩, hend⟩
  rw [Option.some.inj (hs₁.symm.trans hs)]
  exact hA

theorem exists_endsIn (n : Nat) (s : σ)
    (hn : ∀ as t, Along step P s as → run step s as = some t → as.length ≤ n) :
    ∃ t, EndsIn step P s t := by
  induction n generalizing s with
  | zero =>
    refine ⟨s, [], trivial, rfl, fun a ha => ?_⟩
    by_contra hne
    obtain ⟨s', hs'⟩ := Option.ne_none_iff_exists'.mp hne
    have := hn [a] s' ⟨ha, fun _ _ => trivial⟩ (run_cons_eq_some.mpr ⟨s', hs', rfl⟩)
    simp at this
  | succ n ih =>
    by_cases hend : ∀ a, P s a → step s a = none
    · exact ⟨s, [], trivial, rfl, hend⟩
    · push Not at hend
      obtain ⟨a, ha, hne⟩ := hend
      obtain ⟨s', hs'⟩ := Option.ne_none_iff_exists'.mp hne
      have hn' : ∀ as t, Along step P s' as → run step s' as = some t → as.length ≤ n := by
        intro as t hA hr
        have hlen := hn (a :: as) t ⟨ha, fun s₁ hs₁ => Option.some.inj (hs'.symm.trans hs₁) ▸ hA⟩
          (run_cons_eq_some.mpr ⟨s', hs', hr⟩)
        exact Nat.le_of_succ_le_succ hlen
      obtain ⟨t, ht⟩ := ih s' hn'
      exact ⟨t, ht.cons ha hs'⟩

theorem Finishes.exists_end {Q : σ → Prop} {s : σ} (hf : Finishes step P s Q) :
    ∃ t, EndsIn step P s t := by
  obtain ⟨n, hn⟩ := hf.bounded
  exact exists_endsIn n s hn

theorem Finishes.at_end {Q : σ → Prop} {s t : σ} (hf : Finishes step P s Q)
    (h : EndsIn step P s t) : Q t := by
  obtain ⟨as, hA, hr, hend⟩ := h
  rcases hf.ends as t hA hr with hq | ⟨a, t', ha, hs⟩
  · exact hq
  · rw [hend a ha] at hs
    cases hs

end KernelMagic.Lib
