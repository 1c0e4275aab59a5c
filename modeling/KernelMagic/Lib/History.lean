/-
  The past of a run. `record step upd g s as` is what a record that starts as `g` has become at the end
  of the schedule `as` from `s`, when each step changes it by `upd`; the machine does not read it. The
  invariant rules for a state together with its record are `record_inv` and `record_keeps`.
-/
import KernelMagic.Lib.Machine

namespace KernelMagic.Lib

variable {σ α γ : Type} {step : σ → α → Option σ} {P : σ → α → Prop}

theorem run_append_eq_some {s t : σ} {as bs : List α} :
    run step s (as ++ bs) = some t ↔ ∃ u, run step s as = some u ∧ run step u bs = some t := by
  induction as generalizing s with
  | nil => exact ⟨fun h => ⟨s, rfl, h⟩, fun ⟨_, hu, h⟩ => Option.some.inj hu ▸ h⟩
  | cons a as ih =>
    rw [List.cons_append, run_cons_eq_some]
    constructor
    · rintro ⟨s', hs, hr⟩
      obtain ⟨u, hu, ht⟩ := ih.mp hr
      exact ⟨u, run_cons_eq_some.mpr ⟨s', hs, hu⟩, ht⟩
    · rintro ⟨u, hu, ht⟩
      obtain ⟨s', hs, hu⟩ := run_cons_eq_some.mp hu
      exact ⟨s', hs, ih.mpr ⟨u, hu, ht⟩⟩

theorem run_snoc_eq_some {s t : σ} {as : List α} {a : α} :
    run step s (as ++ [a]) = some t ↔ ∃ u, run step s as = some u ∧ step u a = some t := by
  rw [run_append_eq_some]
  refine exists_congr fun u => and_congr_right fun _ => ?_
  rw [run_cons_eq_some]
  exact ⟨fun ⟨_, hs, ht⟩ => Option.some.inj ht ▸ hs, fun hs => ⟨t, hs, rfl⟩⟩

theorem along_cons {s s' : σ} {a : α} {as : List α} (hs : step s a = some s') :
    Along step P s (a :: as) ↔ P s a ∧ Along step P s' as :=
  and_congr_right fun _ =>
    ⟨fun h => h s' hs, fun h _ hu => Option.some.inj (hs.symm.trans hu) ▸ h⟩

theorem along_append {s t : σ} {as bs : List α} (hr : run step s as = some t) :
    Along step P s (as ++ bs) ↔ Along step P s as ∧ Along step P t bs := by
  induction as generalizing s with
  | nil =>
    cases hr
    exact (and_iff_right trivial).symm
  | cons a as ih =>
    obtain ⟨s', hs, hr'⟩ := run_cons_eq_some.mp hr
    rw [List.cons_append, along_cons hs, along_cons hs, ih hr', and_assoc]

/-- Two conditions on the steps that agree wherever an invariant holds agree along a run. -/
theorem along_congr {Q : σ → α → Prop} {Inv : σ → Prop}
    (hstep : ∀ s a s', Inv s → step s a = some s' → Inv s' ∧ (P s a ↔ Q s a)) {s t : σ}
    {as : List α} (h0 : Inv s) (hr : run step s as = some t) :
    Along step P s as ↔ Along step Q s as := by
  induction as generalizing s with
  | nil => exact Iff.rfl
  | cons a as ih =>
    obtain ⟨s', hs, hr'⟩ := run_cons_eq_some.mp hr
    obtain ⟨hi, hPQ⟩ := hstep s a s' h0 hs
    rw [along_cons hs, along_cons hs]
    exact and_congr hPQ (ih hi hr')

/-- The record of a run. -/
def record (step : σ → α → Option σ) (upd : γ → σ → α → γ) (g : γ) : σ → List α → γ
  | _, [] => g
  | s, a :: as =>
    match step s a with
    | none => g
    | some s' => record step upd (upd g s a) s' as

theorem record_cons {upd : γ → σ → α → γ} {g : γ} {s s' : σ} {a : α} {as : List α}
    (hs : step s a = some s') :
    record step upd g s (a :: as) = record step upd (upd g s a) s' as := by
  rw [record, hs]

theorem record_append {upd : γ → σ → α → γ} {g : γ} {s t : σ} {as bs : List α}
    (hr : run step s as = some t) :
    record step upd g s (as ++ bs) = record step upd (record step upd g s as) t bs := by
  induction as generalizing g s with
  | nil =>
    cases hr
    rfl
  | cons a as ih =>
    obtain ⟨s', hs, hr'⟩ := run_cons_eq_some.mp hr
    rw [List.cons_append, record_cons hs, record_cons hs, ih hr']

/-- A record that only grows at its end. -/
theorem record_shift {β : Type} {new : σ → α → List β} (g : List β) (s : σ) (as : List α) :
    record step (fun g s a => g ++ new s a) g s as =
      g ++ record step (fun g s a => g ++ new s a) [] s as := by
  induction as generalizing g s with
  | nil => exact (List.append_nil g).symm
  | cons a as ih =>
    unfold record
    split
    · exact (List.append_nil g).symm
    · next s' hs => rw [ih (g ++ new s a), ih ([] ++ new s a), List.nil_append, List.append_assoc]

/-- The invariant rule for a state and its record. -/
theorem record_inv {upd : γ → σ → α → γ} {I : γ → σ → Prop} {g : γ} {s t : σ} {as : List α}
    (hr : run step s as = some t) (hP : Along step P s as) (h0 : I g s)
    (hstep : ∀ g s a s', I g s → P s a → step s a = some s' → I (upd g s a) s') :
    I (record step upd g s as) t := by
  induction as generalizing g s with
  | nil =>
    cases hr
    exact h0
  | cons a as ih =>
    obtain ⟨s', hs, hr'⟩ := run_cons_eq_some.mp hr
    rw [record_cons hs]
    exact ih hr' (hP.2 s' hs) (hstep g s a s' h0 hP.1 hs)

/-- The same with no condition on the steps. -/
theorem record_keeps {upd : γ → σ → α → γ} {I : γ → σ → Prop} {g : γ} {s t : σ} {as : List α}
    (hr : run step s as = some t) (h0 : I g s)
    (hstep : ∀ g s a s', I g s → step s a = some s' → I (upd g s a) s') :
    I (record step upd g s as) t :=
  record_inv (P := fun _ _ => True) hr (along_of_forall (fun _ _ h => h) s as fun _ _ => trivial) h0
    fun g s a s' hi _ hs => hstep g s a s' hi hs

end KernelMagic.Lib
