/-
  Tasks over shared memory. `code t e m` is one atomic step of a task that stands at `t`, with the
  answer `e` of its environment and the memory `m`: where the task stands after it and what the memory
  is then, `none` when the task has to wait or has ended. `Pool.step` lets one of the tasks take its
  step, so a schedule of it is an interleaving.

  Two rules reduce a step of the pool to steps of `code`:
  * `Pool.total_step`: what a task moves to the memory or takes from it leaves the sum over all the tasks
    and the memory as it is.
  * `Region.inv`: a critical region. There is one token, which a task takes from the memory when it
    enters the region and gives back when it leaves. Nobody being inside, the memory has `R`; the task
    inside may break `R` as long as it stands by `A`, and the tasks outside do not disturb either.
-/
import KernelMagic.Lib.Machine

namespace KernelMagic.Lib

variable {τ ε σ : Type}

structure Pool (τ σ : Type) where
  tasks : List τ
  shared : σ
  deriving DecidableEq

/-- A step of task number `a.1`. -/
def Pool.step (code : τ → ε → σ → Option (τ × σ)) (s : Pool τ σ) (a : Nat × ε) :
    Option (Pool τ σ) :=
  s.tasks[a.1]?.bind fun t =>
    (code t a.2 s.shared).map fun r => ⟨s.tasks.set a.1 r.1, r.2⟩

variable {code : τ → ε → σ → Option (τ × σ)} {s s' : Pool τ σ} {a : Nat × ε}

/-- A step of a pool is a step of one of its tasks. -/
theorem Pool.step_cases (h : Pool.step code s a = some s') :
    ∃ l t r t' m', s.tasks = l ++ t :: r ∧ code t a.2 s.shared = some (t', m') ∧
      s' = ⟨l ++ t' :: r, m'⟩ := by
  obtain ⟨t, ht, hmap⟩ := Option.bind_eq_some_iff.mp h
  obtain ⟨⟨t', m'⟩, hc, rfl⟩ := Option.map_eq_some_iff.mp hmap
  obtain ⟨hlt, hget⟩ := List.getElem?_eq_some_iff.mp ht
  refine ⟨s.tasks.take a.1, t, s.tasks.drop (a.1 + 1), t', m', ?_, hc, ?_⟩
  · rw [← hget, List.getElem_cons_drop, List.take_append_drop]
  · rw [List.set_eq_take_append_cons_drop, if_pos hlt]

theorem Pool.step_of_code {t t' : τ} {e : ε} {m' : σ} (ht : t ∈ s.tasks)
    (hc : code t e s.shared = some (t', m')) :
    ∃ i s', Pool.step code s (i, e) = some s' := by
  obtain ⟨i, hi, hget⟩ := List.getElem_of_mem ht
  refine ⟨i, ⟨s.tasks.set i t', m'⟩, ?_⟩
  rw [Pool.step, List.getElem?_eq_getElem hi, hget, Option.bind_some, hc]
  rfl

/-! ## Sums -/

section Sum

variable {M : Type} [AddCommMonoid M]

/-- What the tasks and the memory have together. -/
def Pool.total (w : τ → M) (v : σ → M) (s : Pool τ σ) : M := (s.tasks.map w).sum + v s.shared

theorem Pool.total_replace (w : τ → M) (v : σ → M) (l r : List τ) (t t' : τ) (m m' : σ)
    (h : w t' + v m' = w t + v m) :
    Pool.total w v ⟨l ++ t' :: r, m'⟩ = Pool.total w v ⟨l ++ t :: r, m⟩ := by
  have hsplit (u : τ) (n : σ) : Pool.total w v ⟨l ++ u :: r, n⟩ =
      (l.map w).sum + (r.map w).sum + (w u + v n) := by
    simp only [Pool.total, List.map_append, List.map_cons, List.sum_append, List.sum_cons]
    abel
  rw [hsplit, hsplit, h]

theorem Pool.total_step (w : τ → M) (v : σ → M)
    (hcode : ∀ t e m t' m', code t e m = some (t', m') → w t' + v m' = w t + v m)
    (h : Pool.step code s a = some s') : Pool.total w v s' = Pool.total w v s := by
  obtain ⟨l, t, r, t', m', ht, hc, rfl⟩ := Pool.step_cases h
  rw [Pool.total_replace w v l r t t' s.shared m' (hcode t a.2 s.shared t' m' hc), ← ht]

end Sum

/-- A measure of the single tasks that each of their steps lowers is a measure of the pool. -/
theorem Pool.measure_step (μ : τ → Nat)
    (hcode : ∀ t e m t' m', code t e m = some (t', m') → μ t' < μ t)
    (h : Pool.step code s a = some s') : (s'.tasks.map μ).sum < (s.tasks.map μ).sum := by
  obtain ⟨l, t, r, t', m', ht, hc, rfl⟩ := Pool.step_cases h
  have := hcode t a.2 s.shared t' m' hc
  rw [ht]
  simp only [List.map_append, List.map_cons, List.sum_append, List.sum_cons]
  omega

/-! ## A critical region -/

/-- The tasks that are `inside` have taken the token, of which `free` says whether it is in memory. -/
structure Region (code : τ → ε → σ → Option (τ × σ)) (inside : τ → Bool) (free : σ → Nat)
    (R : σ → Prop) (A : τ → σ → Prop) : Prop where
  token : ∀ t e m t' m', code t e m = some (t', m') →
    (inside t').toNat + free m' = (inside t).toNat + free m
  enter : ∀ t e m t' m', code t e m = some (t', m') → inside t = false → inside t' = true →
    R m → A t' m'
  within : ∀ t e m t' m', code t e m = some (t', m') → inside t = true → inside t' = true →
    A t m → A t' m'
  leave : ∀ t e m t' m', code t e m = some (t', m') → inside t = true → inside t' = false →
    A t m → R m'
  outside : ∀ t e m t' m', code t e m = some (t', m') → inside t = false → inside t' = false →
    (R m → R m') ∧ ∀ u, inside u = true → A u m → A u m'

/-- What a critical region keeps. -/
structure Region.Inv (inside : τ → Bool) (free : σ → Nat) (R : σ → Prop) (A : τ → σ → Prop)
    (s : Pool τ σ) : Prop where
  one : (s.tasks.map fun t => (inside t).toNat).sum + free s.shared = 1
  idle : free s.shared = 1 → R s.shared
  busy : ∀ t ∈ s.tasks, inside t = true → A t s.shared

namespace Region

variable {inside : τ → Bool} {free : σ → Nat} {R : σ → Prop} {A : τ → σ → Prop}

theorem sum_inside (l : List τ) :
    (l.map fun t => (inside t).toNat).sum = l.countP inside := by
  induction l with
  | nil => rfl
  | cons t l ih =>
    rw [List.map_cons, List.sum_cons, ih, List.countP_cons]
    cases inside t
    · simp
    · simp [Nat.add_comm]

/-- At most one task is inside. -/
theorem Inv.exclusive (hi : Inv inside free R A s) : s.tasks.countP inside ≤ 1 := by
  have := hi.one
  rw [sum_inside] at this
  omega

/-- The tasks other than the one inside are outside. -/
theorem Inv.others {l r : List τ} {t : τ} (hi : Inv inside free R A s)
    (ht : s.tasks = l ++ t :: r) (hin : (inside t).toNat + free s.shared = 1) :
    ∀ u ∈ l ++ r, inside u = false := by
  have hone := hi.one
  rw [sum_inside, ht, List.countP_append, List.countP_cons] at hone
  have hzero : (l ++ r).countP inside = 0 := by
    rw [List.countP_append]
    cases hb : inside t with
    | false =>
      rw [hb] at hin hone
      simp only [Bool.toNat_false, Bool.false_eq_true, if_false] at hin hone
      omega
    | true =>
      rw [hb] at hin hone
      simp only [Bool.toNat_true, if_true] at hin hone
      omega
  intro u hu
  have := List.countP_eq_zero.mp hzero u hu
  rwa [Bool.not_eq_true] at this

theorem inv_step (hR : Region code inside free R A) (hi : Inv inside free R A s)
    (h : Pool.step code s a = some s') : Inv inside free R A s' := by
  obtain ⟨l, t, r, t', m', ht, hc, rfl⟩ := Pool.step_cases h
  have htok := hR.token t a.2 s.shared t' m' hc
  have hmem : t ∈ s.tasks := by rw [ht]; simp
  have hone : Pool.total (fun t => (inside t).toNat) free ⟨l ++ t' :: r, m'⟩ = 1 := by
    rw [Pool.total_replace _ free l r t t' s.shared m' htok, ← ht]
    exact hi.one
  -- the tasks that do not move, when the one that moves has the token or can get it
  have hothers : (inside t).toNat + free s.shared = 1 → ∀ u ∈ l ++ r, inside u = false :=
    fun hin => hi.others ht hin
  have hbusy : ∀ u ∈ l ++ r, inside u = true → A u s.shared := by
    intro u hu
    refine hi.busy u ?_
    rw [ht]
    simp only [List.mem_append, List.mem_cons] at hu ⊢
    tauto
  have hsplit {Q : τ → Prop} : (∀ u ∈ l ++ t' :: r, Q u) ↔ Q t' ∧ ∀ u ∈ l ++ r, Q u := by
    simp only [List.mem_append, List.mem_cons]
    grind
  have hsum := hi.one
  rw [sum_inside] at hsum
  have hfree : inside t = true → free s.shared = 0 := by
    intro hin
    have hpos : 0 < s.tasks.countP inside := List.countP_pos_iff.mpr ⟨t, hmem, hin⟩
    omega
  refine ⟨hone, ?_, hsplit.mpr ?_⟩
  · intro hfree'
    change free m' = 1 at hfree'
    cases hin : inside t with
    | true =>
      refine hR.leave t a.2 s.shared t' m' hc hin ?_ (hi.busy t hmem hin)
      cases hin' : inside t' with
      | false => rfl
      | true =>
        rw [hin, hin', hfree hin] at htok
        simp only [Bool.toNat_true] at htok
        omega
    | false =>
      have hin' : inside t' = false := by
        cases hin' : inside t' with
        | false => rfl
        | true =>
          rw [hin, hin'] at htok
          simp only [Bool.toNat_true, Bool.toNat_false] at htok
          omega
      rw [hin, hin', Nat.add_left_cancel_iff] at htok
      exact (hR.outside t a.2 s.shared t' m' hc hin hin').1 (hi.idle (by omega))
  · cases hin : inside t with
    | true =>
      have hout := hothers (by rw [hin, hfree hin]; rfl)
      refine ⟨fun hin' => hR.within t a.2 s.shared t' m' hc hin hin' (hi.busy t hmem hin), ?_⟩
      intro u hu hu'
      exact absurd hu' (by rw [hout u hu]; decide)
    | false =>
      cases hin' : inside t' with
      | true =>
        rw [hin, hin'] at htok
        simp only [Bool.toNat_true, Bool.toNat_false] at htok
        have hf : free s.shared = 1 := by omega
        have hout := hothers (by rw [hin, hf]; rfl)
        refine ⟨fun _ => hR.enter t a.2 s.shared t' m' hc hin hin' (hi.idle hf), ?_⟩
        intro u hu hu'
        exact absurd hu' (by rw [hout u hu]; decide)
      | false =>
        refine ⟨fun h => absurd h (by decide), fun u hu hu' => ?_⟩
        exact (hR.outside t a.2 s.shared t' m' hc hin hin').2 u hu' (hbusy u hu hu')

/-- The invariant of a critical region holds in every state of every run. -/
theorem inv (hR : Region code inside free R A) (hi : Inv inside free R A s)
    {as : List (Nat × ε)} (hr : run (Pool.step code) s as = some s') :
    Inv inside free R A s' :=
  run_keeps hr hi fun _ _ _ hi hs => hR.inv_step hi hs

end Region

end KernelMagic.Lib
