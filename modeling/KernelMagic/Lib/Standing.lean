/-
  A standing request: a program that always has exactly one request of some kind under way, and makes
  a new one each time it sees the completion of the last. `p` says which requests are of the kind.

  `Standing p P` also says that the request has not failed, since it is the failure of it that programs
  tend to answer otherwise. The collection `P` is `IoRing.outstanding`; there is one lemma for a
  completion, one for a turn of the program that has nothing to do with the request, and one for the
  turn that renews it.
-/
import Mathlib

namespace KernelMagic.Lib

variable {ρ : Type} {p : ρ → Prop} [DecidablePred p] {P : Multiset (ρ × Option Int)}

structure Standing (p : ρ → Prop) [DecidablePred p] (P : Multiset (ρ × Option Int)) : Prop where
  once : P.countP (fun x => p x.1) = 1
  ok : ∀ x ∈ P, p x.1 → ∀ r ∈ x.2, 0 ≤ r

namespace Standing

theorem countP_queued {news : List ρ} (h : ∀ q ∈ news, ¬ p q) :
    (news.map (·, none) : List (ρ × Option Int)).countP (fun x => p x.1) = 0 := by
  induction news with
  | nil => rfl
  | cons q news ih =>
    rw [List.forall_mem_cons] at h
    rw [List.map_cons, List.countP_cons, ih h.2]
    simp [h.1]

theorem ok_queued (news : List ρ) (x : ρ × Option Int)
    (hx : x ∈ (news.map (·, none) : List (ρ × Option Int))) : ∀ r ∈ x.2, 0 ≤ r := by
  obtain ⟨q, -, rfl⟩ := List.mem_map.mp hx
  simp

theorem start {q₀ q : ρ} (h₀ : ¬ p q₀) (hq : p q) :
    Standing p ((q₀, none) ::ₘ (q, none) ::ₘ 0) := by
  refine ⟨?_, by simp⟩
  rw [Multiset.countP_cons, Multiset.countP_cons, Multiset.countP_zero, if_pos hq, if_neg h₀]

theorem complete {q q' : ρ} {res : Int} (h : Standing p ((q, none) ::ₘ P)) (hq : p q' ↔ p q)
    (hres : p q → 0 ≤ res) : Standing p ((q', some res) ::ₘ P) := by
  have hok := h.ok
  have honce := h.once
  rw [Multiset.forall_mem_cons] at hok
  rw [Multiset.countP_cons] at honce
  refine ⟨?_, ?_⟩
  · rw [Multiset.countP_cons]
    simp only [hq]
    exact honce
  · rw [Multiset.forall_mem_cons]
    refine ⟨fun hp r hr => ?_, hok.2⟩
    rw [← Option.some.inj hr]
    exact hres (hq.mp hp)

variable {x : ρ × Option Int} {q : ρ}

theorem other (news : List ρ) (h : Standing p (x ::ₘ P)) (hx : ¬ p x.1)
    (hn : ∀ q ∈ news, ¬ p q) :
    Standing p ((news.map (·, none) : List (ρ × Option Int)) + P) := by
  have hok := h.ok
  have honce := h.once
  rw [Multiset.forall_mem_cons] at hok
  rw [Multiset.countP_cons, if_neg hx] at honce
  refine ⟨?_, fun y hy hp => ?_⟩
  · rw [Multiset.countP_add, Multiset.coe_countP, countP_queued hn, Nat.zero_add]
    exact honce
  · rcases Multiset.mem_add.mp hy with hy | hy
    · exact ok_queued news y hy
    · exact hok.2 y hy hp

theorem drop (h : Standing p (x ::ₘ P)) (hx : ¬ p x.1) : Standing p P := by
  have := h.other [] hx (by simp)
  rwa [List.map_nil, Multiset.coe_nil, zero_add] at this

theorem renew (news : List ρ) (h : Standing p (x ::ₘ P)) (hx : p x.1)
    (hn : ∀ q ∈ news, ¬ p q) (hq : p q) :
    Standing p (((news ++ [q]).map (·, none) : List (ρ × Option Int)) + P) := by
  have hok := h.ok
  have honce := h.once
  rw [Multiset.forall_mem_cons] at hok
  rw [Multiset.countP_cons, if_pos hx] at honce
  refine ⟨?_, fun y hy hp => ?_⟩
  · rw [Multiset.countP_add, Multiset.coe_countP, List.map_append, List.countP_append,
      countP_queued hn, List.map_singleton, List.countP_singleton]
    simp only [hq, decide_true, if_true]
    omega
  · rcases Multiset.mem_add.mp hy with hy | hy
    · exact ok_queued (news ++ [q]) y hy
    · exact hok.2 y hy hp

end Standing

end KernelMagic.Lib
