/-
  A heap of objects of one type, as seen by a program that allocates and frees them one at a time.
  A pointer is never handed out twice, so a stale pointer stays stale; `fresh` is the invariant that
  makes it so, and every operation carries its proof along.

  Reading through `cell` gives `none` exactly for the pointers that are not live. `put` writes
  through a live pointer and does nothing through a stale one; whether a program may do so is for
  the program's own model to say.
-/
import Mathlib

namespace KernelMagic.Lib

@[ext] structure Heap (α : Type) where
  next : Nat
  cell : Nat → Option α
  fresh : ∀ p, next ≤ p → cell p = none

namespace Heap

variable {α : Type}

def empty : Heap α := ⟨0, fun _ => none, fun _ _ => rfl⟩

/-- The heap after an allocation; the new pointer is `h.next`. -/
def alloc (h : Heap α) (x : α) : Heap α where
  next := h.next + 1
  cell := fun q => if q = h.next then some x else h.cell q
  fresh := fun p hp => by
    rw [if_neg (by omega)]
    exact h.fresh p (by omega)

def put (h : Heap α) (p : Nat) (x : α) : Heap α where
  next := h.next
  cell := fun q => if q = p then (h.cell p).map fun _ => x else h.cell q
  fresh := fun q hq => by
    split
    · next e => rw [← e, h.fresh q hq]; rfl
    · exact h.fresh q hq

def free (h : Heap α) (p : Nat) : Heap α where
  next := h.next
  cell := fun q => if q = p then none else h.cell q
  fresh := fun q hq => by
    split
    · rfl
    · exact h.fresh q hq

@[simp] theorem cell_empty (p : Nat) : (empty : Heap α).cell p = none := rfl

theorem lt_next {h : Heap α} {p : Nat} {x : α} (hp : h.cell p = some x) : p < h.next := by
  by_contra hn
  rw [h.fresh p (by omega)] at hp
  cases hp

@[simp] theorem cell_alloc_self (h : Heap α) (x : α) : (h.alloc x).cell h.next = some x :=
  if_pos rfl

theorem cell_alloc_ne (h : Heap α) (x : α) {p : Nat} (hp : p ≠ h.next) :
    (h.alloc x).cell p = h.cell p := if_neg hp

theorem cell_alloc_of_some {h : Heap α} (x : α) {p : Nat} {y : α} (hp : h.cell p = some y) :
    (h.alloc x).cell p = some y := by
  rw [cell_alloc_ne h x (Nat.ne_of_lt (lt_next hp)), hp]

theorem cell_put_self {h : Heap α} {p : Nat} {y : α} (x : α) (hp : h.cell p = some y) :
    (h.put p x).cell p = some x := by
  simp [put, hp]

theorem cell_put_ne (h : Heap α) (x : α) {p q : Nat} (hq : q ≠ p) :
    (h.put p x).cell q = h.cell q := if_neg hq

/-- Writing back what is there changes nothing. -/
theorem put_eq_self {h : Heap α} {p : Nat} {x : α} (hp : h.cell p = some x) : h.put p x = h := by
  refine Heap.ext rfl (funext fun q => ?_)
  by_cases hq : q = p
  · rw [hq, cell_put_self x hp, hp]
  · exact cell_put_ne h x hq

theorem put_put (h : Heap α) (p : Nat) (x y : α) : (h.put p x).put p y = h.put p y := by
  refine Heap.ext rfl (funext fun q => ?_)
  by_cases hq : q = p
  · simp [put, hq, Function.comp_def]
  · simp [put, hq]

theorem put_alloc (h : Heap α) (x y : α) : (h.alloc x).put h.next y = h.alloc y := by
  refine Heap.ext rfl (funext fun q => ?_)
  by_cases hq : q = h.next
  · simp [put, alloc, hq]
  · simp [put, alloc, hq]

@[simp] theorem cell_free_self (h : Heap α) (p : Nat) : (h.free p).cell p = none := if_pos rfl

theorem cell_free_ne (h : Heap α) {p q : Nat} (hq : q ≠ p) : (h.free p).cell q = h.cell q :=
  if_neg hq

/-! ## What has been freed -/

/-- `l` lists the objects that have been freed, each once. -/
structure Freed (h : Heap α) (l : List Nat) : Prop where
  nodup : l.Nodup
  mem : ∀ p, p ∈ l ↔ p < h.next ∧ h.cell p = none

theorem Freed.empty : Freed (empty : Heap α) [] where
  nodup := List.nodup_nil
  mem := fun p => ⟨fun h => absurd h List.not_mem_nil, fun h => absurd h.1 (Nat.not_lt_zero p)⟩

variable {h : Heap α} {l : List Nat}

theorem Freed.alloc (hf : Freed h l) (x : α) : Freed (h.alloc x) l where
  nodup := hf.nodup
  mem := fun p => by
    rw [hf.mem]
    by_cases hp : p = h.next
    · rw [hp, cell_alloc_self]
      exact ⟨fun hc => absurd hc.1 (Nat.lt_irrefl _), fun hc => by cases hc.2⟩
    · rw [cell_alloc_ne h x hp]
      have hlt : p < (h.alloc x).next ↔ p < h.next := by
        simp only [Heap.alloc]
        omega
      rw [hlt]

theorem Freed.put (hf : Freed h l) (p : Nat) (x : α) : Freed (h.put p x) l where
  nodup := hf.nodup
  mem := fun q => by
    rw [hf.mem]
    by_cases hq : q = p
    · simp [Heap.put, hq]
    · rw [cell_put_ne h x hq]
      rfl

theorem Freed.free (hf : Freed h l) {p : Nat} {x : α} (hp : h.cell p = some x) :
    Freed (h.free p) (l ++ [p]) where
  nodup := by
    refine List.nodup_append.mpr ⟨hf.nodup, List.nodup_singleton p, ?_⟩
    rintro q hq r hr rfl
    rw [List.mem_singleton] at hr
    have hnone := ((hf.mem q).mp hq).2
    rw [hr, hp] at hnone
    cases hnone
  mem := fun q => by
    rw [List.mem_append, List.mem_singleton, hf.mem]
    by_cases hq : q = p
    · rw [hq, cell_free_self]
      have hlt : p < (h.free p).next := lt_next (h := h) hp
      exact ⟨fun _ => ⟨hlt, rfl⟩, fun _ => .inr rfl⟩
    · rw [cell_free_ne h hq]
      exact ⟨fun hc => hc.resolve_right hq, fun hc => .inl hc⟩

theorem Freed.count_eq_one (hf : Freed h l) {p : Nat} (hlt : p < h.next)
    (hnone : h.cell p = none) : l.count p = 1 :=
  List.count_eq_one_of_mem hf.nodup ((hf.mem p).mpr ⟨hlt, hnone⟩)

end Heap

end KernelMagic.Lib
