/-
  Keeping the books of a copy that goes on in pieces.

  `Held extent h p`: position `p` lies in the extent of a live object of the heap. A copy that gives
  every piece an object, and frees it when the piece is copied, keeps "copied or held" of every
  position it has started on; the lemmas say what each heap operation does to `Held`.

  `Posted posted cs todo`: the transfers prepared so far are one read for each chunk of `cs`, in
  their order, and one write for each chunk that is not in `todo`, in some order. When the cut is
  complete and nothing is left to do, that is `OneEach`.
-/
import KernelMagic.Lib.Heap
import KernelMagic.Lib.Chunks

namespace KernelMagic.Lib

/-! ## Held positions -/

section Held

variable {α : Type} {extent : α → Nat × Nat} {h : Heap α} {p q : Nat} {d d' : α}

def Held (extent : α → Nat × Nat) (h : Heap α) (p : Nat) : Prop :=
  ∃ q d, h.cell q = some d ∧ (extent d).1 ≤ p ∧ p < (extent d).1 + (extent d).2

/-- An object keeps its extent when it is written. -/
theorem Held.put (hh : Held extent h p) (hd : h.cell q = some d) (he : extent d' = extent d) :
    Held extent (h.put q d') p := by
  obtain ⟨r, e, hr, h1, h2⟩ := hh
  by_cases hq : r = q
  · subst hq
    obtain rfl : e = d := Option.some.inj (hr.symm.trans hd)
    exact ⟨r, d', Heap.cell_put_self d' hd, by rw [he]; exact h1, by rw [he]; exact h2⟩
  · exact ⟨r, e, by rw [Heap.cell_put_ne _ _ hq]; exact hr, h1, h2⟩

theorem Held.alloc (hh : Held extent h p) (x : α) : Held extent (h.alloc x) p := by
  obtain ⟨q, d, hd, h1, h2⟩ := hh
  exact ⟨q, d, Heap.cell_alloc_of_some x hd, h1, h2⟩

/-- A new object holds its extent. -/
theorem held_alloc (h : Heap α) (x : α) (h1 : (extent x).1 ≤ p)
    (h2 : p < (extent x).1 + (extent x).2) : Held extent (h.alloc x) p :=
  ⟨h.next, x, Heap.cell_alloc_self h x, h1, h2⟩

/-- Freeing an object gives up its extent only. -/
theorem Held.free (hh : Held extent h p) (hd : h.cell q = some d) :
    ((extent d).1 ≤ p ∧ p < (extent d).1 + (extent d).2) ∨ Held extent (h.free q) p := by
  obtain ⟨r, e, he, h1, h2⟩ := hh
  by_cases hr : r = q
  · subst hr
    obtain rfl : e = d := Option.some.inj (he.symm.trans hd)
    exact .inl ⟨h1, h2⟩
  · exact .inr ⟨r, e, by rw [Heap.cell_free_ne _ hr]; exact he, h1, h2⟩

end Held

/-! ## Posted transfers -/

structure Posted (posted : List Io) (cs : List (Nat × Nat)) (todo : Multiset (Nat × Nat)) :
    Prop where
  reads : posted.filter (fun x => x.read) = cs.map asRead
  writes : ((posted.filter (fun x => !x.read) : List Io) : Multiset Io) + todo.map asWrite =
    (cs : Multiset (Nat × Nat)).map asWrite

variable {posted : List Io} {cs : List (Nat × Nat)} {todo : Multiset (Nat × Nat)} {c : Nat × Nat}

theorem Posted.nil : Posted [] [] 0 := ⟨rfl, rfl⟩

theorem Posted.todo_eq {todo' : Multiset (Nat × Nat)} (hp : Posted posted cs todo)
    (h : todo' = todo) : Posted posted cs todo' := by
  rw [h]
  exact hp

/-- The read of a new chunk. -/
theorem Posted.snoc_read (hp : Posted posted cs todo) (c : Nat × Nat) :
    Posted (posted ++ [asRead c]) (cs ++ [c]) (c ::ₘ todo) := by
  refine ⟨?_, ?_⟩
  · rw [List.filter_append, hp.reads, List.map_append]
    rfl
  · have hw := hp.writes
    have hnil : [asRead c].filter (fun x => !x.read) = [] := rfl
    rw [List.filter_append, hnil, List.append_nil, Multiset.map_cons, Multiset.add_cons, hw,
      ← Multiset.coe_add, Multiset.map_add, ← Multiset.singleton_add, add_comm]
    rfl

/-- The write of a chunk that has none yet. -/
theorem Posted.snoc_write (hp : Posted posted cs (c ::ₘ todo)) :
    Posted (posted ++ [asWrite c]) cs todo := by
  refine ⟨?_, ?_⟩
  · have hnil : [asWrite c].filter (fun x => x.read) = [] := rfl
    rw [List.filter_append, hnil, List.append_nil]
    exact hp.reads
  · have hone : [asWrite c].filter (fun x => !x.read) = [asWrite c] := rfl
    rw [List.filter_append, hone, ← hp.writes, Multiset.map_cons, ← Multiset.coe_add,
      Multiset.add_cons, ← Multiset.singleton_add, ← add_assoc, Multiset.coe_singleton,
      add_comm ({asWrite c} : Multiset Io)]

/-- One read for each of the `⌈n / B⌉` chunks, in order, and one write, in some order. -/
structure OneEach (B n : Nat) (posted : List Io) : Prop where
  reads : posted.filter (fun x => x.read) = (chunks B n ((n + B - 1) / B)).map asRead
  writes : (posted.filter fun x => !x.read).Perm ((chunks B n ((n + B - 1) / B)).map asWrite)

theorem Posted.oneEach {B n : Nat} (hp : Posted posted cs 0) (hc : Cut B n cs n) (hB : 0 < B) :
    OneEach B n posted := by
  have hcs : cs = chunks B n ((n + B - 1) / B) := by
    rw [← hc.length_eq hB]
    exact hc.eq
  refine ⟨by rw [← hcs]; exact hp.reads, ?_⟩
  have hw := hp.writes
  rwa [Multiset.map_zero, add_zero, Multiset.map_coe, Multiset.coe_eq_coe, hcs] at hw

end KernelMagic.Lib
