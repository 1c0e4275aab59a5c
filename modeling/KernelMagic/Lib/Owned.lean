/-
  Exclusive ownership of the objects of a heap. A collection of entries (the requests under way)
  points into the heap; `Owned data ok h P` says that the entries of `P` point to live and pairwise
  different objects, that nothing else is live, and that `ok` holds between each entry and its
  object.

  A step of a program that hands its objects from one request to the next does one of four things:
  it starts an entry with a new object, changes an entry and its object, changes an entry alone, or
  drops an entry and frees its object. One lemma for each.
-/
import KernelMagic.Lib.Heap

namespace KernelMagic.Lib

variable {γ α : Type}

structure Owned (data : γ → Nat) (ok : γ → α → Prop) (h : Heap α) (P : Multiset γ) : Prop where
  nodup : (P.map data).Nodup
  job : ∀ c ∈ P, ∃ d, h.cell (data c) = some d ∧ ok c d
  live : ∀ p d, h.cell p = some d → ∃ c ∈ P, data c = p

namespace Owned

variable {data : γ → Nat} {ok ok' : γ → α → Prop} {h : Heap α} {P : Multiset γ} {c c' : γ}
  {d d' : α}

theorem empty (data : γ → Nat) (ok : γ → α → Prop) : Owned data ok Heap.empty 0 :=
  ⟨by simp, by simp, by simp⟩

theorem not_mem (ho : Owned data ok h (c ::ₘ P)) (hc : c' ∈ P) : data c' ≠ data c := by
  have hn := ho.nodup
  rw [Multiset.map_cons, Multiset.nodup_cons] at hn
  intro he
  exact hn.1 (he ▸ Multiset.mem_map_of_mem data hc)

/-- The object of an entry, with what holds between the two. -/
theorem head (ho : Owned data ok h (c ::ₘ P)) (hd : h.cell (data c) = some d) : ok c d := by
  obtain ⟨d₁, hd₁, hj⟩ := ho.job c (Multiset.mem_cons_self _ _)
  rw [hd] at hd₁
  cases hd₁
  exact hj

theorem ok_of_mem (ho : Owned data ok h P) (hc : c ∈ P) (hd : h.cell (data c) = some d) :
    ok c d := by
  obtain ⟨Q, rfl⟩ := Multiset.exists_cons_of_mem hc
  exact ho.head hd

/-- Only the relation between entries and objects gets weaker. -/
theorem imp (ho : Owned data ok h P) (hok : ∀ c ∈ P, ∀ d, ok c d → ok' c d) :
    Owned data ok' h P := by
  refine ⟨ho.nodup, ?_, ho.live⟩
  intro c hc
  obtain ⟨d, hd, hj⟩ := ho.job c hc
  exact ⟨d, hd, hok c hc d hj⟩

/-- A new object with its entry. -/
theorem start (ho : Owned data ok h P) (hc : data c = h.next) (hok : ok c d) :
    Owned data ok (h.alloc d) (c ::ₘ P) := by
  refine ⟨?_, ?_, ?_⟩
  · rw [Multiset.map_cons, Multiset.nodup_cons]
    refine ⟨?_, ho.nodup⟩
    intro hm
    obtain ⟨e, he, hec⟩ := Multiset.mem_map.mp hm
    obtain ⟨x, hx, -⟩ := ho.job e he
    have := Heap.lt_next hx
    omega
  · intro e he
    rcases Multiset.mem_cons.mp he with rfl | he
    · exact ⟨d, by rw [hc]; exact Heap.cell_alloc_self _ _, hok⟩
    · obtain ⟨x, hx, hj⟩ := ho.job e he
      exact ⟨x, Heap.cell_alloc_of_some _ hx, hj⟩
  · intro p x hx
    by_cases hp : p = h.next
    · exact ⟨c, Multiset.mem_cons_self _ _, by rw [hc, hp]⟩
    · rw [Heap.cell_alloc_ne _ _ hp] at hx
      obtain ⟨e, he, hep⟩ := ho.live p x hx
      exact ⟨e, Multiset.mem_cons_of_mem he, hep⟩

/-- One entry changes together with its object; the others stay. -/
theorem update (ho : Owned data ok h (c ::ₘ P)) (hd : h.cell (data c) = some d)
    (hdata : data c' = data c) (hok : ok' c' d') (hmono : ∀ e ∈ P, ∀ x, ok e x → ok' e x) :
    Owned data ok' (h.put (data c) d') (c' ::ₘ P) := by
  refine ⟨?_, ?_, ?_⟩
  · have hn := ho.nodup
    rw [Multiset.map_cons] at hn ⊢
    rw [hdata]
    exact hn
  · intro e he
    rcases Multiset.mem_cons.mp he with rfl | he
    · exact ⟨d', by rw [hdata]; exact Heap.cell_put_self d' hd, hok⟩
    · obtain ⟨x, hx, hj⟩ := ho.job e (Multiset.mem_cons_of_mem he)
      exact ⟨x, by rw [Heap.cell_put_ne _ _ (ho.not_mem he)]; exact hx, hmono e he x hj⟩
  · intro p x hx
    by_cases hp : p = data c
    · exact ⟨c', Multiset.mem_cons_self _ _, by rw [hdata, hp]⟩
    · rw [Heap.cell_put_ne _ _ hp] at hx
      obtain ⟨e, he, hep⟩ := ho.live p x hx
      rcases Multiset.mem_cons.mp he with rfl | he
      · exact absurd hep.symm hp
      · exact ⟨e, Multiset.mem_cons_of_mem he, hep⟩

/-- One entry changes and its object stays as it is. -/
theorem update_entry (ho : Owned data ok h (c ::ₘ P)) (hd : h.cell (data c) = some d)
    (hdata : data c' = data c) (hok : ok' c' d) (hmono : ∀ e ∈ P, ∀ x, ok e x → ok' e x) :
    Owned data ok' h (c' ::ₘ P) := by
  have := ho.update hd hdata hok hmono
  rwa [Heap.put_eq_self hd] at this

/-- An entry is dropped and its object freed. -/
theorem retire (ho : Owned data ok h (c ::ₘ P)) : Owned data ok (h.free (data c)) P := by
  refine ⟨?_, ?_, ?_⟩
  · have hn := ho.nodup
    rw [Multiset.map_cons, Multiset.nodup_cons] at hn
    exact hn.2
  · intro e he
    obtain ⟨x, hx, hj⟩ := ho.job e (Multiset.mem_cons_of_mem he)
    exact ⟨x, by rw [Heap.cell_free_ne _ (ho.not_mem he)]; exact hx, hj⟩
  · intro p x hx
    have hne : p ≠ data c := by
      intro hp
      rw [hp, Heap.cell_free_self] at hx
      cases hx
    rw [Heap.cell_free_ne _ hne] at hx
    obtain ⟨e, he, hep⟩ := ho.live p x hx
    rcases Multiset.mem_cons.mp he with rfl | he
    · exact absurd hep.symm hne
    · exact ⟨e, he, hep⟩

end Owned

end KernelMagic.Lib
