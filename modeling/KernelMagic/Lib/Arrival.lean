/-
  Pieces of a file put down one behind the other in the order in which they arrive. The piece at
  offset `o` has the at most `B` cells of the file from `o` on. `positions B n l` lists, for a file of
  `n` cells, the cell of the file that ends up at each place when the offsets arrive in the order `l`.

  If the offsets are the multiples of `B`, each once, then the result is the file, whatever its cells
  are, exactly when the offsets of the pieces that are not empty arrive in increasing order
  (`arrival_iff`).
-/
import KernelMagic.Lib.Bytes

namespace KernelMagic.Lib

def positions (B n : Nat) (l : List Nat) : List Nat :=
  (l.map fun o => List.range' o (min B (n - o))).flatten

section Positions

variable {B n : Nat}

theorem positions_cons (o : Nat) (l : List Nat) :
    positions B n (o :: l) = List.range' o (min B (n - o)) ++ positions B n l := rfl

theorem positions_append (l l' : List Nat) :
    positions B n (l ++ l') = positions B n l ++ positions B n l' := by
  unfold positions
  rw [List.map_append, List.flatten_append]

/-- Empty pieces do not matter. -/
theorem positions_filter (l : List Nat) :
    positions B n (l.filter fun o => o < n) = positions B n l := by
  induction l with
  | nil => rfl
  | cons o l ih =>
    by_cases ho : o < n
    · rw [List.filter_cons_of_pos (by simpa using ho), positions_cons, positions_cons, ih]
    · have h0 : min B (n - o) = 0 := by omega
      rw [List.filter_cons_of_neg (by simpa using ho), positions_cons, ih, h0, List.range'_zero,
        List.nil_append]

/-- In order, the pieces make up the file. -/
theorem positions_range (k : Nat) :
    positions B n ((List.range k).map (· * B)) = List.range (min (k * B) n) := by
  induction k with
  | zero => simp [positions]
  | succ k ih =>
    rw [List.range_succ, List.map_append, positions_append, ih, List.map_singleton, positions_cons]
    have hnil : positions B n [] = [] := rfl
    rw [hnil, List.append_nil]
    by_cases hk : k * B ≤ n
    · have hnext : min ((k + 1) * B) n = k * B + min B (n - k * B) := by
        rw [Nat.succ_mul]
        omega
      rw [Nat.min_eq_left hk, hnext, List.range_eq_range', List.range_eq_range',
        ← List.range'_append_1, Nat.zero_add]
    · have hlast : min (k * B) n = min ((k + 1) * B) n := by
        rw [Nat.succ_mul]
        omega
      rw [show min B (n - k * B) = 0 by omega, List.range'_zero, List.append_nil, hlast]

/-- Each piece that is not empty shows its own offset first. -/
theorem filter_sublist_positions (hB : 0 < B) (l : List Nat) :
    (l.filter fun o => o < n).Sublist (positions B n l) := by
  induction l with
  | nil => exact List.Sublist.refl _
  | cons o l ih =>
    rw [positions_cons]
    by_cases ho : o < n
    · obtain ⟨m, hm⟩ := Nat.exists_eq_succ_of_ne_zero (show min B (n - o) ≠ 0 by omega)
      rw [List.filter_cons_of_pos (by simpa using ho), hm, List.range'_succ, List.cons_append]
      exact (ih.trans (List.sublist_append_right _ _)).cons_cons o
    · rw [List.filter_cons_of_neg (by simpa using ho)]
      exact ih.trans (List.sublist_append_right _ _)

theorem positions_eq_range_iff (hB : 0 < B) {l : List Nat} {k : Nat}
    (hl : l.Perm ((List.range k).map (· * B))) (hk : n ≤ k * B) :
    positions B n l = List.range n ↔ (l.filter fun o => o < n).Pairwise (· < ·) := by
  constructor
  · intro h
    have hs := filter_sublist_positions (n := n) hB l
    rw [h] at hs
    exact List.Pairwise.sublist hs List.pairwise_lt_range
  · intro h
    have hg : (((List.range k).map (· * B)).filter fun o => o < n).Pairwise (· < ·) := by
      refine List.Pairwise.filter _ (List.pairwise_map.mpr (List.pairwise_lt_range.imp ?_))
      intro i j hij
      exact Nat.mul_lt_mul_of_pos_right hij hB
    have he := (hl.filter fun o => o < n).eq_of_pairwise
      (fun a b _ _ h1 h2 => absurd h1 (Nat.lt_asymm h2)) h hg
    rw [← positions_filter, he, positions_filter, positions_range, Nat.min_eq_right hk]

end Positions

section Arrival

variable {β : Type} {B : Nat}

theorem pread_eq_map (src : List β) (d : β) (o : Nat) :
    pread src o B = (List.range' o (min B (src.length - o))).map fun p => src.getD p d := by
  apply List.ext_getElem?
  intro i
  rw [getElem?_pread, List.getElem?_map]
  by_cases hi : i < min B (src.length - o)
  · have hlt : o + i < src.length := by omega
    rw [if_pos (by omega), List.getElem?_range' hi, Option.map_some, List.getD_eq_getElem?_getD,
      Nat.one_mul, List.getElem?_eq_getElem hlt, Option.getD_some]
  · have hnone : (List.range' o (min B (src.length - o)))[i]? = none :=
      List.getElem?_eq_none (by rw [List.length_range']; omega)
    rw [hnone, Option.map_none]
    split
    · exact List.getElem?_eq_none (by omega)
    · rfl

/-- What is put down at each place. -/
theorem flatten_pread (src : List β) (d : β) (l : List Nat) :
    (l.map fun o => pread src o B).flatten =
      (positions B src.length l).map fun p => src.getD p d := by
  induction l with
  | nil => rfl
  | cons o l ih =>
    rw [List.map_cons, List.flatten_cons, ih, positions_cons, List.map_append,
      ← pread_eq_map src d o]

/-- Only the identity puts every file back together. -/
theorem eq_range_of_forall {n : Nat} {P : List Nat} {a b : β} (hab : a ≠ b)
    (h : ∀ src : List β, src.length = n → (P.map fun p => src.getD p a) = src) :
    P = List.range n := by
  have hlen : P.length = n := by
    have := congrArg List.length (h (List.replicate n a) (List.length_replicate ..))
    rwa [List.length_map, List.length_replicate] at this
  apply List.ext_getElem
  · rw [hlen, List.length_range]
  · intro i h1 h2
    rw [List.getElem_range]
    -- the file that has `b` at place `i` only
    have hsrc := h ((List.range n).map fun j => if j = i then b else a) (by simp)
    have hi := congrArg (fun l => l.getD i a) hsrc
    by_contra hne
    refine hab ?_
    have hlt : i < n := by omega
    by_cases hp : P[i] < n
    · simpa [List.getD_eq_getElem?_getD, h1, hlt, hp, hne] using hi
    · simpa [List.getD_eq_getElem?_getD, h1, hlt, hp, hne] using hi

theorem arrival_iff {n k : Nat} {l : List Nat} {a b : β} (hab : a ≠ b) (hB : 0 < B)
    (hl : l.Perm ((List.range k).map (· * B))) (hk : n ≤ k * B) :
    (∀ src : List β, src.length = n → (l.map fun o => pread src o B).flatten = src) ↔
      (l.filter fun o => o < n).Pairwise (· < ·) := by
  rw [← positions_eq_range_iff hB hl hk]
  constructor
  · intro h
    refine eq_range_of_forall hab fun src hsrc => ?_
    have := h src hsrc
    rwa [flatten_pread src a, hsrc] at this
  · intro h src hsrc
    rw [flatten_pread src a, hsrc, h]
    apply List.ext_getElem
    · rw [List.length_map, List.length_range, hsrc]
    · intro i h1 h2
      simp [List.getD_eq_getElem?_getD, h2]

end Arrival

end KernelMagic.Lib
