/-
  Files that are filled in pieces. `Fill pad src dst ws dst'` is one step of it: nothing is written, or a
  piece of `src` to its own position; `ws` has the position and the length of what is written. Pieces
  may come in any order and more than once.

  A file that is filled from nothing is `Sparse`: it is nowhere longer than the source, each cell that a
  write has reached is the one of the source, and each other cell is in a gap in front of a write. A cell
  that is copied stays so.
-/
import KernelMagic.Lib.Bytes

namespace KernelMagic.Lib

variable {β : Type} {pad : β} {src dst dst' : List β} {ws ws' : List (Nat × Nat)}

inductive Fill (pad : β) (src dst : List β) : List (Nat × Nat) → List β → Prop
  | skip : Fill pad src dst [] dst
  | piece (off n : Nat) (h : 0 < n → off + n ≤ src.length) :
      Fill pad src dst [(off, n)] (pwrite pad dst off (pread src off n))

/-- One of the writes has reached cell `p`. -/
def Reached (ws : List (Nat × Nat)) (p : Nat) : Prop := ∃ w ∈ ws, w.1 ≤ p ∧ p < w.1 + w.2

structure Sparse (pad : β) (src : List β) (ws : List (Nat × Nat)) (dst : List β) : Prop where
  le : dst.length ≤ src.length
  cell : ∀ p, Reached ws p → Copied src dst p
  gap : ∀ p < dst.length, ¬ Reached ws p → dst[p]? = some pad ∧ ∃ w ∈ ws, 0 < w.2 ∧ p < w.1

theorem sparse_nil (pad : β) (src : List β) : Sparse pad src [] [] where
  le := Nat.zero_le _
  cell := fun _ ⟨_, hw, _⟩ => absurd hw List.not_mem_nil
  gap := fun _ hp => absurd hp (Nat.not_lt_zero _)

theorem reached_cons {w : Nat × Nat} {p : Nat} :
    Reached (w :: ws) p ↔ (w.1 ≤ p ∧ p < w.1 + w.2) ∨ Reached ws p := by
  unfold Reached
  rw [List.exists_mem_cons_iff]

/-- The cells between the old end of a file and what is written behind it. -/
theorem getElem?_pwrite_gap (pad : β) (f : List β) (off : Nat) {bs : List β} (hb : bs ≠ []) {p : Nat}
    (hlo : f.length ≤ p) (hhi : p < off) : (pwrite pad f off bs)[p]? = some pad := by
  have htake : (f.take off).length = f.length := by
    rw [List.length_take]
    omega
  simp only [pwrite, List.isEmpty_iff, hb, if_false]
  rw [List.getElem?_append_left (by simp; omega), List.getElem?_append_left (by simp; omega),
    List.getElem?_append_right (by omega), htake, List.getElem?_replicate, if_pos (by omega)]

theorem Fill.copied (h : Fill pad src dst ws dst') {p : Nat} (hp : Copied src dst p) :
    Copied src dst' p := by
  cases h with
  | skip => exact hp
  | piece off n hfit =>
    rcases Nat.eq_zero_or_pos n with rfl | hpos
    · exact hp
    · exact hp.pwrite pad off n (hfit hpos)

/-- A piece that is not empty. -/
theorem Sparse.piece (hs : Sparse pad src ws dst) {off n : Nat} (hpos : 0 < n)
    (hfit : off + n ≤ src.length) :
    Sparse pad src ((off, n) :: ws) (pwrite pad dst off (pread src off n)) := by
  have hlen := length_pread src off n hfit
  have hne : pread src off n ≠ [] := List.ne_nil_of_length_pos (by omega)
  refine ⟨length_pwrite_le hs.le (by omega), fun p hp => ?_, fun p hp hout => ?_⟩
  · rcases reached_cons.mp hp with hin | hold
    · exact copied_pwrite_mid pad src dst off n p hfit hin.1 hin.2
    · exact (hs.cell p hold).pwrite pad off n hfit
  · rw [reached_cons, not_or] at hout
    obtain ⟨hmiss, hold⟩ := hout
    by_cases hp' : p < dst.length
    · obtain ⟨hpad, w, hw, hafter⟩ := hs.gap p hp' hold
      refine ⟨?_, w, List.mem_cons_of_mem _ hw, hafter⟩
      rw [getElem?_pwrite_out pad dst off _ p hp' (by omega)]
      exact hpad
    · -- behind the old end there is only the gap and the piece
      rw [length_pwrite pad dst off _ hne, hlen] at hp
      have hlt : p < off := by omega
      exact ⟨getElem?_pwrite_gap pad dst off hne (by omega) hlt, (off, n), List.mem_cons_self, hpos,
        hlt⟩

theorem Fill.sparse (h : Fill pad src dst ws' dst') (hs : Sparse pad src ws dst) :
    Sparse pad src (ws' ++ ws) dst' := by
  cases h with
  | skip => exact hs
  | piece off n hfit =>
    rcases Nat.eq_zero_or_pos n with rfl | hpos
    · -- nothing is written, and nothing reached
      have hsame (p : Nat) : Reached ((off, 0) :: ws) p ↔ Reached ws p := by
        rw [reached_cons]
        exact or_iff_right fun h => by omega
      refine ⟨hs.le, fun p hp => hs.cell p ((hsame p).mp hp), fun p hp hout => ?_⟩
      obtain ⟨hpad, w, hw, hafter⟩ := hs.gap p hp fun h => hout ((hsame p).mpr h)
      exact ⟨hpad, w, List.mem_cons_of_mem _ hw, hafter⟩
    · exact hs.piece hpos (hfit hpos)

/-- What a loaded buffer holds, written to where it was read from, is a piece. -/
theorem Loaded.fill {buf : Nat → β} {first n k : Nat} (h : Loaded src buf first (k + n)) (pad : β)
    (dst : List β) :
    Fill pad src dst [(first + k, n)] (pwrite pad dst (first + k) (Lib.grab buf k n)) := by
  rw [h.grab]
  refine .piece (first + k) n fun hpos => ?_
  have hfit := h.fits (by omega)
  omega

end KernelMagic.Lib
