/-
  Files and buffers. A file is the list of its cells, a buffer a function from positions to cells
  (its size is not recorded: an access is always described by a position and a count).

  `pread` and `pwrite` are the positioned transfers of a file, `blit` and `grab` those of a buffer.
  A write past the end of a file fills the gap with `pad`, and a write of nothing leaves the file
  as it is.

  `Copied src dst p` says that cell `p` of `dst` exists and is the one of `src`; `Loaded src buf
  first k` that the first `k` cells of a buffer are those of `src` from `first` on. The lemmas say
  how the four transfers move cells between the two notions, and `eq_of_copied` that a file whose
  cells are all copied, and which is not too long, is the source.
-/
import Mathlib

namespace KernelMagic.Lib

variable {β : Type}

/-! ## Transfers -/

/-- The at most `n` cells of a file from position `off` on. -/
def pread (f : List β) (off n : Nat) : List β := (f.drop off).take n

/-- Write `bs` at position `off`. -/
def pwrite (pad : β) (f : List β) (off : Nat) (bs : List β) : List β :=
  if bs.isEmpty then f
  else f.take off ++ List.replicate (off - f.length) pad ++ bs ++ f.drop (off + bs.length)

/-- Store `bs` in a buffer from position `base` on. -/
def blit (buf : Nat → β) (base : Nat) (bs : List β) : Nat → β :=
  fun i => if base ≤ i then (bs[i - base]?).getD (buf i) else buf i

/-- The `n` cells of a buffer from position `base` on. -/
def grab (buf : Nat → β) (base n : Nat) : List β := (List.range n).map fun i => buf (base + i)

theorem getElem?_pread (f : List β) (off n i : Nat) :
    (pread f off n)[i]? = if i < n then f[off + i]? else none := by
  rw [pread, List.getElem?_take]
  split
  · rw [List.getElem?_drop]
  · rfl

theorem length_pread (f : List β) (off n : Nat) (h : off + n ≤ f.length) :
    (pread f off n).length = n := by
  rw [pread, List.length_take, List.length_drop]
  omega

@[simp] theorem length_grab (buf : Nat → β) (base n : Nat) : (grab buf base n).length = n := by
  simp [grab]

theorem length_pwrite (pad : β) (f : List β) (off : Nat) (bs : List β) (h : bs ≠ []) :
    (pwrite pad f off bs).length = max f.length (off + bs.length) := by
  simp only [pwrite, List.isEmpty_iff, h, if_false, List.length_append, List.length_take,
    List.length_replicate, List.length_drop]
  omega

theorem pwrite_nil (pad : β) (f : List β) (off : Nat) : pwrite pad f off [] = f := rfl

theorem length_pwrite_le {pad : β} {f : List β} {off : Nat} {bs : List β} {n : Nat}
    (hf : f.length ≤ n) (h : off + bs.length ≤ n) : (pwrite pad f off bs).length ≤ n := by
  by_cases hb : bs = []
  · rw [hb, pwrite_nil]
    exact hf
  · rw [length_pwrite pad f off bs hb]
    omega

theorem le_length_pwrite (pad : β) (f : List β) (off : Nat) (bs : List β) :
    f.length ≤ (pwrite pad f off bs).length := by
  by_cases hb : bs = []
  · rw [hb, pwrite_nil]
  · rw [length_pwrite pad f off bs hb]
    omega

/-- A cell inside the written range is the written one. -/
theorem getElem?_pwrite_mid (pad : β) (f : List β) (off : Nat) (bs : List β) (i : Nat)
    (hi : i < bs.length) : (pwrite pad f off bs)[off + i]? = bs[i]? := by
  have hb : bs ≠ [] := List.ne_nil_of_length_pos (by omega)
  have hl : (f.take off ++ List.replicate (off - f.length) pad).length = off := by
    simp only [List.length_append, List.length_take, List.length_replicate]
    omega
  simp only [pwrite, List.isEmpty_iff, hb, if_false]
  rw [List.getElem?_append_left (by rw [List.length_append, hl]; omega),
    List.getElem?_append_right (by omega), hl, Nat.add_sub_cancel_left]

/-- A cell of the file outside the written range stays. -/
theorem getElem?_pwrite_out (pad : β) (f : List β) (off : Nat) (bs : List β) (p : Nat)
    (hp : p < f.length) (ho : p < off ∨ off + bs.length ≤ p) :
    (pwrite pad f off bs)[p]? = f[p]? := by
  by_cases hb : bs = []
  · rw [hb, pwrite_nil]
  simp only [pwrite, List.isEmpty_iff, hb, if_false]
  rcases ho with ho | ho
  · rw [List.getElem?_append_left (by simp; omega), List.getElem?_append_left (by simp; omega),
      List.getElem?_append_left (by simp; omega), List.getElem?_take_of_lt ho]
  · have hl : (f.take off ++ List.replicate (off - f.length) pad ++ bs).length
        = off + bs.length := by
      simp only [List.length_append, List.length_take, List.length_replicate]
      omega
    rw [List.getElem?_append_right (by omega), hl, List.getElem?_drop]
    congr 1
    omega

/-! ## Copied cells -/

/-- Cell `p` of `dst` exists and is the one of `src`. -/
def Copied (src dst : List β) (p : Nat) : Prop := p < dst.length ∧ dst[p]? = src[p]?

theorem eq_of_copied {src dst : List β} (hl : dst.length ≤ src.length)
    (h : ∀ p < src.length, Copied src dst p) : dst = src := by
  apply List.ext_getElem?
  intro p
  by_cases hp : p < src.length
  · exact (h p hp).2
  · rw [List.getElem?_eq_none (by omega), List.getElem?_eq_none (by omega)]

/-- Writing a piece of the source at its own position copies that piece. -/
theorem copied_pwrite_mid (pad : β) (src dst : List β) (off n p : Nat)
    (hs : off + n ≤ src.length) (hp : off ≤ p) (hp' : p < off + n) :
    Copied src (pwrite pad dst off (pread src off n)) p := by
  have hl := length_pread src off n hs
  have hne : pread src off n ≠ [] := List.ne_nil_of_length_pos (by omega)
  obtain ⟨i, rfl⟩ := Nat.exists_eq_add_of_le hp
  refine ⟨?_, ?_⟩
  · rw [length_pwrite _ _ _ _ hne, hl]
    omega
  · rw [getElem?_pwrite_mid _ _ _ _ _ (by omega), getElem?_pread, if_pos (by omega)]

/-- Writing a piece of the source at its own position spoils no copied cell. -/
theorem Copied.pwrite {src dst : List β} {p : Nat} (h : Copied src dst p) (pad : β) (off n : Nat)
    (hs : off + n ≤ src.length) : Copied src (pwrite pad dst off (pread src off n)) p := by
  by_cases hin : off ≤ p ∧ p < off + n
  · exact copied_pwrite_mid pad src dst off n p hs hin.1 hin.2
  · have hl := length_pread src off n hs
    refine ⟨Nat.lt_of_lt_of_le h.1 (le_length_pwrite _ _ _ _), ?_⟩
    rw [getElem?_pwrite_out _ _ _ _ _ h.1 (by omega)]
    exact h.2

/-! ## Loaded buffers -/

/-- The first `k` cells of the buffer are those of `src` from `first` on. -/
def Loaded (src : List β) (buf : Nat → β) (first k : Nat) : Prop :=
  ∀ i < k, src[first + i]? = some (buf i)

theorem loaded_zero (src : List β) (buf : Nat → β) (first : Nat) : Loaded src buf first 0 :=
  fun _ h => absurd h (Nat.not_lt_zero _)

theorem Loaded.mono {src : List β} {buf : Nat → β} {first k k' : Nat}
    (h : Loaded src buf first k) (hk : k' ≤ k) : Loaded src buf first k' :=
  fun i hi => h i (Nat.lt_of_lt_of_le hi hk)

theorem Loaded.fits {src : List β} {buf : Nat → β} {first k : Nat} (h : Loaded src buf first k)
    (hk : 0 < k) : first + k ≤ src.length := by
  have hlt := (List.getElem?_eq_some_iff.mp (h (k - 1) (by omega))).1
  omega

/-- Reading on behind the loaded part. -/
theorem Loaded.blit {src : List β} {buf : Nat → β} {first k : Nat} (h : Loaded src buf first k)
    (n : Nat) (hs : first + k + n ≤ src.length) :
    Loaded src (blit buf k (pread src (first + k) n)) first (k + n) := by
  intro i hi
  by_cases hk : k ≤ i
  · have e : first + k + (i - k) = first + i := by omega
    have hlt : first + i < src.length := by omega
    simp only [Lib.blit, hk, if_true, getElem?_pread, if_pos (show i - k < n by omega), e,
      List.getElem?_eq_getElem hlt, Option.getD_some]
  · simp only [Lib.blit, hk, if_false]
    exact h i (by omega)

/-- Reading what is there into the start of a buffer. -/
theorem loaded_pread {src : List β} (buf : Nat → β) {first n : Nat}
    (hlen : (pread src first n).length = n) : Loaded src (blit buf 0 (pread src first n)) first n := by
  rcases Nat.eq_zero_or_pos n with rfl | hpos
  · exact loaded_zero _ _ _
  · rw [pread, List.length_take, List.length_drop] at hlen
    have h := (loaded_zero src buf first).blit n (by omega)
    rwa [Nat.zero_add] at h

/-- What a loaded buffer holds is a piece of the source. -/
theorem Loaded.grab {src : List β} {buf : Nat → β} {first k n : Nat}
    (h : Loaded src buf first (k + n)) : grab buf k n = pread src (first + k) n := by
  apply List.ext_getElem?
  intro i
  rw [getElem?_pread]
  by_cases hi : i < n
  · have := h (k + i) (by omega)
    simp only [Lib.grab, List.getElem?_map, List.getElem?_range hi, Option.map_some, if_pos hi]
    rw [← this, Nat.add_assoc]
  · simp [Lib.grab, hi]

end KernelMagic.Lib
