/-
  Reading a packet: loads on a little-endian machine that fault (`none`) outside the packet, the swap
  of the two bytes of a 16-bit number (`bpf_ntohs`, `bpf_htons`), the difference of two addresses, and
  the copy of a piece of the packet into an array.

  `byte`, `be16` and `le32` are the same numbers without the bounds, as a reader of the packet format
  sees them; the `load` lemmas connect the two where the load is inside the packet.
-/
import Mathlib

namespace KernelMagic.Lib

def load8 (f : List UInt8) (i : Nat) : Option UInt8 := f[i]?

def load16 (f : List UInt8) (i : Nat) : Option UInt16 := do
  let a ← load8 f i
  let b ← load8 f (i + 1)
  return a.toUInt16 ||| b.toUInt16 <<< 8

def load32 (f : List UInt8) (i : Nat) : Option UInt32 := do
  let a ← load16 f i
  let b ← load16 f (i + 2)
  return a.toUInt32 ||| b.toUInt32 <<< 16

/-- The bytes of a number as they are in memory. -/
def bytes32 (x : UInt32) : List UInt8 :=
  [x.toUInt8, (x >>> 8).toUInt8, (x >>> 16).toUInt8, (x >>> 24).toUInt8]

def bswap16 (x : UInt16) : UInt16 := x <<< 8 ||| x >>> 8

/-- The difference of two 64-bit numbers. -/
@[irreducible] def sub64 (a b : Nat) : Nat := (a + 2 ^ 64 - b) % 2 ^ 64

/-- Copy `len` bytes at `off` of the packet to the start of an array; a fault if they are not all in
    the packet, or do not fit. -/
def readInto {n : Nat} (dst : List.Vector UInt8 n) (len : Nat) (f : List UInt8) (off : Nat) :
    Option (List.Vector UInt8 n) :=
  if h : len ≤ n ∧ off + len ≤ f.length then
    some ⟨(f.drop off).take len ++ dst.1.drop len, by
      have hlen := dst.2
      simp only [List.length_append, List.length_take, List.length_drop, hlen]
      omega⟩
  else none

/-! ## Packets as numbers -/

variable {f : List UInt8} {i : Nat}

def byte (f : List UInt8) (i : Nat) : UInt8 := f.getD i 0

def le16 (f : List UInt8) (i : Nat) : UInt16 :=
  (byte f i).toUInt16 ||| (byte f (i + 1)).toUInt16 <<< 8

def be16 (f : List UInt8) (i : Nat) : UInt16 :=
  (byte f i).toUInt16 <<< 8 ||| (byte f (i + 1)).toUInt16

def le32 (f : List UInt8) (i : Nat) : UInt32 :=
  (le16 f i).toUInt32 ||| (le16 f (i + 2)).toUInt32 <<< 16

theorem load8_eq (h : i < f.length) : load8 f i = some (byte f i) := by
  unfold load8 byte
  rw [List.getD_eq_getElem?_getD, List.getElem?_eq_getElem h]
  rfl

theorem load16_eq (h : i + 2 ≤ f.length) : load16 f i = some (le16 f i) := by
  unfold load16
  rw [load8_eq (show i < f.length by omega), load8_eq (show i + 1 < f.length by omega)]
  rfl

theorem load32_eq (h : i + 4 ≤ f.length) : load32 f i = some (le32 f i) := by
  unfold load32
  rw [load16_eq (show i + 2 ≤ f.length by omega), load16_eq (show i + 2 + 2 ≤ f.length by omega)]
  rfl

@[simp] theorem length_bytes32 (x : UInt32) : (bytes32 x).length = 4 := rfl

theorem join_bytes (x : UInt32) :
    (x.toUInt8.toUInt16 ||| (x >>> 8).toUInt8.toUInt16 <<< 8).toUInt32 |||
      ((x >>> 16).toUInt8.toUInt16 ||| (x >>> 24).toUInt8.toUInt16 <<< 8).toUInt32 <<< 16 = x := by
  apply UInt32.eq_of_toBitVec_eq
  simp only [UInt32.toBitVec_or, UInt32.toBitVec_shiftLeft, UInt16.toBitVec_toUInt32,
    UInt16.toBitVec_or, UInt16.toBitVec_shiftLeft, UInt8.toBitVec_toUInt16, UInt32.toBitVec_toUInt8,
    UInt32.toBitVec_shiftRight]
  ext i hi
  by_cases h8 : i < 8
  · simp [h8]
    grind
  · by_cases h16 : i < 16
    · simp [h8, h16]
      grind
    · simp [h8, h16]
      grind

/-- A number that is in memory is loaded. -/
theorem load32_bytes32 {f a b : List UInt8} {i : Nat} {x : UInt32} (hf : f = a ++ (bytes32 x ++ b))
    (hi : i = a.length) : load32 f i = some x := by
  have hbyte : ∀ k < 4, load8 f (a.length + k) = (bytes32 x)[k]? := by
    intro k hk
    rw [load8, hf, List.getElem?_append_right (Nat.le_add_right _ _), Nat.add_sub_cancel_left,
      List.getElem?_append_left hk]
  have h0 := hbyte 0 (by decide)
  rw [Nat.add_zero] at h0
  rw [hi, load32, load16, load16, Nat.add_assoc, h0, hbyte 1 (by decide), hbyte 2 (by decide),
    hbyte 3 (by decide)]
  exact congrArg some (join_bytes x)

theorem bswap16_bswap16 (x : UInt16) : bswap16 (bswap16 x) = x := by
  unfold bswap16
  apply UInt16.eq_of_toBitVec_eq
  simp only [UInt16.toBitVec_or, UInt16.toBitVec_shiftLeft, UInt16.toBitVec_shiftRight]
  ext i hi
  -- each half of the number comes from one of the two shifts
  by_cases h : i < 8
  · simp [h]
    grind
  · simp [h]
    grind

theorem bswap16_le16 (f : List UInt8) (i : Nat) : bswap16 (le16 f i) = be16 f i := by
  unfold bswap16 le16 be16
  apply UInt16.eq_of_toBitVec_eq
  simp only [UInt16.toBitVec_or, UInt16.toBitVec_shiftLeft, UInt16.toBitVec_shiftRight,
    UInt8.toBitVec_toUInt16]
  ext j hj
  by_cases h : j < 8
  · simp [h]
    grind
  · simp [h]
    grind

theorem sub64_of_le {a b : Nat} (h : b ≤ a) (ha : a < 2 ^ 64) : sub64 a b = a - b := by
  unfold sub64
  omega

theorem readInto_eq {n : Nat} (dst : List.Vector UInt8 n) {len off : Nat} (h1 : len ≤ n)
    (h2 : off + len ≤ f.length) :
    ∃ v, readInto dst len f off = some v ∧ v.1 = (f.drop off).take len ++ dst.1.drop len := by
  unfold readInto
  rw [dif_pos ⟨h1, h2⟩]
  exact ⟨_, rfl, rfl⟩

end KernelMagic.Lib
