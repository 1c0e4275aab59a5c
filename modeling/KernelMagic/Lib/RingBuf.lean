/-
  The ring buffer between a program in the kernel and its consumer, for records of one size. `prod` and
  `cons` are the positions behind the last record reserved and the last one consumed; they only grow, and
  a position stands for the byte at its remainder by the size of the ring.

  A record takes eight bytes of header and its data, rounded up to a multiple of eight. Reserving one
  does not touch its bytes: they are what an earlier record has left in its place, or the zeros of the
  start. A write inside a record stays inside it (`data_put_record`). The bytes of the header are left
  out.
-/
import Mathlib

namespace KernelMagic.Lib

structure RingBuf where
  size : Nat
  data : Nat → UInt8
  prod : Nat
  cons : Nat

/-- What a record with `n` bytes of data takes of the ring. -/
def recordLen (n : Nat) : Nat := (n + 8 + 7) / 8 * 8

namespace RingBuf

def empty (size : Nat) : RingBuf := ⟨size, fun _ => 0, 0, 0⟩

/-- `bpf_ringbuf_reserve`: the position of the data; `none` when the ring is full. -/
def reserve (r : RingBuf) (n : Nat) : Option (Nat × RingBuf) :=
  if r.prod + recordLen n - r.cons < r.size then
    some (r.prod + 8, { r with prod := r.prod + recordLen n })
  else none

/-- The next record for the consumer: the position of the data; `none` when there is none. -/
def consume (r : RingBuf) (n : Nat) : Option (Nat × RingBuf) :=
  if r.cons < r.prod then some (r.cons + 8, { r with cons := r.cons + recordLen n }) else none

/-- How far behind position `pos` a byte of the ring is. -/
def ahead (size pos i : Nat) : Nat := (i + size - pos % size) % size

/-- Write bytes from position `pos` on. -/
def put (r : RingBuf) (pos : Nat) (bs : List UInt8) : RingBuf :=
  { r with data := fun i => (bs[ahead r.size pos i]?).getD (r.data i) }

/-- Read `n` bytes from position `pos` on. -/
def get (r : RingBuf) (pos n : Nat) : List UInt8 :=
  (List.range n).map fun k => r.data ((pos + k) % r.size)

variable {r : RingBuf}

theorem length_get (r : RingBuf) (pos n : Nat) : (r.get pos n).length = n := by
  rw [get, List.length_map, List.length_range]

/-! ## Records

  A ring that holds `m` records of `w` bytes. Record `n` is in the place `n % m`, and byte `b` of a
  place stays at the same position of the ring. -/

variable {w m n q a b k : Nat}

theorem record_mod (ha : a < w) : (w * n + a) % (w * m) = w * (n % m) + a := by
  have hw : 0 < w := Nat.zero_lt_of_lt ha
  rw [Nat.mod_mul, Nat.mul_add_mod, Nat.mod_eq_of_lt ha, Nat.mul_add_div hw, Nat.div_eq_of_lt ha,
    Nat.add_zero, Nat.add_comm]

theorem ahead_record (ha : a < w) (hq : q < m) (hb : b < w) :
    (q = n % m ∧ a ≤ b ∧ ahead (w * m) (w * n + a) (w * q + b) = b - a) ∨
      ¬(q = n % m ∧ a ≤ b) ∧ w - a ≤ ahead (w * m) (w * n + a) (w * q + b) := by
  have hlast : ∀ p < m, w * p + w ≤ w * m := fun p hp => Nat.mul_le_mul_left w hp
  have hp : n % m < m := Nat.mod_lt n (Nat.zero_lt_of_lt hq)
  have hqm := hlast q hq
  have hpm := hlast (n % m) hp
  unfold ahead
  rw [record_mod ha]
  rcases Nat.lt_trichotomy q (n % m) with hlt | heq | hgt
  · have hle : w * q + w ≤ w * (n % m) := Nat.mul_le_mul_left w hlt
    have hsmall : w * q + b + w * m - (w * (n % m) + a) < w * m := by omega
    rw [Nat.mod_eq_of_lt hsmall]
    exact .inr ⟨by omega, by omega⟩
  · subst heq
    by_cases hab : a ≤ b
    · have hsub : w * (n % m) + b + w * m - (w * (n % m) + a) = b - a + w * m := by omega
      rw [hsub, Nat.add_mod_right, Nat.mod_eq_of_lt (show b - a < w * m by omega)]
      exact .inl ⟨rfl, hab, rfl⟩
    · have hsmall : w * (n % m) + b + w * m - (w * (n % m) + a) < w * m := by omega
      rw [Nat.mod_eq_of_lt hsmall]
      exact .inr ⟨by omega, by omega⟩
  · have hle : w * (n % m) + w ≤ w * q := Nat.mul_le_mul_left w hgt
    have hsub : w * q + b + w * m - (w * (n % m) + a) =
        w * q + b - (w * (n % m) + a) + w * m := by omega
    have hsmall : w * q + b - (w * (n % m) + a) < w * m := by omega
    rw [hsub, Nat.add_mod_right, Nat.mod_eq_of_lt hsmall]
    exact .inr ⟨by omega, by omega⟩

/-- A write inside a record changes that record only, and nothing in front of the write. -/
theorem data_put_record (hs : r.size = w * m) (hq : q < m) (hb : b < w) {bs : List UInt8}
    (ha : a < w) (hlen : a + bs.length ≤ w) :
    (r.put (w * n + a) bs).data (w * q + b) =
      if q = n % m ∧ a ≤ b then (bs[b - a]?).getD (r.data (w * q + b)) else r.data (w * q + b) := by
  simp only [put, hs]
  rcases ahead_record (n := n) ha hq hb with ⟨hqn, hab, heq⟩ | ⟨hout, hle⟩
  · rw [if_pos ⟨hqn, hab⟩, heq]
  · rw [if_neg hout, List.getElem?_eq_none (by omega)]
    rfl

/-- The bytes from the start of the write on. -/
theorem data_put_from (hs : r.size = w * m) (hq : q < m) (hk : a + k < w) {bs : List UInt8}
    (hlen : a + bs.length ≤ w) :
    (r.put (w * n + a) bs).data (w * q + (a + k)) =
      if q = n % m then (bs[k]?).getD (r.data (w * q + (a + k))) else r.data (w * q + (a + k)) := by
  rw [data_put_record hs hq hk (by omega) hlen, Nat.add_sub_cancel_left]
  by_cases hqn : q = n % m
  · rw [if_pos hqn, if_pos ⟨hqn, Nat.le_add_right a k⟩]
  · rw [if_neg hqn, if_neg fun h => hqn h.1]

theorem getElem?_get_record (hs : r.size = w * m) {c : Nat} (hk : k < c) (ha : a + k < w) :
    (r.get (w * n + a) c)[k]? = some (r.data (w * (n % m) + (a + k))) := by
  rw [get, List.getElem?_map, List.getElem?_range hk, Option.map_some, hs, Nat.add_assoc,
    record_mod ha]

end RingBuf

end KernelMagic.Lib
