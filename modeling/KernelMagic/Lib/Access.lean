/-
  Programs that read memory past their bounds. `Logged` gives every load a value, wherever it is, and
  writes down what has been done: the loads, the differences taken of two addresses, and the copies
  with the size of what they copy to.

  `Checked n x o` says that everything `x` has done on the way is in order in a packet of `n` bytes, and
  that `o`, the same program over loads that fault, ends with the same value. There is one rule for
  each way a program is put together, so a proof follows the text of the program, and the comparisons
  it has made are at hand where it loads.
-/
import KernelMagic.Lib.Packet

namespace KernelMagic.Lib

inductive Access where
  | load (off len : Nat)
  | diff (a b : Nat)
  | copy (off len size : Nat)
  deriving DecidableEq, Repr

/-- In a packet of `n` bytes: what is read is in it, no difference wraps, and a copy fits. -/
def Access.Ok (n : Nat) : Access → Prop
  | .load off len => off + len ≤ n
  | .diff a b => b ≤ a
  | .copy off len size => off + len ≤ n ∧ len ≤ size

/-- A value, and what was done to compute it. -/
structure Logged (α : Type) where
  value : α
  log : List Access

namespace Logged

variable {α β : Type}

instance : Monad Logged where
  pure a := ⟨a, []⟩
  bind x g := ⟨(g x.value).value, x.log ++ (g x.value).log⟩

def load8 (m : Nat → UInt8) (i : Nat) : Logged UInt8 := ⟨m i, [.load i 1]⟩

def load16 (m : Nat → UInt8) (i : Nat) : Logged UInt16 :=
  ⟨(m i).toUInt16 ||| (m (i + 1)).toUInt16 <<< 8, [.load i 2]⟩

def load32 (m : Nat → UInt8) (i : Nat) : Logged UInt32 :=
  ⟨((m i).toUInt16 ||| (m (i + 1)).toUInt16 <<< 8).toUInt32 |||
    ((m (i + 2)).toUInt16 ||| (m (i + 2 + 1)).toUInt16 <<< 8).toUInt32 <<< 16, [.load i 4]⟩

def diff (a b : Nat) : Logged Nat := ⟨sub64 a b, [.diff a b]⟩

/-- Copy `len` bytes at `off` to the start of an array; what does not fit is not kept. -/
def readInto {n : Nat} (dst : List.Vector UInt8 n) (len : Nat) (m : Nat → UInt8) (off : Nat) :
    Logged (List.Vector UInt8 n) :=
  ⟨List.Vector.ofFn fun i => if i.1 < len then m (off + i.1) else dst.get i, [.copy off len n]⟩

end Logged

/-- The first `n` bytes of the memory. -/
def packet (m : Nat → UInt8) (n : Nat) : List UInt8 := (List.range n).map m

structure Checked {α : Type} (n : Nat) (x : Logged α) (o : Option α) : Prop where
  ok : ∀ a ∈ x.log, a.Ok n
  value : o = some x.value

namespace Checked

variable {α β : Type} {n : Nat} {m : Nat → UInt8}

theorem pure (v : α) : Checked n (Pure.pure v) (some v) := ⟨by simp [Pure.pure], rfl⟩

theorem bind {x : Logged α} {o : Option α} {g : α → Logged β} {k : α → Option β}
    (hx : Checked n x o) (hg : Checked n (g x.value) (k x.value)) : Checked n (x >>= g) (o >>= k) where
  ok a ha := by
    rcases List.mem_append.mp ha with h | h
    · exact hx.ok a h
    · exact hg.ok a h
  value := by
    rw [hx.value]
    exact hg.value

theorem ite {c : Prop} [Decidable c] {x y : Logged α} {o p : Option α} (h1 : c → Checked n x o)
    (h2 : ¬ c → Checked n y p) : Checked n (if c then x else y) (if c then o else p) := by
  by_cases hc : c
  · rw [if_pos hc, if_pos hc]
    exact h1 hc
  · rw [if_neg hc, if_neg hc]
    exact h2 hc

/-- A step the other program does not take. -/
theorem extra {x : Logged α} {g : α → Logged β} {o : Option β} (hx : ∀ a ∈ x.log, a.Ok n)
    (hg : Checked n (g x.value) o) : Checked n (x >>= g) o where
  ok a ha := by
    rcases List.mem_append.mp ha with h | h
    · exact hx a h
    · exact hg.ok a h
  value := hg.value

end Checked

section Loads

variable {n i : Nat} (m : Nat → UInt8)

theorem length_packet : (packet m n).length = n := by
  rw [packet, List.length_map, List.length_range]

theorem byte_packet (h : i < n) : byte (packet m n) i = m i := by
  unfold byte packet
  rw [List.getD_eq_getElem?_getD, List.getElem?_map, List.getElem?_range h]
  rfl

theorem Checked.load8 (h : i + 1 ≤ n) : Checked n (Logged.load8 m i) (load8 (packet m n) i) where
  ok a ha := by
    obtain rfl := List.mem_singleton.mp ha
    exact h
  value := by
    rw [load8_eq (by rw [length_packet]; exact h), byte_packet m h]
    rfl

theorem Checked.load16 (h : i + 2 ≤ n) : Checked n (Logged.load16 m i) (load16 (packet m n) i) where
  ok a ha := by
    obtain rfl := List.mem_singleton.mp ha
    exact h
  value := by
    rw [load16_eq (by rw [length_packet]; exact h), le16, byte_packet m (by omega),
      byte_packet m (by omega)]
    rfl

theorem Checked.load32 (h : i + 4 ≤ n) : Checked n (Logged.load32 m i) (load32 (packet m n) i) where
  ok a ha := by
    obtain rfl := List.mem_singleton.mp ha
    exact h
  value := by
    rw [load32_eq (by rw [length_packet]; exact h), le32, le16, le16, byte_packet m (by omega),
      byte_packet m (by omega), byte_packet m (by omega), byte_packet m (by omega)]
    rfl

theorem get_eq_getD (v : List.Vector UInt8 n) (j : Fin n) : v.get j = v.1.getD j 0 := by
  rw [List.getD_eq_getElem _ _ (by rw [v.2]; exact j.2)]
  exact List.Vector.get_eq_get_toList v j

theorem Checked.readInto {size len : Nat} (dst : List.Vector UInt8 size) (h1 : i + len ≤ n)
    (h2 : len ≤ size) :
    Checked n (Logged.readInto dst len m i) (readInto dst len (packet m n) i) where
  ok a ha := by
    obtain rfl := List.mem_singleton.mp ha
    exact ⟨h1, h2⟩
  value := by
    have hlen : i + len ≤ (packet m n).length := by
      rw [length_packet]
      exact h1
    obtain ⟨v, hv, hval⟩ := readInto_eq dst h2 hlen
    have hcopied : (((packet m n).drop i).take len).length = len := by
      rw [List.length_take, List.length_drop]
      omega
    rw [hv]
    refine congrArg some (List.Vector.ext fun j => ?_)
    rw [get_eq_getD, hval, Logged.readInto, List.Vector.get_ofFn]
    by_cases hj : j.1 < len
    · rw [if_pos hj, List.getD_append _ _ _ _ (by rw [hcopied]; exact hj),
        List.getD_eq_getElem?_getD, List.getElem?_take_of_lt hj, List.getElem?_drop,
        ← List.getD_eq_getElem?_getD]
      exact byte_packet m (by omega)
    · rw [if_neg hj, List.getD_append_right _ _ _ _ (by rw [hcopied]; omega), hcopied,
        List.getD_eq_getElem?_getD, List.getElem?_drop, Nat.add_sub_cancel' (Nat.not_lt.mp hj),
        ← List.getD_eq_getElem?_getD, get_eq_getD]

end Loads

end KernelMagic.Lib
