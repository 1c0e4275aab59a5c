/-
  Where the bytes of a copy come from. A log lists the transfers between two files and a set of
  buffers, the latest first: reads of the source into a buffer, writes of a buffer to the destination,
  each from the start of the buffer on.

  `Faithful` says that every position that has been written had been read before, into the same
  buffer. If each buffer is read into once, and before it is written (`Ordered`), that is a matter of
  the lengths alone (`Ordered.faithful_iff`).
-/
import Mathlib

namespace KernelMagic.Lib

/-- A transfer of `len` bytes between the buffer `data` and the positions from `offset` on. -/
structure Moved where
  read : Bool
  data : Nat
  offset : Nat
  len : Nat
  deriving DecidableEq, Repr

def Moved.Covers (e : Moved) (p : Nat) : Prop := e.offset ≤ p ∧ p < e.offset + e.len

/-- What is written has been read into the same buffer, from the same position. -/
def Faithful : List Moved → Prop
  | [] => True
  | e :: l => Faithful l ∧ (e.read = false → ∀ p, e.Covers p →
      ∃ r ∈ l, r.read = true ∧ r.data = e.data ∧ r.Covers p)

/-- No write is longer than a read into its buffer. -/
def Bounded (l : List Moved) : Prop :=
  ∀ r ∈ l, ∀ w ∈ l, r.read = true → w.read = false → w.data = r.data → w.len ≤ r.len

/-- A buffer is read into once, and written after that, to where it was read from. -/
def Ordered : List Moved → Prop
  | [] => True
  | e :: l => Ordered l ∧ (e.read = true → ∀ x ∈ l, x.data ≠ e.data) ∧
      (e.read = false → ∃ r ∈ l, r.read = true ∧ r.data = e.data ∧ r.offset = e.offset)

variable {l : List Moved} {e r r' : Moved}

theorem Ordered.unique (h : Ordered l) (hr : r ∈ l) (hr' : r' ∈ l) (h1 : r.read = true)
    (h2 : r'.read = true) (hd : r.data = r'.data) : r = r' := by
  induction l with
  | nil => cases hr
  | cons e l ih =>
    obtain ⟨hl, hnew, -⟩ := h
    rcases List.mem_cons.mp hr with he | hm
    · rcases List.mem_cons.mp hr' with he' | hm'
      · exact he.trans he'.symm
      · exact absurd hd.symm (he ▸ hnew (he ▸ h1) r' hm')
    · rcases List.mem_cons.mp hr' with he' | hm'
      · exact absurd hd (he' ▸ hnew (he' ▸ h2) r hm)
      · exact ih hl hm hm'

theorem Bounded.tail (h : Bounded (e :: l)) : Bounded l := fun r hr w hw =>
  h r (List.mem_cons_of_mem e hr) w (List.mem_cons_of_mem e hw)

theorem Bounded.cons (h : Bounded l)
    (h1 : e.read = true → ∀ w ∈ l, w.read = false → w.data = e.data → w.len ≤ e.len)
    (h2 : e.read = false → ∀ r ∈ l, r.read = true → e.data = r.data → e.len ≤ r.len) :
    Bounded (e :: l) := by
  intro r hr w hw hread hwrite hd
  rcases List.mem_cons.mp hr with rfl | hmr
  · rcases List.mem_cons.mp hw with rfl | hmw
    · cases hread.symm.trans hwrite
    · exact h1 hread w hmw hwrite hd
  · rcases List.mem_cons.mp hw with rfl | hmw
    · exact h2 hwrite r hmr hread hd
    · exact h r hmr w hmw hread hwrite hd

/-- A write is covered by a read from its offset if it is no longer. -/
theorem covers_iff (ho : r.offset = e.offset) :
    (∀ p, e.Covers p → r.Covers p) ↔ e.len ≤ r.len := by
  unfold Moved.Covers
  constructor
  · intro h
    by_contra hlt
    have := h (e.offset + r.len) ⟨Nat.le_add_right _ _, by omega⟩
    omega
  · rintro hle p ⟨h1, h2⟩
    exact ⟨by omega, by omega⟩

theorem Ordered.faithful_iff (h : Ordered l) : Faithful l ↔ Bounded l := by
  induction l with
  | nil => exact ⟨fun _ r hr => absurd hr List.not_mem_nil, fun _ => trivial⟩
  | cons e l ih =>
    obtain ⟨hl, hnew, hold⟩ := h
    constructor
    · rintro ⟨hf, he⟩
      refine ((ih hl).mp hf).cons (fun hr w hw _ hd => absurd hd (hnew hr w hw)) ?_
      intro hw r hr hread hd
      obtain ⟨r₀, hr₀, hread₀, hd₀, ho⟩ := hold hw
      obtain rfl : r = r₀ := hl.unique hr hr₀ hread hread₀ (hd.symm.trans hd₀.symm)
      refine (covers_iff ho).mp fun p hp => ?_
      -- the read that covers `p` is the only one into this buffer
      obtain ⟨r₁, hr₁, hread₁, hd₁, hc⟩ := he hw p hp
      obtain rfl : r = r₁ := hl.unique hr hr₁ hread hread₁ (hd.symm.trans hd₁.symm)
      exact hc
    · intro hb
      refine ⟨(ih hl).mpr hb.tail, fun hw p hp => ?_⟩
      obtain ⟨r, hr, hread, hd, ho⟩ := hold hw
      refine ⟨r, hr, hread, hd, (covers_iff ho).mpr ?_ p hp⟩
      exact hb r (List.mem_cons_of_mem e hr) e List.mem_cons_self hread hw hd.symm

end KernelMagic.Lib
