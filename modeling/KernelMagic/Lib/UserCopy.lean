/-
  The memory of a process as a system call finds it, and the two copies between it and the kernel.

  A load or store at an address may fault. A copy that meets no fault moves everything and returns 0.
  A copy that does meet one moves a prefix, which may be shorter than what could be moved, and
  returns the number of bytes not moved; `stop` is how far it gets. The copy into the kernel then
  fills the rest of its destination with zeros.
-/
import Mathlib

namespace KernelMagic.Lib

/-- What a load of each address gives, `none` when it faults, and where a store does not fault. -/
structure UserMem where
  load : UInt64 → Option UInt8
  writable : UInt64 → Bool

namespace UserMem

/-- The bytes at `addr`, at most `n` of them, up to the first that cannot be loaded. -/
def readable (m : UserMem) (addr : UInt64) : Nat → List UInt8
  | 0 => []
  | n + 1 =>
    match m.load addr with
    | none => []
    | some b => b :: readable m (addr + 1) n

/-- The number of bytes at `addr`, at most `n`, up to the first that cannot be stored. -/
def room (m : UserMem) (addr : UInt64) : Nat → Nat
  | 0 => 0
  | n + 1 => if m.writable addr then room m (addr + 1) n + 1 else 0

/-- The memory after `bs` has been stored at `addr`. -/
def put (m : UserMem) (addr : UInt64) (bs : List UInt8) : UserMem :=
  { m with load := fun a => match bs[(a - addr).toNat]? with
    | some b => some b
    | none => m.load a }

end UserMem

/-- `copy_from_user` of `n` bytes at `addr`: the destination, and the number of bytes not copied. -/
def copyFromUser (m : UserMem) (addr : UInt64) (n stop : Nat) : List UInt8 × Nat :=
  if (m.readable addr n).length = n then (m.readable addr n, 0)
  else
    let got := (m.readable addr n).take stop
    (got ++ List.replicate (n - got.length) 0, n - got.length)

/-- `copy_to_user` of `bs` to `addr`: the memory, and the number of bytes not copied. -/
def copyToUser (m : UserMem) (addr : UInt64) (bs : List UInt8) (stop : Nat) : UserMem × Nat :=
  if m.room addr bs.length = bs.length then (m.put addr bs, 0)
  else
    let k := min stop (m.room addr bs.length)
    (m.put addr (bs.take k), bs.length - k)

variable {m : UserMem} {addr : UInt64} {n stop : Nat} {bs : List UInt8}

theorem UserMem.length_readable_le (m : UserMem) (addr : UInt64) (n : Nat) :
    (m.readable addr n).length ≤ n := by
  induction n generalizing addr with
  | zero => exact Nat.le_refl 0
  | succ n ih =>
    unfold readable
    split
    · exact Nat.zero_le _
    · exact Nat.succ_le_succ (ih (addr + 1))

theorem UserMem.readable_take (m : UserMem) (addr : UInt64) {n k : Nat} (hn : n ≤ k) :
    (m.readable addr k).take n = m.readable addr n := by
  induction n generalizing addr k with
  | zero => exact List.take_zero
  | succ n ih =>
    obtain ⟨k, rfl⟩ : ∃ k', k = k' + 1 := ⟨k - 1, by omega⟩
    unfold readable
    cases m.load addr with
    | none => exact List.take_nil
    | some b => exact congrArg (b :: ·) (ih (addr + 1) (by omega))

/-- Behind bytes that can all be loaded a load goes on. -/
theorem UserMem.readable_add (m : UserMem) (addr : UInt64) {n : Nat} (k : Nat)
    (h : (m.readable addr n).length = n) :
    m.readable addr (n + k) = m.readable addr n ++ m.readable (addr + UInt64.ofNat n) k := by
  induction n generalizing addr with
  | zero =>
    rw [Nat.zero_add, show addr + UInt64.ofNat 0 = addr from add_zero addr]
    rfl
  | succ n ih =>
    have hstep : addr + 1 + UInt64.ofNat n = addr + UInt64.ofNat (n + 1) := by
      rw [add_assoc, UInt64.ofNat_add, add_comm (UInt64.ofNat n)]
      rfl
    cases hl : m.load addr with
    | none => simp [readable, hl] at h
    | some b =>
      have hcons (j : Nat) : m.readable addr (j + 1) = b :: m.readable (addr + 1) j := by
        rw [readable, hl]
      rw [hcons, List.length_cons, Nat.add_right_cancel_iff] at h
      rw [Nat.add_right_comm, hcons, hcons, ih (addr + 1) h, hstep, List.cons_append]

theorem UserMem.room_le (m : UserMem) (addr : UInt64) (n : Nat) : m.room addr n ≤ n := by
  induction n generalizing addr with
  | zero => exact Nat.le_refl 0
  | succ n ih =>
    unfold room
    split
    · exact Nat.succ_le_succ (ih (addr + 1))
    · exact Nat.zero_le _

theorem UserMem.readable_put_drop (m : UserMem) (addr : UInt64) (bs : List UInt8)
    (hbs : bs.length ≤ 2 ^ 64) (k : Nat) (hk : k ≤ bs.length) :
    (m.put addr bs).readable (addr + UInt64.ofNat (bs.length - k)) k =
      bs.drop (bs.length - k) := by
  induction k with
  | zero =>
    rw [Nat.sub_zero, List.drop_length]
    rfl
  | succ k ih =>
    have hlt : bs.length - (k + 1) < bs.length := by omega
    have hoff : (addr + UInt64.ofNat (bs.length - (k + 1)) - addr).toNat =
        bs.length - (k + 1) := by
      rw [add_sub_cancel_left, UInt64.toNat_ofNat']
      exact Nat.mod_eq_of_lt (by omega)
    have hnext : addr + UInt64.ofNat (bs.length - (k + 1)) + 1 =
        addr + UInt64.ofNat (bs.length - k) := by
      rw [add_assoc, show bs.length - k = bs.length - (k + 1) + 1 by omega, UInt64.ofNat_add]
      rfl
    unfold readable
    simp only [put, hoff, List.getElem?_eq_getElem hlt]
    rw [hnext, List.drop_eq_getElem_cons hlt,
      show bs.length - (k + 1) + 1 = bs.length - k by omega, ← ih (by omega)]
    rfl

/-- What has been stored can be loaded. -/
theorem UserMem.readable_put (m : UserMem) (addr : UInt64) (hbs : bs.length ≤ 2 ^ 64) :
    (m.put addr bs).readable addr bs.length = bs := by
  have h := m.readable_put_drop addr bs hbs bs.length (Nat.le_refl _)
  rw [Nat.sub_self] at h
  rwa [show addr + UInt64.ofNat 0 = addr from add_zero addr, List.drop_zero] at h

@[simp] theorem length_copyFromUser (m : UserMem) (addr : UInt64) (n stop : Nat) :
    (copyFromUser m addr n stop).1.length = n := by
  have hle := m.length_readable_le addr n
  unfold copyFromUser
  split
  · next h => exact h
  · simp only [List.length_append, List.length_replicate, List.length_take]
    omega

/-- The copy returns 0 exactly when it meets no fault. -/
theorem copyFromUser_zero_iff (m : UserMem) (addr : UInt64) (n stop : Nat) :
    (copyFromUser m addr n stop).2 = 0 ↔ (m.readable addr n).length = n := by
  have hle := m.length_readable_le addr n
  unfold copyFromUser
  split
  · next h => exact iff_of_true rfl h
  · next h =>
    simp only [List.length_take]
    omega

theorem copyFromUser_of_readable (h : (m.readable addr n).length = n) :
    copyFromUser m addr n stop = (m.readable addr n, 0) := if_pos h

/-- What the copy leaves when it meets a fault. -/
theorem copyFromUser_of_fault (h : (m.readable addr n).length ≠ n) :
    (copyFromUser m addr n stop).1 = (m.readable addr n).take stop ++
      List.replicate (n - ((m.readable addr n).take stop).length) 0 := by
  unfold copyFromUser
  rw [if_neg h]

/-- A copy that returns 0 has delivered everything. -/
theorem readable_copyToUser (hbs : bs.length ≤ 2 ^ 64)
    (h : (copyToUser m addr bs stop).2 = 0) :
    (copyToUser m addr bs stop).1.readable addr bs.length = bs := by
  have hle := m.room_le addr bs.length
  unfold copyToUser at h ⊢
  split at h
  · next hroom =>
    rw [if_pos hroom]
    exact m.readable_put addr hbs
  · next hroom =>
    simp only at h
    omega

/-! ## A block -/

/-- The bytes at `addr` and nothing else. -/
def UserMem.block (addr : UInt64) (l : List UInt8) : UserMem where
  load := fun a => l[(a - addr).toNat]?
  writable := fun a => decide ((a - addr).toNat < l.length)

theorem toNat_add_sub {addr : UInt64} {i : Nat} (hi : i < 2 ^ 64) :
    (addr + UInt64.ofNat i - addr).toNat = i := by
  rw [add_sub_cancel_left, UInt64.toNat_ofNat']
  exact Nat.mod_eq_of_lt hi

theorem add_ofNat_succ (addr : UInt64) (i : Nat) :
    addr + UInt64.ofNat i + 1 = addr + UInt64.ofNat (i + 1) := by
  rw [add_assoc, UInt64.ofNat_add]
  rfl

theorem UserMem.readable_block_drop (addr : UInt64) (l : List UInt8) (hl : l.length < 2 ^ 64)
    (n i : Nat) (hi : i ≤ l.length) :
    (block addr l).readable (addr + UInt64.ofNat i) n = (l.drop i).take n := by
  induction n generalizing i with
  | zero => exact List.take_zero.symm
  | succ n ih =>
    have hoff : (addr + UInt64.ofNat i - addr).toNat = i := toNat_add_sub (by omega)
    unfold readable
    simp only [block, hoff]
    by_cases hlt : i < l.length
    · rw [List.getElem?_eq_getElem hlt, add_ofNat_succ]
      simp only
      rw [List.drop_eq_getElem_cons hlt, List.take_succ_cons]
      exact congrArg _ (ih (i + 1) hlt)
    · rw [List.getElem?_eq_none (Nat.not_lt.mp hlt), List.drop_of_length_le (Nat.not_lt.mp hlt),
        List.take_nil]

/-- A load from the start of the block gives what is there. -/
theorem UserMem.readable_block (addr : UInt64) (l : List UInt8) (hl : l.length < 2 ^ 64)
    (n : Nat) : (block addr l).readable addr n = l.take n := by
  have h := readable_block_drop addr l hl n 0 (Nat.zero_le _)
  rwa [show addr + UInt64.ofNat 0 = addr from add_zero addr, List.drop_zero] at h

theorem UserMem.room_block_drop (addr : UInt64) (l : List UInt8) (hl : l.length < 2 ^ 64)
    (n i : Nat) (hi : i ≤ l.length) :
    (block addr l).room (addr + UInt64.ofNat i) n = min n (l.length - i) := by
  induction n generalizing i with
  | zero => simp [room]
  | succ n ih =>
    have hoff : (addr + UInt64.ofNat i - addr).toNat = i := toNat_add_sub (by omega)
    unfold room
    simp only [block, hoff, decide_eq_true_eq]
    by_cases hlt : i < l.length
    · rw [if_pos hlt, add_ofNat_succ]
      have h := ih (i + 1) hlt
      simp only [block] at h
      rw [h]
      omega
    · rw [if_neg hlt]
      omega

theorem UserMem.room_block (addr : UInt64) (l : List UInt8) (hl : l.length < 2 ^ 64) (n : Nat) :
    (block addr l).room addr n = min n l.length := by
  have h := room_block_drop addr l hl n 0 (Nat.zero_le _)
  rwa [show addr + UInt64.ofNat 0 = addr from add_zero addr, Nat.sub_zero] at h

/-- A store at the start of the block leaves a block. -/
theorem UserMem.load_put_block (addr : UInt64) (l bs : List UInt8) (hle : bs.length ≤ l.length) :
    (block addr l).put addr bs = block addr (bs ++ l.drop bs.length) := by
  have hlen : (bs ++ l.drop bs.length).length = l.length := by
    rw [List.length_append, List.length_drop]
    omega
  unfold put block
  simp only [UserMem.mk.injEq]
  refine ⟨funext fun a => ?_, funext fun a => by rw [hlen]⟩
  by_cases hlt : (a - addr).toNat < bs.length
  · rw [List.getElem?_eq_getElem hlt, List.getElem?_append_left hlt, List.getElem?_eq_getElem hlt]
  · rw [List.getElem?_eq_none (Nat.not_lt.mp hlt), List.getElem?_append_right (Nat.not_lt.mp hlt),
      List.getElem?_drop, Nat.add_sub_cancel' (Nat.not_lt.mp hlt)]

end KernelMagic.Lib
