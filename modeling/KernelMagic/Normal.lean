/-
  The copy loop of `io_uring/normal.c`, from the two successful `fopen` calls on. One action is one
  turn of the loop; `fread` may hit an error after some bytes, which it delivers, and `fwrite` may
  write only some of what it is given. `ferror` is looked at when `fread` has delivered nothing.

  `normal_finishes`: when neither fails the loop ends with status 0 and the source copied.
-/
import KernelMagic.Lib.Machine
import KernelMagic.Lib.Bytes

namespace KernelMagic.Normal

open KernelMagic.Lib

/-- `BUF_SIZE`. -/
def bufSize : Nat := 4096

inductive Pc where
  | loop
  | exit (status : Int)
  deriving DecidableEq, Repr

/-- `pos` is the position of the source stream and `err` its error indicator. -/
structure State where
  pc : Pc
  pos : Nat
  err : Bool
  dest : List UInt8
  deriving DecidableEq, Repr

/-- `readErr` is the number of bytes after which `fread` fails, `written` what `fwrite` writes when
    that is not everything. -/
structure Answers where
  readErr : Option Nat := none
  written : Option Nat := none
  deriving DecidableEq, Repr

def init : State := ⟨.loop, 0, false, []⟩

/-- The bytes that `fread` stores in the buffer. -/
def fread (source : List UInt8) (pos : Nat) (a : Answers) : List UInt8 :=
  pread source pos (min bufSize (a.readErr.getD bufSize))

/-- The bytes of `bs` that `fwrite` writes. -/
def fwrite (bs : List UInt8) (a : Answers) : List UInt8 := bs.take (a.written.getD bs.length)

/-- One turn of the loop, with the code behind it when it is the last one. -/
def step (source : List UInt8) (s : State) (a : Answers) : Option State :=
  match s.pc with
  | .exit _ => none
  | .loop =>
    let bs := fread source s.pos a
    let s' := { s with
      pos := s.pos + bs.length
      err := s.err || a.readErr.isSome
      dest := s.dest ++ fwrite bs a }
    if bs.length = 0 then some { s' with pc := .exit (if s'.err then 1 else 0) }
    else if (fwrite bs a).length ≠ bs.length then some { s' with pc := .exit 1 }
    else some s'

/-- Neither `fread` nor `fwrite` fails. -/
def CallsSucceed (a : Answers) : Prop := a.readErr = none ∧ a.written = none

/-- Everything before the position of the source is written. -/
structure Inv (source : List UInt8) (s : State) : Prop where
  copied : s.dest = source.take s.pos
  pos_le : s.pos ≤ source.length
  err : s.err = false
  status : ∀ n, s.pc = .exit n → n = 0 ∧ s.pos = source.length

def measure (size : Nat) (s : State) : Nat :=
  (size - s.pos) + match s.pc with
    | .loop => 1
    | .exit _ => 0

variable {source : List UInt8} {s s' : State} {a : Answers}

/-- What a turn without failures does. -/
theorem step_eq (ha : CallsSucceed a) (hpc : s.pc = .loop) (herr : s.err = false) :
    step source s a = some { s with
      pos := s.pos + (pread source s.pos bufSize).length
      dest := s.dest ++ pread source s.pos bufSize
      pc := if (pread source s.pos bufSize).length = 0 then .exit 0 else .loop } := by
  have hr : fread source s.pos a = pread source s.pos bufSize := by
    unfold fread
    rw [ha.1, Option.getD_none, Nat.min_self]
  have hw : ∀ bs, fwrite bs a = bs := by
    intro bs
    unfold fwrite
    rw [ha.2, Option.getD_none, List.take_length]
  unfold step
  rw [hpc]
  simp only [hr, hw, ha.1, herr, Option.isSome_none, Bool.or_false, Bool.false_eq_true, if_false,
    ne_eq, not_true_eq_false]
  split
  · rfl
  · rw [← hpc, ← herr]

theorem step_inv (hi : Inv source s) (ha : CallsSucceed a) (h : step source s a = some s') :
    Inv source s' ∧ measure source.length s' < measure source.length s := by
  cases hpc : s.pc with
  | exit n =>
    unfold step at h
    rw [hpc] at h
    cases h
  | loop =>
    rw [step_eq ha hpc hi.err] at h
    cases h
    have hlen : (pread source s.pos bufSize).length = min bufSize (source.length - s.pos) := by
      rw [pread, List.length_take, List.length_drop]
    have hle := hi.pos_le
    have hB : bufSize = 4096 := rfl
    have htake : pread source s.pos bufSize =
        (source.drop s.pos).take (pread source s.pos bufSize).length := by
      rw [hlen, pread, List.take_eq_take_iff, List.length_drop]
      omega
    refine ⟨⟨?_, ?_, hi.err, ?_⟩, ?_⟩
    · simp only
      rw [hi.copied, List.take_add, ← htake]
    · simp only
      omega
    · intro n hn
      simp only at hn
      split at hn
      · cases hn
        exact ⟨rfl, by simp only; omega⟩
      · cases hn
    · unfold measure
      rw [hpc]
      by_cases h0 : (pread source s.pos bufSize).length = 0
      · simp only [if_pos h0]
        omega
      · simp only [if_neg h0]
        omega

/-- The loop ends with status 0 and the source copied. -/
theorem normal_finishes (source : List UInt8) :
    Finishes (step source) (fun _ a => CallsSucceed a) init
      (fun s => s.pc = .exit 0 ∧ s.dest = source) := by
  have h0 : Inv source init := ⟨rfl, Nat.zero_le _, rfl, by simp [init]⟩
  refine finishes_of_measure (measure source.length) (fun s a s' hi ha h => step_inv hi ha h) ?_ h0
  intro s hi
  cases hpc : s.pc with
  | exit n =>
    obtain ⟨rfl, hp⟩ := hi.status n hpc
    refine .inl ⟨rfl, ?_⟩
    rw [hi.copied, hp, List.take_length]
  | loop =>
    have ha : CallsSucceed {} := ⟨rfl, rfl⟩
    exact .inr ⟨{}, _, ha, step_eq ha hpc hi.err⟩

end KernelMagic.Normal
