/-
  `driver_demo/proc_query/proc_demo.c`, a file of ten lines in `/proc`.

  The token that `my_seq_start` and `my_seq_next` return is the pointer to the position itself, so
  `my_seq_show` prints the position as it is when it is called. `my_seq_next` moves on also where it
  returns NULL, so a session that is started again at the end ends at once.
-/
import KernelMagic.Lib.CString
import KernelMagic.Lib.SeqFile

namespace KernelMagic.ProcQuery

open KernelMagic.Lib

/-- `my_seq_start`: whether it returns the pointer. -/
def mySeqStart (pos : Nat) : Bool := if pos ≥ 10 then false else true

/-- `my_seq_next`: the position, and whether it returns the pointer. -/
def mySeqNext (pos : Nat) : Nat × Bool :=
  let pos := pos + 1
  if pos ≥ 10 then (pos, false) else (pos, true)

/-- `my_seq_show`. -/
def mySeqShow (pos : Nat) : List UInt8 := ascii "Line " ++ ascii (toString pos) ++ ascii "\n"

/-- `my_seq_ops`; `my_seq_stop` does nothing. -/
def mySeqOps : SeqOps := ⟨mySeqStart, mySeqNext, mySeqShow⟩

/-- The lines of the file. -/
def lines : List UInt8 := ((List.range 10).map mySeqShow).flatten

theorem mySeqOps_counts : mySeqOps.Counts 10 where
  start_eq := fun p _ => by
    show mySeqStart p = decide (p < 10)
    unfold mySeqStart
    split
    · next h => exact (decide_eq_false (Nat.not_lt.mpr h)).symm
    · next h => exact (decide_eq_true (Nat.lt_of_not_le h)).symm
  next_eq := fun p _ => by
    show mySeqNext p = (p + 1, decide (p + 1 < 10))
    unfold mySeqNext
    simp only
    split
    · next h => rw [decide_eq_false (Nat.not_lt.mpr h)]
    · next h => rw [decide_eq_true (Nat.lt_of_not_le h)]

/-- **What is read.** Whatever the sizes of the reads and of the buffer, and wherever the sessions stop:
    what has been read of the file is the beginning of its ten lines, each once and in order, and a
    reader that has come to the end has read them all. -/
theorem lines_read (acts : List SeqFile.Act) (s : SeqFile.State)
    (hr : run (SeqFile.step mySeqOps) {} acts = some s) :
    s.out <+: lines ∧ (s.ended = true → s.out = lines) :=
  SeqFile.out_of_run mySeqOps_counts hr

/-- A reader with a buffer for one line, who reads it in two parts, all but the last. -/
def oneByOne : List SeqFile.Act :=
  (List.replicate 9 [.start, .show, .next, .stop, .read 5, .read 2]).flatten ++
    [.start, .show, .next, .read 7, .start]

theorem lines_oneByOne :
    ∃ s, run (SeqFile.step mySeqOps) {} oneByOne = some s ∧ s.out = lines := by
  have hrun : (run (SeqFile.step mySeqOps) {} oneByOne).map SeqFile.State.ended = some true := by
    decide +kernel
  obtain ⟨s, hs, hended⟩ := Option.map_eq_some_iff.mp hrun
  exact ⟨s, hs, (lines_read oneByOne s hs).2 hended⟩

end KernelMagic.ProcQuery
