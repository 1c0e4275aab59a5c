/-
  What the batch programs have copied when they return 0.

  The programs do not look at the length of a completion. A read that comes back short is followed by
  a write of what it has read (or, in the multi-buffer program, of the whole buffer), a failed read
  by none, and the completion of a write ends the chunk whatever its result. So the condition under
  which a return of 0 means that the file is copied is that every request completes with its full
  length (`Whole`). No call of the library has to succeed for it: a program that is refused memory or
  a submission does not return 0.

  `singleBuffer_short_read` is a run without the condition: a short read, and the second half of the
  file is missing.
-/
import KernelMagic.Batch.Invariant

namespace KernelMagic.Batch

open KernelMagic.Lib

variable {prg : Program} {source : List UInt8} {s : State}

/-- The state is sound, or the program will not return 0 any more. -/
theorem sound_or_lost (hx : prg.Exact) {acts : List Act}
    (hw : Along (step prg source) Whole (init (.regular source.length)) acts)
    (hr : run (step prg source) (init (.regular source.length)) acts = some s) :
    Inv source s ∨ Lost s := by
  have hstep : ∀ t a t', (Inv source t ∨ Lost t) → Whole t a → step prg source t a = some t' →
      Inv source t' ∨ Lost t' := by
    intro t a t' h hwa hs
    rcases h with hi | hl
    · rcases step_trans hx hi.ready hwa hs with ht | ⟨hl, -⟩
      · exact .inl (inv_step hi ht)
      · exact .inr hl
    · exact .inr (lost_step hl hwa hs)
  exact run_inv hstep (.inl (inv_init source)) hw hr

theorem Lost.not_returned (hl : Lost s) : s.pc ≠ .exit 0 := by
  intro hpc
  rcases hl with h | h | h
  · rw [hpc] at h
    cases h
  · rw [hpc] at h
    cases h
  · rcases h.pc with h | h
    · rw [hpc] at h
      cases h
    · rw [hpc] at h
      cases h

/-- **Copy.** Whatever the order of the completions, if every request completes with its full
    length, `write_cqe_recv` never fails to wait and `main` returns 0, then the destination is the
    source. -/
theorem singleBuffer_copies (source : List UInt8) (acts : List Act) (s : State)
    (hw : Along (step singleBuffer source) Whole (init (.regular source.length)) acts)
    (hr : run (step singleBuffer source) (init (.regular source.length)) acts = some s)
    (hret : s.pc = .exit 0) : s.dest = source := by
  rcases sound_or_lost singleBuffer_exact hw hr with hi | hl
  · exact (hi.exited hret).2.2.2
  · exact absurd hret hl.not_returned

/-- Two bytes, read and written in full. -/
def wholeFile : List Act :=
  [.prog {}, .prog {}, .complete 0 2, .prog {}, .prog {}, .prog {}, .complete 0 2, .prog {},
    .prog {}, .prog {}]

theorem singleBuffer_copies_two :
    ∃ s, run (step singleBuffer [7, 8]) (init (.regular 2)) wholeFile = some s ∧
      s.pc = .exit 0 ∧ s.dest = [7, 8] := by
  have hrun : (run (step singleBuffer [7, 8]) (init (.regular 2)) wholeFile).map State.pc =
      some (.exit 0) := by decide
  obtain ⟨s, hs, hpc⟩ := Option.map_eq_some_iff.mp hrun
  have h := singleBuffer_copies [7, 8] wholeFile s (by decide) hs hpc
  exact ⟨s, hs, hpc, h⟩

/-- The same two bytes, the read of which completes with 1. -/
def shortRead : List Act :=
  [.prog {}, .prog {}, .complete 0 1, .prog {}, .prog {}, .prog {}, .complete 0 1, .prog {},
    .prog {}, .prog {}]

theorem singleBuffer_short_read :
    ∃ s, run (step singleBuffer [7, 8]) (init (.regular 2)) shortRead = some s ∧
      s.pc = .exit 0 ∧ s.dest = [7] ∧ s.dest ≠ [7, 8] := by
  have hrun : (run (step singleBuffer [7, 8]) (init (.regular 2)) shortRead).map
      (fun s => (s.pc, s.dest)) = some (.exit 0, [7]) := by decide
  obtain ⟨s, hs, he⟩ := Option.map_eq_some_iff.mp hrun
  obtain ⟨hpc, hdest⟩ := Prod.mk.inj he
  exact ⟨s, hs, hpc, hdest, by rw [hdest]; decide⟩

end KernelMagic.Batch
