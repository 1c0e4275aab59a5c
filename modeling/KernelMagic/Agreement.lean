/-
  The copiers of `io_uring/` agree: when every request completes with its full length and no call
  fails, the asynchronous programs leave the destination that the `fread`/`fwrite` loop leaves, in
  whatever order the completions come.

  The three programs have different control, so each is compared with the file itself, by the
  invariant of its own module; here the results are put side by side.
-/
import KernelMagic.FileUring2.Progress
import KernelMagic.Batch.Progress
import KernelMagic.Normal

namespace KernelMagic

open KernelMagic.Lib

/-- **Agreement.** There is one destination, the source content, such that without failures
    * the loop of `normal.c` ends with status 0 and this destination,
    * every run of the three asynchronous programs ends with status 0 and this destination, having
      prepared one read and one write for each chunk of 32 KiB, and
    * in every state of such a run at most 64 entries are queued, and the program finds a free one
      whenever it asks for it. -/
theorem copiers_agree (source : List UInt8) :
    ∃ dest, dest = source ∧
      Finishes (Normal.step source) (fun _ a => Normal.CallsSucceed a) Normal.init
        (fun s => s.pc = .exit 0 ∧ s.dest = dest) ∧
      Finishes (FileUring2.step source) FileUring2.Full (FileUring2.init source.length)
        (fun s => s.pc = .ret 0 ∧ s.dest = dest ∧ OneEach 32768 source.length s.posted) ∧
      (∀ prg ∈ [Batch.singleBuffer, Batch.multiBuffer],
        Finishes (Batch.step prg source) Batch.Full (Batch.init (.regular source.length))
          (fun s => s.pc = .exit 0 ∧ s.dest = dest ∧ OneEach 32768 source.length s.posted)) ∧
      (∀ acts s, Along (FileUring2.step source) FileUring2.Full (FileUring2.init source.length) acts →
        run (FileUring2.step source) (FileUring2.init source.length) acts = some s →
        s.ring.sq.length ≤ 64 ∧ FileUring2.Slot s ∧ s.pc ≠ .fault) ∧
      (∀ prg ∈ [Batch.singleBuffer, Batch.multiBuffer], ∀ acts s,
        Along (Batch.step prg source) Batch.Full (Batch.init (.regular source.length)) acts →
        run (Batch.step prg source) (Batch.init (.regular source.length)) acts = some s →
        s.ring.sq.length ≤ 64 ∧ Batch.Slot s ∧ s.pc ≠ .fault) := by
  have hexact : ∀ prg ∈ [Batch.singleBuffer, Batch.multiBuffer], prg.Exact :=
    List.forall_mem_cons.mpr
      ⟨Batch.singleBuffer_exact, List.forall_mem_singleton.mpr Batch.multiBuffer_exact⟩
  refine ⟨source, rfl, Normal.normal_finishes source, ?_, ?_, ?_, ?_⟩
  · exact (FileUring2.copyFile_finishes source).imp fun s h => ⟨h.status, h.dest, h.posted⟩
  · intro prg hprg
    exact (Batch.batch_finishes (hexact prg hprg) source).imp
      fun s h => ⟨h.status, h.dest, h.posted⟩
  · intro acts s hf hr
    have hi := FileUring2.smooth_run hf hr
    exact ⟨hi.inv.slot.2, hi.inv.slot.1, hi.inv.noFault⟩
  · intro prg hprg acts s hf hr
    have hi := Batch.inv_run (hexact prg hprg) hf hr
    exact ⟨hi.slot.2, hi.slot.1, hi.noFault⟩

end KernelMagic
