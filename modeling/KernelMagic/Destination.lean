/-
  The destination of `file_uring2.c` and `file_uring_single_buffer.c` in runs that go wrong.

  Neither copy need be complete when the program returns 0: `copy_file` may retire a write that was short
  and read from what a failed submit has left, and the single-buffer program does not look at the length
  of a write at all. But what is written is always a piece of the source at its own position, so in every
  state of every run the destination is filled from the source: a byte that a write has reached is right,
  the others are still missing, and a byte that is right stays so.
-/
import KernelMagic.Lib.Sparse
import KernelMagic.FileUring2.Submits
import KernelMagic.FileUring2.Copy
import KernelMagic.Batch.Provenance
import KernelMagic.Batch.Copy

namespace KernelMagic

open KernelMagic.Lib

namespace FileUring2

variable {source : List UInt8} {size : Nat} {s s' : State} {a : Act}

/-- The position and the length of what the kernel writes in this step. -/
def wrote (s : State) : Act → List (Nat × Nat)
  | .complete i res => (s.ring.inflight[i]?.toList.filter fun q => !q.read && decide (0 ≤ res)).map
      fun q => (q.offset, res.toNat)
  | .prog _ => []

/-- The writes of a run, the latest first. -/
def wroteIn (source : List UInt8) (size : Nat) (acts : List Act) : List (Nat × Nat) :=
  record (step source) (fun l s a => wrote s a ++ l) [] (init size) acts

theorem dest_prog (hs : Sound source s) {b : Answers} (h : step source s (.prog b) = some s') :
    s'.dest = s.dest := by
  cases step_move hs.alive h with
  | completed i q d d' dest res ha => cases ha
  | _ => rfl

/-- All that a step of `copy_file` can do to the destination. -/
theorem fill_next (hs : Sound source s) (h : step source s a = some s') :
    Fill 0 source s.dest (wrote s a) s'.dest := by
  cases a with
  | prog b =>
    rw [dest_prog hs h]
    exact .skip
  | complete i res =>
    obtain ⟨q, d, d', dest, hq, hd, ht, rfl⟩ := kernelStep_cases hs.alive.live h
    obtain ⟨d₁, hd₁, hj⟩ := hs.flight.job (IoRing.mem_pending_of_inflight (List.mem_of_getElem? hq))
    obtain rfl : d = d₁ := Option.some.inj (hd.symm.trans hd₁)
    simp only [wrote, hq, Option.toList_some]
    cases ht with
    | failed hres =>
      have h0 : ¬ 0 ≤ res := by omega
      simp only [List.filter_singleton, h0, decide_false, Bool.and_false]
      exact .skip
    | loaded h0 hle hr hlen =>
      simp only [List.filter_singleton, hr, Bool.not_true, Bool.false_and]
      exact .skip
    | written h0 hle hr =>
      obtain ⟨hg, hfit, -⟩ := hj.grab_eq hr hle
      simp only [List.filter_singleton, hr, h0, Bool.not_false, decide_true, Bool.and_true]
      rw [hg]
      exact .piece q.offset res.toNat fun _ => hfit

/-- Copied bytes stay. -/
theorem copied_run (hs : Sound source s) {acts : List Act}
    (hr : run (step source) s acts = some s') {p : Nat} (hp : Copied source s.dest p) :
    Copied source s'.dest p :=
  (run_keeps (I := fun s => Sound source s ∧ Copied source s.dest p) hr ⟨hs, hp⟩
    fun _ _ _ hi h => ⟨sound_next hi.1 h, (fill_next hi.1 h).copied hi.2⟩).2

/-- **No wrong byte.** In every state that a run of `copy_file` reaches, whatever the order and the results
    of the completions, whatever the submits and the waits do, and whatever size the file has been taken
    for, each byte of the destination that one of its writes has reached is the one of the source, and
    each other byte lies in a gap in front of a write; and what is copied is not lost in any run from
    there. -/
theorem copyFile_destination (source : List UInt8) (size : Nat) (acts : List Act) (s : State)
    (hr : run (step source) (init size) acts = some s) :
    Sparse 0 source (wroteIn source size acts) s.dest ∧ ∀ (acts' : List Act) (s' : State),
      run (step source) s acts' = some s' → ∀ p, Copied source s.dest p → Copied source s'.dest p := by
  have hkept : Sound source s ∧ Sparse 0 source (wroteIn source size acts) s.dest :=
    record_keeps (I := fun l s => Sound source s ∧ Sparse 0 source l s.dest) hr
      ⟨sound_init source size, sparse_nil 0 source⟩
      fun _ _ _ _ hi h => ⟨sound_next hi.1 h, (fill_next hi.1 h).sparse hi.2⟩
  exact ⟨hkept.2, fun acts' s' hr' p hp => copied_run hkept.1 hr' hp⟩

/-- The first of two bytes is written, and the drain loop goes on as if both were. -/
theorem destination_shortDrain :
    ∃ s, run (step [7, 8]) (init 2) shortDrain = some s ∧ s.pc = .ret 0 ∧ s.dest = [7] ∧
      wroteIn [7, 8] 2 shortDrain = [(0, 1)] ∧ Sparse 0 [7, 8] (wroteIn [7, 8] 2 shortDrain) s.dest := by
  have hrun : (run (step [7, 8]) (init 2) shortDrain).map (fun s => (s.pc, s.dest)) =
      some (.ret 0, [7]) := by decide
  obtain ⟨s, hs, he⟩ := Option.map_eq_some_iff.mp hrun
  obtain ⟨hpc, hdest⟩ := Prod.mk.inj he
  exact ⟨s, hs, hpc, hdest, by decide, (copyFile_destination [7, 8] 2 shortDrain s hs).1⟩

end FileUring2

namespace Batch

variable {source : List UInt8} {st : Stat} {s s' : State} {a : Act} {l : List Moved}

/-- The positions and the lengths of the writes of a log. -/
def wrote (l : List Moved) : List (Nat × Nat) :=
  (l.filter fun e => !e.read).map fun e => (e.offset, e.len)

theorem wrote_append (l l' : List Moved) : wrote (l ++ l') = wrote l ++ wrote l' := by
  unfold wrote
  rw [List.filter_append, List.map_append]

/-- All that a step of the single-buffer program can do to the destination. -/
theorem fill_next (hs : Sound s) (ht : Traced singleBuffer source l s)
    (h : step singleBuffer source s a = some s') :
    Fill 0 source s.dest (wrote (moved s a).toList) s'.dest := by
  cases a with
  | prog b =>
    have hdest : s'.dest = s.dest := by
      cases step_move hs.alive h with
      | completed i q d d' dest res ha => cases ha
      | _ => rfl
    rw [hdest]
    exact .skip
  | complete i res =>
    cases step_move hs.alive h with
    | completed j q d d' dest res' ha hq hd htr =>
      cases ha
      obtain ⟨P, hP, -⟩ := IoRing.outstanding_complete hq res
      have howned := ht.owned
      rw [hP] at howned
      have hj := howned.head hd
      rw [moved_complete hq]
      cases htr with
      | failed hres =>
        rw [if_neg (by omega)]
        exact .skip
      | loaded h0 hle hr hlen =>
        rw [if_pos h0, hr]
        exact .skip
      | written h0 hle hr =>
        obtain ⟨r, hf⟩ := hj.filled (.inl hr)
        have hlen : q.len ≤ r := hf.len singleBuffer_careful hr
        have hload : Loaded source d.buf d.offset (0 + res.toNat) := hf.loaded.mono (by omega)
        have ho : q.offset = d.offset := hj.offset
        rw [if_pos h0, hr, ho]
        exact hload.fill 0 s.dest
    | _ => contradiction

/-- The log of a run is in order, and each step fills the destination. -/
theorem traced_next (hi : Sound s ∧ Traced singleBuffer source l s)
    (h : step singleBuffer source s a = some s') :
    (Sound s' ∧ Traced singleBuffer source ((moved s a).toList ++ l) s') ∧
      Fill 0 source s.dest (wrote (moved s a).toList) s'.dest := by
  obtain ⟨hs, ht⟩ := hi
  exact ⟨⟨sound_next hs h, traced_step ht (step_move hs.alive h)⟩, fill_next hs ht h⟩

/-- The same of the single-buffer program, whatever the reads, the writes and the waits return. -/
theorem singleBuffer_destination (source : List UInt8) (st : Stat) (acts : List Act) (s : State)
    (hr : run (step singleBuffer source) (init st) acts = some s) :
    Sparse 0 source (wrote (movedIn singleBuffer source st acts)) s.dest ∧
      ∀ (acts' : List Act) (s' : State), run (step singleBuffer source) s acts' = some s' →
        ∀ p, Copied source s.dest p → Copied source s'.dest p := by
  have hkept : (Sound s ∧ Traced singleBuffer source (movedIn singleBuffer source st acts) s) ∧
      Sparse 0 source (wrote (movedIn singleBuffer source st acts)) s.dest := by
    refine record_keeps (I := fun l s => (Sound s ∧ Traced singleBuffer source l s) ∧
      Sparse 0 source (wrote l) s.dest) hr
      ⟨⟨sound_init st, traced_init singleBuffer source st⟩, sparse_nil 0 source⟩
      fun l s a s' hi h => ?_
    obtain ⟨hi', hfill⟩ := traced_next hi.1 h
    refine ⟨hi', ?_⟩
    rw [wrote_append]
    exact hfill.sparse hi.2
  refine ⟨hkept.2, fun acts' s' hr' p hp => ?_⟩
  refine (run_keeps (I := fun s => (∃ l, Sound s ∧ Traced singleBuffer source l s) ∧
    Copied source s.dest p) hr' ⟨⟨_, hkept.1⟩, hp⟩ fun s a s' hi h => ?_).2
  obtain ⟨⟨l, hl⟩, hcopied⟩ := hi
  obtain ⟨hi', hfill⟩ := traced_next hl h
  exact ⟨⟨_, hi'⟩, hfill.copied hcopied⟩

/-- A read of one byte of two, and its write. -/
theorem destination_shortRead :
    ∃ s, run (step singleBuffer [7, 8]) (init (.regular 2)) shortRead = some s ∧ s.dest = [7] ∧
      wrote (movedIn singleBuffer [7, 8] (.regular 2) shortRead) = [(0, 1)] ∧
      Sparse 0 [7, 8] (wrote (movedIn singleBuffer [7, 8] (.regular 2) shortRead)) s.dest := by
  have hrun : (run (step singleBuffer [7, 8]) (init (.regular 2)) shortRead).map State.dest =
      some [7] := by decide
  obtain ⟨s, hs, hdest⟩ := Option.map_eq_some_iff.mp hrun
  exact ⟨s, hs, hdest, by decide, (singleBuffer_destination [7, 8] (.regular 2) shortRead s hs).1⟩

end Batch

end KernelMagic
