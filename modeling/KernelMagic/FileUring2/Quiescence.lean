/-
  Waiting with nothing outstanding. `copy_file` counts its requests instead of keeping them, and it
  waits whenever there is something left to write: in the main loop once in each turn, in the drain
  loop once for each write. `Inv` says that the counters are those of the pending requests, so the
  drain loop waits for as many completions as there are. In the main loop `write_left` is what is not
  yet read: with nothing pending all of it is still to be queued, and the fill loop before the wait
  would have queued a chunk of it, unless `malloc` has failed.

  The calls of `free` are kept as a record beside the run (`freedIn`). `Heap.Freed` says that it holds
  the dead records, each once.
-/
import KernelMagic.FileUring2.Submits
import KernelMagic.FileUring2.Copy

namespace KernelMagic.FileUring2

open KernelMagic.Lib

/-- The program waits in its next step: for the first completion of a turn of the main loop, or for a
    write in the drain loop. -/
def Waits (s : State) : Prop :=
  (s.pc = .comp ∧ s.writeLeft ≠ 0 ∧ s.gotComp = false) ∨ (s.pc = .drain ∧ s.writes ≠ 0)

/-- `queue_read` is called with no request under way, and `malloc` returns NULL. -/
structure Starves (s : State) (b : Answers) : Prop where
  pc : s.pc = .fill
  more : s.insize ≠ 0
  reads : s.reads = 0
  writes : s.writes = 0
  malloc : b.malloc = none

/-- The records that have been passed to `free`. -/
def freedIn (source : List UInt8) (size : Nat) (acts : List Act) : List Nat :=
  record (step source) (fun l s a => l ++ freeCalls s a) [] (init size) acts

section Step

variable {source : List UInt8} {size : Nat} {s s' : State} {a : Act} {l : List Nat}

/-! ## Waiting -/

/-- After a completion by the kernel something is pending. -/
theorem prog_of_pending_zero (hi : Inv source size s) (h : step source s a = some s')
    (hp : s'.ring.pending = 0) : ∃ b, a = .prog b := by
  cases a with
  | prog b => exact ⟨b, rfl⟩
  | complete i res =>
    obtain ⟨q, d, d', dest, hq, hd, ht, rfl⟩ := kernelStep_cases hi.ready.live h
    obtain ⟨P, -, hP'⟩ := IoRing.pending_complete hq res
    rw [hP'] at hp
    exact absurd hp Multiset.cons_ne_zero

/-- With nothing pending the counters are 0 and `write_left` is what is still to be queued. -/
theorem Inv.idle (hi : Inv source size s) (hp : s.ring.pending = 0) :
    s.reads = 0 ∧ s.writes = 0 ∧ s.writeLeft = s.insize ∧ s.ring.sq = [] := by
  have hr := hi.ledger.reads
  have hw := hi.ledger.writes
  have hl := hi.left
  have hle := IoRing.length_sq_le_card s.ring
  rw [hp] at hr hw hl hle
  refine ⟨UInt64.toNat_inj.mp hr, UInt64.toNat_inj.mp hw, ?_, ?_⟩
  · simpa [loadOf, readJobs] using hl
  · exact List.eq_nil_of_length_eq_zero (Nat.le_zero.mp hle)

/-- The step that enters the completion loop with nothing pending. -/
theorem skipped_of_idle (hi : Inv source size s) {b : Answers} (ht : Trans source s (.prog b) s')
    (hpc : s'.pc = .comp) (hg : s'.gotComp = false) (hp : s'.ring.pending = 0) :
    s.pc = .submit ∧ s' = { s with pc := .comp, gotComp := false } := by
  cases ht with
  | skipped hs hh => exact ⟨hs, rfl⟩
  | submitted hs hh =>
    -- the turn has queued a read
    have hsub := IoRing.pending_submit_all s.ring
    rw [IoRing.submit_all] at hsub
    have hsq := (hi.idle (hsub.symm.trans hp)).2.2.2
    have hfresh := hi.fresh (.inr hs)
    rw [hsq, List.length_nil, Nat.add_zero] at hfresh
    exact absurd (UInt64.toNat_inj.mp hfresh) hh
  | failed i q res ha hq hres => cases ha
  | loaded i q d res ha hq hd h0 hle hr hlen => cases ha
  | written i q d res ha hq hd h0 hle hr => cases ha
  | queued junk hs hne hfull hroom => cases hs.symm.trans hpc
  | drainDone b c cs d ha hs hw hcq hd hres => cases hs.symm.trans hpc
  | _ => first | cases hpc | cases hg

/-- The step that ends the fill loop with nothing pending and something left to write. -/
theorem starves_of_idle (hi : Inv source size s) {b : Answers} (ht : Trans source s (.prog b) s')
    (hpc : s'.pc = .submit) (hw : s'.writeLeft ≠ 0) (hp : s'.ring.pending = 0) : Starves s b := by
  cases ht with
  | filled hs why =>
    obtain ⟨hr, hwr, hleft, hsq⟩ := hi.idle hp
    simp only at hw
    refine ⟨hs, by omega, hr, hwr, ?_⟩
    rcases why with h | h | h | h
    · omega
    · rw [hr, hwr] at h
      exact absurd h (by decide)
    · rw [hsq, hi.entries] at h
      exact absurd h (by decide)
    · simpa [Act.Allocates] using h
  | failed i q res ha hq hres => cases ha
  | loaded i q d res ha hq hd h0 hle hr hlen => cases ha
  | written i q d res ha hq hd h0 hle hr => cases ha
  | queued junk hs hne hfull hroom => cases hs.symm.trans hpc
  | drainDone b c cs d ha hs hw hcq hd hres => cases hs.symm.trans hpc
  | again c cs d hs hw hcq hd hres => cases hs.symm.trans hpc
  | short c cs d hs hw hcq hd hres hne => cases hs.symm.trans hpc
  | readDone c cs d hs hw hcq hd hres he hr => cases hs.symm.trans hpc
  | writeDone c cs d hs hw hcq hd hres he hr => cases hs.symm.trans hpc
  | _ => cases hpc

/-- The last step of a run that has nothing pending at its end. -/
theorem last_of_idle {acts : List Act} (hsub : ∀ a ∈ acts, a.SubmitsAll)
    (hr : run (step source) (init size) acts = some s) (hp : s.ring.pending = 0)
    (hpc : s.pc ≠ .outer) :
    ∃ pre b u, acts = pre ++ [.prog b] ∧ (∀ a ∈ pre, a.SubmitsAll) ∧
      run (step source) (init size) pre = some u ∧ Inv source size u ∧
      Trans source u (.prog b) s := by
  rcases List.eq_nil_or_concat acts with rfl | ⟨pre, a, rfl⟩
  · cases hr
    exact absurd rfl hpc
  rw [List.concat_eq_append] at hsub hr
  obtain ⟨u, hu, hs⟩ := run_snoc_eq_some.mp hr
  have hpre : ∀ a ∈ pre, a.SubmitsAll := fun a ha => hsub a (List.mem_append_left _ ha)
  have hi := inv_run hpre hu
  have ha : a.SubmitsAll := hsub a (List.mem_append_right _ List.mem_cons_self)
  obtain ⟨b, rfl⟩ := prog_of_pending_zero hi hs hp
  exact ⟨pre, b, u, List.concat_eq_append, hpre, hu, hi, step_trans hi.ready ha hs⟩

/-- Nothing is queued where the program waits. -/
theorem Waits.pending_zero (hw : Waits s) (hi : Inv source size s) (hin : s.ring.inflight = [])
    (hcq : s.ring.cq = []) : s.ring.pending = 0 := by
  have hsq : s.ring.sq = [] := by
    rcases hw with ⟨hpc, -⟩ | ⟨hpc, -⟩ <;> exact hi.flushed (by simp [hpc]) (by simp [hpc])
  simp [IoRing.pending, hsq, hin, hcq]

/-- A wait with nothing pending comes two steps after a failed allocation. -/
theorem starved_of_waits {acts : List Act} (hsub : ∀ a ∈ acts, a.SubmitsAll)
    (hr : run (step source) (init size) acts = some s) (hw : Waits s) (hp : s.ring.pending = 0) :
    ∃ pre b b' u, acts = pre ++ [.prog b, .prog b'] ∧
      run (step source) (init size) pre = some u ∧ Starves u b := by
  rcases hw with ⟨hpc, hleft, hg⟩ | ⟨hpc, hne⟩
  · obtain ⟨pre', b', u', rfl, hsub', hu', hi', ht'⟩ := last_of_idle hsub hr hp (by simp [hpc])
    obtain ⟨hpc', rfl⟩ := skipped_of_idle hi' ht' hpc hg hp
    obtain ⟨pre, b, u, rfl, -, hu, hi, ht⟩ := last_of_idle hsub' hu' hp (by simp [hpc'])
    exact ⟨pre, b, b', u, by simp, hu, starves_of_idle hi ht hpc' hleft hp⟩
  · exact absurd ((inv_run hsub hr).idle hp).2.1 hne

/-! ## Freeing -/

theorem freed_step (hf : s.heap.Freed l) (hm : Move source s a s') :
    s'.heap.Freed (l ++ freeCalls s a) := by
  cases hm with
  | completed i q d d' dest res ha hq hd ht =>
    subst ha
    rw [freeCalls, List.append_nil]
    exact hf.put _ _
  | moved pc had g hctl =>
    rw [hctl.freeCalls_eq, List.append_nil]
    exact hf
  | queued junk hpc hi hfull hroom =>
    rw [freeCalls_of_taken (by simp [hpc]) (taken_of_ne (by simp [hpc])), List.append_nil]
    exact hf.alloc _
  | submitted b ha hpc hh hret =>
    rw [freeCalls_of_taken (by simp [hpc]) (taken_of_ne (by simp [hpc])), List.append_nil]
    exact hf
  | submitFailed b ha hpc hh hret =>
    rw [freeCalls_of_taken (by simp [hpc]) (taken_of_ne (by simp [hpc])), List.append_nil]
    exact hf
  | again b c cs d ha hpc ht hcq hd hres =>
    rw [freeCalls_of_taken_eq hpc ht hd, if_neg (by simp [hres, eagain]), List.append_nil]
    exact hf
  | short b c cs d ha hpc ht hcq hd hres hne =>
    rw [freeCalls_of_taken_eq hpc ht hd, if_neg (by simp [hne]), List.append_nil]
    exact hf.put _ _
  | readDone b c cs d ha hpc ht hcq hd hres he hr =>
    rw [freeCalls_of_taken_eq hpc ht hd, if_neg (by simp [hr]), List.append_nil]
    exact hf.put _ _
  | writeDone c cs d hpc ht hcq hd hres he hr =>
    rw [freeCalls_of_taken_eq hpc ht hd, if_pos ⟨hres, he, hr⟩]
    exact hf.free hd
  | drainDone b c cs d ha hpc hw herr hcq hd hres =>
    subst ha
    have hfree : freeCalls s (.prog b) = [c.req.data] := by simp [freeCalls, hpc, hw, herr, hcq, hres]
    rw [hfree]
    exact hf.free hd

theorem freed_run {acts : List Act} (hr : run (step source) (init size) acts = some s) :
    s.heap.Freed (freedIn source size acts) :=
  (record_keeps (I := fun l s => Sound source s ∧ s.heap.Freed l) hr
    ⟨sound_init source size, Heap.Freed.empty⟩
    fun _ _ _ _ hi h => ⟨sound_next hi.1 h, freed_step hi.2 (step_move hi.1.alive h)⟩).2

/-- **Quiescence.** In every run of `copy_file` in which the submits take all queued requests: it waits
    with no request outstanding only where `queue_read` has just failed to allocate with none under
    way; the records passed to `free` are those that are no longer there, each once; when it has
    returned 0 no request is outstanding and each record that was allocated is gone and has been freed
    once; and no request uses a record that has been freed. -/
theorem copyFile_quiescent (source : List UInt8) (size : Nat) (acts : List Act) (s : State)
    (hsub : ∀ a ∈ acts, a.SubmitsAll) (hr : run (step source) (init size) acts = some s) :
    (Waits s → s.ring.inflight = [] → s.ring.cq = [] → ∃ pre b b' u, acts = pre ++ [.prog b, .prog b'] ∧
      run (step source) (init size) pre = some u ∧ Starves u b) ∧
    s.heap.Freed (freedIn source size acts) ∧
    (s.pc = .ret 0 → s.ring.pending = 0 ∧
      ∀ p < s.heap.next, s.heap.cell p = none ∧ (freedIn source size acts).count p = 1) ∧
    ∀ p ∈ freedIn source size acts, ∀ c ∈ s.ring.pending, c.req.data ≠ p := by
  have hi := inv_run hsub hr
  have hf := freed_run hr
  refine ⟨fun hw hin hcq => ?_, hf, fun hpc => ?_, fun p hp c hc he => ?_⟩
  · exact starved_of_waits hsub hr hw (hw.pending_zero hi hin hcq)
  · obtain ⟨hpend, hnone, -⟩ := hi.ret_zero hpc
    exact ⟨hpend, fun p hp => ⟨hnone p, hf.count_eq_one hp (hnone p)⟩⟩
  · obtain ⟨d, hd⟩ := hi.ready.live c hc
    rw [he, ((hf.mem p).mp hp).2] at hd
    cases hd

/-- Two bytes, and no memory. -/
def starved : List Act := [.prog {}, .prog { malloc := none }, .prog {}]

/-- Two bytes that are copied, and two for which there is no memory. -/
theorem copyFile_quiescent_resumed :
    (∃ s, run (step [7, 8]) (init 2) resumed = some s ∧ s.ring.pending = 0 ∧
      (freedIn [7, 8] 2 resumed).count 0 = 1) ∧
    ∃ s, run (step [7, 8]) (init 2) starved = some s ∧ Waits s ∧ s.ring.inflight = [] ∧
      s.ring.cq = [] ∧
      ∃ pre b b' u, starved = pre ++ [.prog b, .prog b'] ∧
        run (step [7, 8]) (init 2) pre = some u ∧ Starves u b := by
  constructor
  · have hrun : (run (step [7, 8]) (init 2) resumed).map (fun s => (s.pc, s.heap.next)) =
        some (.ret 0, 1) := by decide
    obtain ⟨s, hs, he⟩ := Option.map_eq_some_iff.mp hrun
    obtain ⟨hpc, hnext⟩ := Prod.mk.inj he
    have h := copyFile_quiescent [7, 8] 2 resumed s (by simp [resumed, Act.SubmitsAll]) hs
    obtain ⟨hpend, hcount⟩ := h.2.2.1 hpc
    exact ⟨s, hs, hpend, (hcount 0 (by rw [hnext]; decide)).2⟩
  · have hrun : (run (step [7, 8]) (init 2) starved).map (fun s =>
        (s.pc, s.writeLeft, s.gotComp, s.ring)) = some (.comp, 2, false, { entries := depth }) := by
      decide
    obtain ⟨s, hs, he⟩ := Option.map_eq_some_iff.mp hrun
    simp only [Prod.mk.injEq] at he
    obtain ⟨hpc, hleft, hgot, hring⟩ := he
    have hw : Waits s := .inl ⟨hpc, by rw [hleft]; decide, hgot⟩
    have hin : s.ring.inflight = [] := by rw [hring]
    have hcq : s.ring.cq = [] := by rw [hring]
    have h := copyFile_quiescent [7, 8] 2 starved s (by simp [starved, Act.SubmitsAll]) hs
    exact ⟨s, hs, hw, hin, hcq, h.1 hw hin hcq⟩

end Step

end KernelMagic.FileUring2
