/-
  What `copy_file` has copied when it returns 0.

  `Covered`: every byte before `offset` is copied or belongs to the chunk of a live record. A record
  is only freed at the end of its write, so a chunk that is no longer covered by a record is copied,
  provided the write was complete. The main loop checks that; the drain loop does not: it frees the
  record after any completion with `res ≥ 0`. `DrainsFull` is the condition on a step that makes up
  for the missing check, and `copyFile_copies` the result under it.

  `copyFile_short_drain` is a run without that condition: the last write completes short after
  `write_left` has reached 0, and `copy_file` returns 0 with the rest of the chunk missing.
-/
import KernelMagic.Lib.Transfers
import KernelMagic.FileUring2.Accounting

namespace KernelMagic.FileUring2

open KernelMagic.Lib

/-- The chunk of a record. -/
def IoData.chunk (d : IoData) : Nat × Nat := (d.firstOffset, d.firstLen)

def Covered (source : List UInt8) (s : State) : Prop :=
  ∀ p < s.offset, Copied source s.dest p ∨ Held IoData.chunk s.heap p

/-- A write that the drain loop is about to retire has been completed in full. -/
def DrainsFull (s : State) : Act → Prop
  | .complete _ _ => True
  | .prog _ => s.pc = .drain → ∀ c ∈ s.ring.cq.head?, ∀ d ∈ s.heap.cell c.req.data,
      c.res < 0 ∨ c.res.toNat = d.iov.iovLen

instance : (s : State) → (a : Act) → Decidable (DrainsFull s a)
  | _, .complete _ _ => isTrue trivial
  | s, .prog _ => inferInstanceAs (Decidable (s.pc = .drain → ∀ c ∈ s.ring.cq.head?,
      ∀ d ∈ s.heap.cell c.req.data, c.res < 0 ∨ c.res.toNat = d.iov.iovLen))

variable {source : List UInt8} {size : Nat} {s s' : State} {a : Act} {h : Heap IoData} {p : Nat}

/-- The record of a complete write may be freed. -/
theorem Covered.freed (hc : Covered source s) (hi : Inv source size s) {c : Cqe Req}
    {cs : List (Cqe Req)} {d : IoData} (hcq : s.ring.cq = c :: cs)
    (hd : s.heap.cell c.req.data = some d) (hr : c.req.read = false)
    (he : c.res.toNat = d.iov.iovLen) :
    ∀ p < s.offset, Copied source s.dest p ∨ Held IoData.chunk (s.heap.free c.req.data) p := by
  have hj := hi.ledger.flight.owned.ok_of_mem (IoRing.head_mem_pending hcq) hd
  intro p hp
  rcases hc p hp with h | h
  · exact .inl h
  · rcases h.free hd with ⟨h1, h2⟩ | h
    · exact .inl (hj.done (by rw [← hj.read, hr]) he p h1 h2)
    · exact .inr h

theorem covered_step (hi : Inv source size s) (hc : Covered source s) (hf : DrainsFull s a)
    (ht : Trans source s a s') :
    Covered source s' := by
  cases ht with
  | failed i q res ha hq hres => exact hc
  | loaded i q d res ha hq hd h0 hle hr hlen =>
    intro p hp
    rcases hc p hp with h | h
    · exact .inl h
    · exact .inr (h.put hd rfl)
  | written i q d res ha hq hd h0 hle hr =>
    obtain ⟨d₁, hd₁, hj⟩ := hi.ledger.flight.job
      (IoRing.mem_pending_of_inflight (List.mem_of_getElem? hq))
    obtain rfl : d = d₁ := Option.some.inj (hd.symm.trans hd₁)
    obtain ⟨hg, hfit, ho⟩ := hj.grab_eq hr hle
    intro p hp
    rcases hc p hp with h | h
    · refine .inl ?_
      rw [hg]
      exact h.pwrite 0 _ _ hfit
    · exact .inr h
  | queued junk hpc hne hfull hroom =>
    intro p hp
    by_cases hlt : p < s.offset
    · rcases hc p hlt with h | h
      · exact .inl h
      · exact .inr (h.alloc _)
    · exact .inr (held_alloc _ _ (by simp only [IoData.chunk]; omega) hp)
  | short c cs d hpc hw hcq hd hres hne =>
    intro p hp
    rcases hc p hp with h | h
    · exact .inl h
    · exact .inr (h.put hd rfl)
  | readDone c cs d hpc hw hcq hd hres he hr =>
    intro p hp
    rcases hc p hp with h | h
    · exact .inl h
    · exact .inr (h.put hd rfl)
  | writeDone c cs d hpc hw hcq hd hres he hr =>
    have hj := hi.ledger.flight.owned.ok_of_mem (IoRing.head_mem_pending hcq) hd
    exact hc.freed hi hcq hd (by rw [hj.read, hr]) he
  | drainDone b c cs d ha hpc hw hcq hd hres =>
    have hr := hi.drain_write (.inl hpc) (IoRing.head_mem_pending hcq)
    subst ha
    have he : c.res.toNat = d.iov.iovLen := by
      rcases hf hpc c (by rw [hcq]; rfl) d hd with h | h
      · omega
      · exact h
    exact hc.freed hi hcq hd hr he
  | _ => exact hc

/-- When `copy_file` has returned 0 no request and no record is left. -/
theorem Inv.ret_zero (hi : Inv source size s) (hpc : s.pc = .ret 0) :
    s.ring.pending = 0 ∧ (∀ p, s.heap.cell p = none) ∧ s.offset = size := by
  obtain ⟨hin, -⟩ := hi.drained (.inr hpc)
  have hp : s.ring.pending = 0 := by
    have hw := hi.ledger.writes
    rw [hi.exited hpc] at hw
    apply Multiset.eq_zero_of_forall_notMem
    intro c hc
    have hr := hi.drain_write (.inr hpc) hc
    exact Multiset.countP_eq_zero.mp hw.symm c hc hr
  have htot := hi.total
  refine ⟨hp, fun p => ?_, by omega⟩
  cases hd : s.heap.cell p with
  | none => rfl
  | some d =>
    obtain ⟨c, hc, -⟩ := hi.ledger.flight.owned.live p d hd
    rw [hp] at hc
    exact absurd hc (Multiset.notMem_zero c)

/-- Then what is covered is copied. -/
theorem Inv.dest_eq (hi : Inv source source.length s) (hc : Covered source s)
    (hpc : s.pc = .ret 0) : s.dest = source := by
  obtain ⟨-, hnone, hoff⟩ := hi.ret_zero hpc
  refine eq_of_copied hi.ledger.flight.dest_le fun p hp => ?_
  rcases hc p (by omega) with h | ⟨q, d, hd, -⟩
  · exact h
  · rw [hnone q] at hd
    cases hd

/-- **Copy.** Whatever the order and the results of the completions, if every submit takes all
    queued requests, every write that the drain loop retires has been completed in full, and
    `copy_file` returns 0, then the destination is the source. -/
theorem copyFile_copies (source : List UInt8) (acts : List Act) (s : State)
    (hsub : ∀ a ∈ acts, a.SubmitsAll)
    (hdrain : Along (step source) DrainsFull (init source.length) acts)
    (hr : run (step source) (init source.length) acts = some s) (hret : s.pc = .ret 0) :
    s.dest = source := by
  have hstep : ∀ t a t', (Inv source source.length t ∧ Covered source t) →
      (a.SubmitsAll ∧ DrainsFull t a) → step source t a = some t' →
      Inv source source.length t' ∧ Covered source t' := by
    rintro t a t' ⟨hi, hc⟩ ⟨ha, hf⟩ hs
    have ht := step_trans hi.ready ha hs
    exact ⟨inv_step hi ht, covered_step hi hc hf ht⟩
  have hcov₀ : Covered source (init source.length) := fun p hp => absurd hp (Nat.not_lt_zero p)
  have hsub' : Along (step source) (fun _ a => a.SubmitsAll) (init source.length) acts :=
    along_of_forall (fun _ _ h => h) _ _ hsub
  obtain ⟨hi, hc⟩ := run_inv hstep ⟨inv_init source _, hcov₀⟩ (hsub'.and hdrain) hr
  exact hi.dest_eq hc hret

/-- Two bytes: read short and read on, then written in full. -/
def resumed : List Act :=
  [.prog {}, .prog {}, .prog {}, .prog {}, .complete 0 1, .prog {}, .complete 0 1, .prog {},
    .prog {}, .prog {}, .complete 0 2, .prog {}, .prog {}]

theorem copyFile_copies_resumed :
    ∃ s, run (step [7, 8]) (init 2) resumed = some s ∧ s.pc = .ret 0 ∧ s.dest = [7, 8] := by
  have hrun : (run (step [7, 8]) (init 2) resumed).map State.pc = some (.ret 0) := by decide
  obtain ⟨s, hs, hpc⟩ := Option.map_eq_some_iff.mp hrun
  have h := copyFile_copies [7, 8] resumed s (by simp [resumed, Act.SubmitsAll]) (by decide) hs hpc
  exact ⟨s, hs, hpc, h⟩

/-- The same two bytes, the write of which completes short in the drain loop. -/
def shortDrain : List Act :=
  [.prog {}, .prog {}, .prog {}, .prog {}, .complete 0 2, .prog {}, .prog {}, .prog {},
    .complete 0 1, .prog {}, .prog {}]

theorem copyFile_short_drain :
    (∀ a ∈ shortDrain, a.SubmitsAll) ∧ ∃ s, run (step [7, 8]) (init 2) shortDrain = some s ∧
      s.pc = .ret 0 ∧ s.dest = [7] ∧ s.dest ≠ [7, 8] := by
  have hrun : (run (step [7, 8]) (init 2) shortDrain).map (fun s => (s.pc, s.dest)) =
      some (.ret 0, [7]) := by decide
  obtain ⟨s, hs, he⟩ := Option.map_eq_some_iff.mp hrun
  obtain ⟨hpc, hdest⟩ := Prod.mk.inj he
  exact ⟨by simp [shortDrain, Act.SubmitsAll], s, hs, hpc, hdest, by rw [hdest]; decide⟩

end KernelMagic.FileUring2
