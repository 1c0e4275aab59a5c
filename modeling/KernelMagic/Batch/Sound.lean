/-
  What holds in every run of the batch programs, whatever fails. The programs hand a record from the
  read of its chunk to the write, and free it with the last completion they take: each record that is
  live belongs to exactly one request (`Sound.owned`). That stays so when a completion is taken in the
  wrong loop, since each loop passes on or frees the record of the completion it has got.

  `owned_move` takes a relation between the requests and their records along a move, with one
  hypothesis for each way a request or its record can change.
-/
import KernelMagic.Batch.Moves

namespace KernelMagic.Batch

open KernelMagic.Lib

/-- The record of an outstanding request. -/
def dataOf (x : Req × Option Int) : Nat := x.1.data

structure Sound (s : State) : Prop where
  owned : Owned dataOf (fun _ _ => True) s.heap s.ring.outstanding
  flagOne : s.pc = .top ∨ s.pc = .submit ∨ s.pc = .last → s.flag = 1
  flagTwo : s.pc = .readRecv ∨ s.pc = .readSubmit ∨ s.pc = .writeRecv → s.flag = 2

/-- The records that have been passed to `free`. -/
def freedIn (prg : Program) (source : List UInt8) (st : Stat) (acts : List Act) : List Nat :=
  record (step prg source) (fun l s a => l ++ freeCalls s a) [] (init st) acts

variable {prg : Program} {source : List UInt8} {st : Stat} {s s' : State} {a : Act} {l : List Nat}

/-- How a move changes the requests and their records. -/
theorem owned_move {ok ok' : Req × Option Int → FileData → Prop}
    (ho : Owned dataOf ok s.heap s.ring.outstanding) (hm : Move prg source s a s')
    (hstart : ∀ b, a = .prog b → ∀ off len junk,
      ok' (⟨true, off, len, s.heap.next⟩, none) ⟨off, len, junk⟩)
    (hdone : ∀ i res q d d' dest, a = .complete i res → s.ring.inflight[i]? = some q →
      Transfer source s.dest q d res d' dest → ok (q, none) d → ok' (q, some res) d')
    (hturn : ∀ b, a = .prog b → ∀ (c : Cqe Req) d, 0 ≤ c.res → ok (c.req, some c.res) d →
      ok' (⟨false, d.offset, prg.writeLen d c.res.toNat, c.req.data⟩, none) d)
    (hkeep : ∀ x d, (∀ i res q, a = .complete i res → s.ring.inflight[i]? = some q →
      dataOf x ≠ q.data) → ok x d → ok' x d) :
    Owned dataOf ok' s'.heap s'.ring.outstanding := by
  have hprog : ∀ b, a = .prog b → ∀ P : Multiset (Req × Option Int), ∀ x ∈ P, ∀ d, ok x d →
      ok' x d := fun b hb _ x _ d => hkeep x d fun i res q ha => by
    rw [hb] at ha
    cases ha
  have hsame : ∀ b, a = .prog b → Owned dataOf ok' s.heap s.ring.outstanding := fun b hb =>
    ho.imp (hprog b hb _)
  cases hm with
  | completed i q d d' dest res ha hq hd ht =>
    obtain ⟨P, hP, hP'⟩ := IoRing.outstanding_complete hq res
    rw [hP] at ho
    simp only [hP']
    refine ho.update (c := (q, none)) hd rfl (hdone i res q d d' dest ha hq ht (ho.head hd)) ?_
    intro x hx e he
    refine hkeep x e (fun j r q' ha' hq' => ?_) he
    cases ha.symm.trans ha'
    obtain rfl : q = q' := Option.some.inj (hq.symm.trans hq')
    exact ho.not_mem hx
  | ended b pc ha hpc r hr why hfree =>
    have hout : r.outstanding = s.ring.outstanding := by
      rcases hr with rfl | rfl
      · rfl
      · exact IoRing.outstanding_submit _ _
    simp only [hout]
    exact hsame b ha
  | queued b junk ha hpc hi hopen hmore hroom =>
    simp only [IoRing.outstanding_prep]
    exact (hsame b ha).start rfl (hstart b ha _ _ _)
  | closed b junk ha hpc hi hlast hroom =>
    simp only [IoRing.outstanding_prep]
    exact (hsame b ha).start rfl (hstart b ha _ _ _)
  | submitted b ha hpc hret =>
    simp only [IoRing.outstanding_submit]
    exact hsame b ha
  | readFailed b c cs d ha hpc hi ht hcq hd hres =>
    have h := hsame b ha
    rw [IoRing.outstanding_advance hcq] at h
    exact h.retire
  | readDone b c cs d ha hpc hi ht hcq hd hres hroom =>
    have hP' := IoRing.outstanding_prep (s.ring.advance 1)
      ⟨false, d.offset, prg.writeLen d c.res.toNat, c.req.data⟩
    rw [IoRing.outstanding_advance hcq] at ho
    simp only [IoRing.advance] at hP'
    simp only [IoRing.advance, hP']
    exact ho.update_entry (c := (c.req, some c.res)) hd rfl (hturn b ha c d hres (ho.head hd))
      (hprog b ha _)
  | submittedWrites b ha hpc hret =>
    simp only [IoRing.outstanding_submit]
    exact hsame b ha
  | writeDone b c cs d ha hpc hi ht hcq hd hres =>
    have h := hsame b ha
    rw [IoRing.outstanding_advance hcq] at h
    exact h.retire
  | skipped b ha hpc hi => exact hsame b ha
  | readEnd b ha hpc hi => exact hsame b ha
  | writeStop b ha hpc hi why ht => exact hsame b ha
  | writeEnd b ha hpc hi => exact hsame b ha
  | stop b ha hpc ho => exact hsame b ha
  | again b ha hpc ho => exact hsame b ha

theorem Sound.alive (hs : Sound s) : Alive s where
  live := fun c hc => by
    rw [IoRing.pending_eq] at hc
    obtain ⟨x, hx, rfl⟩ := Multiset.mem_map.mp hc
    obtain ⟨d, hd, -⟩ := hs.owned.job x hx
    exact ⟨d, hd⟩
  flagOne := hs.flagOne
  flagTwo := hs.flagTwo

theorem sound_step (hs : Sound s) (hm : Move prg source s a s') : Sound s' := by
  refine ⟨owned_move hs.owned hm (fun _ _ _ _ _ => trivial) (fun _ _ _ _ _ _ _ _ _ _ => trivial)
    (fun _ _ _ _ _ _ => trivial) (fun _ _ _ _ => trivial), ?_, ?_⟩
  · cases hm with
    | completed i q d d' dest res ha hq hd ht => exact hs.flagOne
    | ended b pc ha hpc r hr why hfree => rcases hpc with rfl | rfl <;> simp
    | queued b junk ha hpc hi hopen hmore hroom => exact fun _ => hs.flagOne (.inl hpc)
    | closed b junk ha hpc hi hlast hroom => exact fun _ => hs.flagOne (.inl hpc)
    | skipped b ha hpc hi => exact fun _ => hs.flagOne (.inl hpc)
    | readFailed b c cs d ha hpc hi ht hcq hd hres => simp [hpc]
    | readDone b c cs d ha hpc hi ht hcq hd hres hroom => simp [hpc]
    | writeDone b c cs d ha hpc hi ht hcq hd hres => simp [hpc]
    | again b ha hpc ho => exact fun _ => hs.flagOne (.inr (.inr hpc))
    | _ => simp
  · cases hm with
    | completed i q d d' dest res ha hq hd ht => exact hs.flagTwo
    | ended b pc ha hpc r hr why hfree => rcases hpc with rfl | rfl <;> simp
    | readFailed b c cs d ha hpc hi ht hcq hd hres => exact fun _ => hs.flagTwo (.inl hpc)
    | readDone b c cs d ha hpc hi ht hcq hd hres hroom => exact fun _ => hs.flagTwo (.inl hpc)
    | readEnd b ha hpc hi => exact fun _ => hs.flagTwo (.inl hpc)
    | submittedWrites b ha hpc hret => exact fun _ => hs.flagTwo (.inr (.inl hpc))
    | writeDone b c cs d ha hpc hi ht hcq hd hres => exact fun _ => hs.flagTwo (.inr (.inr hpc))
    | _ => simp

theorem sound_init (st : Stat) : Sound (init st) where
  owned := Owned.empty _ _
  flagOne := fun _ => rfl
  flagTwo := fun h => by simp [init] at h

theorem sound_next (hs : Sound s) (h : step prg source s a = some s') : Sound s' :=
  sound_step hs (step_move hs.alive h)

/-! ## Freeing -/

theorem freed_step (hf : s.heap.Freed l) (hm : Move prg source s a s') :
    s'.heap.Freed (l ++ freeCalls s a) := by
  have hsame : freeCalls s a = [] → s.heap.Freed (l ++ freeCalls s a) := fun h => by
    rw [h, List.append_nil]
    exact hf
  cases hm with
  | completed i q d d' dest res ha hq hd ht =>
    subst ha
    rw [freeCalls_of_none rfl rfl, List.append_nil]
    exact hf.put _ _
  | ended b pc ha hpc r hr why hfree => exact hsame hfree
  | queued b junk ha hpc hi hopen hmore hroom =>
    rw [freeCalls_of_ne (by simp [hpc]) (by simp [hpc]), List.append_nil]
    exact hf.alloc _
  | closed b junk ha hpc hi hlast hroom =>
    rw [freeCalls_of_ne (by simp [hpc]) (by simp [hpc]), List.append_nil]
    exact hf.alloc _
  | readFailed b c cs d ha hpc hi ht hcq hd hres =>
    have hfree : freeCalls s a = [c.req.data] := by
      simp [freeCalls, ht, writeTakes_of_ne (a := a) (show s.pc ≠ .writeRecv by simp [hpc]), hres]
    rw [hfree]
    exact hf.free hd
  | readDone b c cs d ha hpc hi ht hcq hd hres hroom =>
    refine hsame ?_
    simp [freeCalls, ht, writeTakes_of_ne (a := a) (show s.pc ≠ .writeRecv by simp [hpc]), hres]
  | writeDone b c cs d ha hpc hi ht hcq hd hres =>
    have hfree : freeCalls s a = [c.req.data] := by
      simp [freeCalls, ht, readTakes_of_ne (a := a) (show s.pc ≠ .readRecv by simp [hpc]), hres]
    rw [hfree]
    exact hf.free hd
  | writeStop b ha hpc hi why ht =>
    refine hsame ?_
    rw [freeCalls, readTakes_of_ne (by simp [hpc])]
    cases hw : writeTakes s a with
    | none => rfl
    | some c => simp [ht c hw]
  | skipped b ha hpc hi => exact hsame (freeCalls_of_ne (by simp [hpc]) (by simp [hpc]))
  | submitted b ha hpc hret => exact hsame (freeCalls_of_ne (by simp [hpc]) (by simp [hpc]))
  | readEnd b ha hpc hi => exact hsame (freeCalls_of_none (readTakes_of_le hi) (writeTakes_of_le hi))
  | submittedWrites b ha hpc hret => exact hsame (freeCalls_of_ne (by simp [hpc]) (by simp [hpc]))
  | writeEnd b ha hpc hi => exact hsame (freeCalls_of_none (readTakes_of_le hi) (writeTakes_of_le hi))
  | stop b ha hpc ho => exact hsame (freeCalls_of_ne (by simp [hpc]) (by simp [hpc]))
  | again b ha hpc ho => exact hsame (freeCalls_of_ne (by simp [hpc]) (by simp [hpc]))

/-- No request uses a record that has been freed. -/
theorem not_freed_run {acts : List Act} (hr : run (step prg source) (init st) acts = some s) :
    ∀ p ∈ freedIn prg source st acts, ∀ c ∈ s.ring.pending, c.req.data ≠ p := by
  have hf : Sound s ∧ s.heap.Freed (freedIn prg source st acts) :=
    record_keeps (I := fun l s => Sound s ∧ s.heap.Freed l) hr ⟨sound_init st, Heap.Freed.empty⟩
      fun _ _ _ _ hi h => ⟨sound_next hi.1 h, freed_step hi.2 (step_move hi.1.alive h)⟩
  intro p hp c hc he
  obtain ⟨d, hd⟩ := hf.1.alive.live c hc
  rw [he, ((hf.2.mem p).mp hp).2] at hd
  cases hd

end KernelMagic.Batch
