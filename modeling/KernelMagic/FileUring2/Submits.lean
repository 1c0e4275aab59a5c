/-
  `copy_file` with no assumption on the submits, which may take some of the queued requests, or fail.

  Only the submit behind the fill loop is looked at by the program; in the other places a request that
  is not taken stays queued and goes with a later submit. The submission queue is then not empty when
  the completion loop prepares a request, but an entry is left: the request whose completion is being
  handled takes none, and with it there are at most `DEPTH`.

  `Sound` is the part of the invariant that does not depend on the submits: the pending requests own
  their records, and in the main loop the two counters count them. `resume_invariant` is what it says
  about a record that is under way.
-/
import KernelMagic.Lib.History
import KernelMagic.FileUring2.Accounting

namespace KernelMagic.FileUring2

open KernelMagic.Lib

/-! ## The invariant -/

/-- The two counters count the pending requests. -/
structure Counted (s : State) : Prop where
  reads : s.reads.toNat = readsOf s.ring.pending
  writes : s.writes.toNat = writesOf s.ring.pending
  bound : s.ring.pending.card ≤ depth

structure Sound (source : List UInt8) (s : State) : Prop where
  flight : Flight source s.heap s.ring.pending s.dest
  entries : s.ring.entries = depth
  counted : MainLoop s → Counted s
  noFault : s.pc ≠ .fault

section Step

variable {source dest : List UInt8} {size : Nat} {s s' : State} {a : Act} {q : Req} {d d' : IoData}
  {res : Int}

/-- What a completion does to the job of the request. -/
theorem JobOk.transfer (hj : JobOk source s.dest ⟨q, 0⟩ d)
    (ht : Transfer source s.dest q d res d' dest) (hle : s.dest.length ≤ source.length) :
    JobOk source dest ⟨q, res⟩ d' ∧ Gains source s.dest dest ∧ dest.length ≤ source.length := by
  cases ht with
  | failed hres => exact ⟨hj.fail hres, Gains.refl _ _, hle⟩
  | loaded h0 hn hr hlen => exact ⟨hj.store hr hn hlen, Gains.refl _ _, hle⟩
  | written h0 hn hr =>
    obtain ⟨hg, hfit, -⟩ := hj.grab_eq hr hn
    refine ⟨hj.pwrite hr hn, fun p hp => ?_, ?_⟩
    · rw [hg]
      exact hp.pwrite 0 _ _ hfit
    · refine length_pwrite_le hle ?_
      rw [length_grab]
      exact hfit

theorem Counted.card (hc : Counted s) : s.reads.toNat + s.writes.toNat = s.ring.pending.card := by
  rw [hc.reads, hc.writes, readsOf_add_writesOf]

theorem Sound.alive (hs : Sound source s) : Alive s where
  live := fun c hc => by
    obtain ⟨d, hd, -⟩ := hs.flight.job hc
    exact ⟨d, hd⟩
  room := fun hpc c cs hcq => by
    have hlt := IoRing.length_sq_lt_card hcq
    have hb := (hs.counted (.inr (.inr (.inr hpc)))).bound
    rw [hs.entries]
    omega

/-- The counters when one pending request takes the place of another of its kind. -/
theorem Counted.swap (hc : Counted s) {c c' : Cqe Req} {P : Multiset (Cqe Req)}
    (hP : s.ring.pending = c ::ₘ P) (hP' : s'.ring.pending = c' ::ₘ P)
    (hr : c'.req.read = c.req.read) (h1 : s'.reads = s.reads) (h2 : s'.writes = s.writes) :
    Counted s' := by
  have hcr := hc.reads
  have hcw := hc.writes
  have hb := hc.bound
  rw [hP, readsOf_cons] at hcr
  rw [hP, writesOf_cons] at hcw
  rw [hP, Multiset.card_cons] at hb
  refine ⟨?_, ?_, ?_⟩
  · rw [h1, hP', readsOf_cons, hr]
    exact hcr
  · rw [h2, hP', writesOf_cons, hr]
    exact hcw
  · rw [hP', Multiset.card_cons]
    exact hb

/-- A completion that the main loop takes up and queues again. -/
theorem Sound.resent (hs : Sound source s) (q : Req) (d' : IoData) (hpc : s.pc = .comp)
    {c : Cqe Req} {cs : List (Cqe Req)} (hcq : s.ring.cq = c :: cs) (hd : s.heap.cell c.req.data = some d)
    (hdata : q.data = c.req.data) (hj : JobOk source s.dest c d → JobOk source s.dest ⟨q, 0⟩ d')
    (ret : SubmitRet) (h1 : s'.heap = s.heap.put c.req.data d')
    (h2 : s'.ring = s.ring.resend q ret) (h3 : s'.dest = s.dest) (h4 : s'.pc = s.pc)
    (hcount : Counted s → s.ring.pending = c ::ₘ (s.ring.advance 1).pending →
      s'.ring.pending = ⟨q, 0⟩ ::ₘ (s.ring.advance 1).pending → JobOk source s.dest c d →
      Counted s') : Sound source s' := by
  have hP := IoRing.pending_advance hcq
  have hP' : s'.ring.pending = ⟨q, 0⟩ ::ₘ (s.ring.advance 1).pending := by
    rw [h2, IoRing.pending_resend]
  have hf := hs.flight
  rw [hP] at hf
  have hjob := hf.owned.head hd
  refine ⟨?_, ?_, fun _ => ?_, ?_⟩
  · rw [h1, h3, hP']
    exact hf.update hd hdata (hj hjob) (Gains.refl _ _) hf.dest_le
  · rw [h2]
    exact (IoRing.entries_submit _ ret).trans hs.entries
  · exact hcount (hs.counted (.inr (.inr (.inr hpc)))) hP hP' hjob
  · rw [h4, hpc]
    decide

/-- A submit moves requests from one queue of the ring to another. -/
theorem Sound.submits (hs : Sound source s) (hpc : s.pc = .submit) (ret : SubmitRet)
    (h1 : s'.ring = (s.ring.submit ret).1) (h2 : s'.heap = s.heap) (h3 : s'.dest = s.dest)
    (h4 : s'.reads = s.reads) (h5 : s'.writes = s.writes) (hfault : s'.pc ≠ .fault) :
    Sound source s' := by
  have hP : s'.ring.pending = s.ring.pending := by
    rw [h1, IoRing.pending_submit]
  have hc := hs.counted (.inr (.inr (.inl hpc)))
  refine ⟨?_, ?_, fun _ => ⟨?_, ?_, ?_⟩, hfault⟩
  · rw [hP, h2, h3]
    exact hs.flight
  · rw [h1]
    exact (IoRing.entries_submit _ ret).trans hs.entries
  · rw [hP, h4]
    exact hc.reads
  · rw [hP, h5]
    exact hc.writes
  · rw [hP]
    exact hc.bound

/-- A completion that is dropped together with its record. -/
theorem Sound.dropped (hs : Sound source s) {c : Cqe Req} {cs : List (Cqe Req)}
    (hcq : s.ring.cq = c :: cs) (h1 : s'.heap = s.heap.free c.req.data)
    (h2 : s'.ring = s.ring.advance 1) (h3 : s'.dest = s.dest) (h4 : s'.pc = s.pc)
    (hcount : MainLoop s' → s.ring.pending = c ::ₘ s'.ring.pending → Counted s') :
    Sound source s' := by
  have hP := IoRing.pending_advance hcq
  have hf := hs.flight
  rw [hP] at hf
  rw [← h2] at hP
  refine ⟨?_, ?_, fun hm => hcount hm hP, ?_⟩
  · rw [h1, h2, h3]
    exact hf.retire
  · rw [h2]
    exact hs.entries
  · rw [h4]
    exact hs.noFault

/-- Control stays where it is counted, or leaves it. -/
theorem Control.main {pc : Pc} {had : UInt64} {g : Bool} (hc : Control s a pc had g)
    (hm : MainLoop { s with pc := pc }) : MainLoop s := by
  cases hc with
  | enter hpc hw => exact .inl hpc
  | filled hpc why => exact .inr (.inl hpc)
  | skipped hpc hh => exact .inr (.inr (.inl hpc))
  | compDone hpc hw => exact .inr (.inr (.inr hpc))
  | idle hpc hw hg ht => exact .inr (.inr (.inr hpc))
  | _ => rcases hm with h | h | h | h <;> cases h

theorem Control.ne_fault {pc : Pc} {had : UInt64} {g : Bool} (hc : Control s a pc had g) :
    pc ≠ .fault := by
  cases hc <;> simp

/-- Every move keeps the invariant. -/
theorem sound_step (hs : Sound source s) (hm : Move source s a s') : Sound source s' := by
  cases hm with
  | completed i q d d' dest res ha hq hd ht =>
    obtain ⟨P, hP, hP'⟩ := IoRing.pending_complete hq res
    have hf := hs.flight
    rw [hP] at hf
    obtain ⟨hj, hg, hle⟩ := (hf.owned.head hd).transfer ht hf.dest_le
    refine ⟨?_, hs.entries, fun hm => ?_, hs.noFault⟩
    · simp only [hP']
      exact hf.update (c := ⟨q, 0⟩) hd rfl hj hg hle
    · exact (hs.counted hm).swap hP hP' rfl rfl rfl
  | moved pc had g hctl =>
    refine ⟨hs.flight, hs.entries, fun hm => ?_, hctl.ne_fault⟩
    have hc := hs.counted (hctl.main hm)
    exact ⟨hc.reads, hc.writes, hc.bound⟩
  | queued junk hpc hi hfull hroom =>
    have hc := hs.counted (.inr (.inl hpc))
    have hcard := hc.card
    have hb := hc.bound
    have hlt := toNat_add_lt (by omega) hfull
    have hB : bufSize = 32768 := rfl
    have hpos : 0 < thisSize s.insize := by
      rw [thisSize_eq]
      omega
    refine ⟨?_, hs.entries, fun _ => ⟨?_, ?_, ?_⟩, by simp [hpc]⟩
    · rw [IoRing.pending_prep]
      exact hs.flight.start junk _ _ hpos
    · rw [IoRing.pending_prep, readsOf_cons, if_pos rfl, toNat_add_one (by omega), hc.reads]
    · rw [IoRing.pending_prep, writesOf_cons, if_neg (by simp)]
      exact hc.writes
    · rw [IoRing.pending_prep, Multiset.card_cons]
      omega
  | submitted b ha hpc hh hret =>
    exact hs.submits hpc b.submit rfl rfl rfl rfl rfl (by simp)
  | submitFailed b ha hpc hh hret =>
    exact hs.submits hpc b.submit rfl rfl rfl rfl rfl (by simp)
  | again b c cs d ha hpc ht hcq hd hres =>
    refine hs.resent ⟨d.read, d.offset, c.req.data⟩ d hpc hcq hd rfl
      (fun hj => hj.again (Int.le_refl 0)) b.submit (Heap.put_eq_self hd).symm rfl rfl rfl
      fun hc hP hP' hj => ?_
    exact hc.swap hP hP' hj.read.symm rfl rfl
  | short b c cs d ha hpc ht hcq hd hres hne =>
    refine hs.resent ⟨d.read, d.offset + c.res.toNat, c.req.data⟩
      (d.resume c.res.toNat) hpc hcq hd rfl (fun hj => hj.resume hne) b.submit rfl rfl rfl rfl
      fun hc hP hP' hj => ?_
    exact hc.swap hP hP' hj.read.symm rfl rfl
  | readDone b c cs d ha hpc ht hcq hd hres he hr =>
    refine hs.resent ⟨false, d.firstOffset, c.req.data⟩ d.toWrite hpc hcq hd rfl
      (fun hj => hj.toWrite hr he) b.submit rfl rfl rfl rfl fun hc hP hP' hj => ?_
    -- one request leaves the read phase and enters the write phase
    have hread : c.req.read = true := hj.read.trans hr
    have hcr := hc.reads
    have hcw := hc.writes
    have hb := hc.bound
    have hcard := hc.card
    rw [hP, readsOf_cons, if_pos hread] at hcr
    rw [hP, writesOf_cons, if_neg (by simp [hread])] at hcw
    rw [hP, Multiset.card_cons] at hb hcard
    refine ⟨?_, ?_, ?_⟩
    · rw [hP', readsOf_cons, if_neg (by simp), toNat_sub_one (by omega)]
      omega
    · rw [hP', writesOf_cons, if_pos rfl, toNat_add_one (by omega)]
      omega
    · rw [hP', Multiset.card_cons]
      exact hb
  | writeDone c cs d hpc ht hcq hd hres he hr =>
    refine hs.dropped hcq rfl rfl rfl rfl fun hm hP => ?_
    have hj := hs.flight.owned.ok_of_mem (IoRing.head_mem_pending hcq) hd
    have hread : c.req.read = false := hj.read.trans hr
    have hc := hs.counted (.inr (.inr (.inr hpc)))
    have hcr := hc.reads
    have hcw := hc.writes
    have hb := hc.bound
    rw [hP, readsOf_cons, if_neg (by simp [hread])] at hcr
    rw [hP, writesOf_cons, if_pos hread] at hcw
    rw [hP, Multiset.card_cons] at hb
    refine ⟨hcr, ?_, ?_⟩
    · simp only at hcw ⊢
      rw [toNat_sub_one (by omega)]
      omega
    · simp only at hb ⊢
      omega
  | drainDone b c cs d ha hpc hw herr hcq hd hres =>
    refine hs.dropped hcq rfl rfl rfl rfl fun hm _ => ?_
    rcases hm with h | h | h | h <;> simp [hpc] at h

theorem sound_init (source : List UInt8) (size : Nat) : Sound source (init size) where
  flight := Flight.empty source
  entries := rfl
  counted := fun _ => ⟨rfl, rfl, Nat.zero_le _⟩
  noFault := by simp [init]

theorem sound_next (hs : Sound source s) (h : step source s a = some s') : Sound source s' :=
  sound_step hs (step_move hs.alive h)

/-- It holds in every run. -/
theorem sound_run {acts : List Act} (hr : run (step source) (init size) acts = some s) :
    Sound source s :=
  run_keeps hr (sound_init source size) fun _ _ _ hs h => sound_next hs h

end Step

/-! ## Records under way -/

/-- What holds of a record that is under way: `k` bytes of its chunk are done. -/
structure Resumes (source dest : List UInt8) (d : IoData) (k : Nat) : Prop where
  offset : d.offset = d.firstOffset + k
  base : d.iov.iovBase = k
  lt : k < d.firstLen
  len : d.iov.iovLen = d.firstLen - k
  read : d.read = true → Loaded source d.buf d.firstOffset k
  write : d.read = false → Loaded source d.buf d.firstOffset d.firstLen ∧
    ∀ p, d.firstOffset ≤ p → p < d.firstOffset + k → Copied source dest p

theorem JobOk.resumes {source dest : List UInt8} {c : Cqe Req} {d : IoData}
    (hj : JobOk source dest c d) : Resumes source dest d d.iov.iovBase := by
  have hstart := hj.start
  have hrest := hj.rest
  have hleft := hj.left
  have hload := hj.loaded
  refine ⟨hstart, rfl, by omega, by omega, fun hr => ?_, fun hr => ⟨?_, fun p h1 h2 => ?_⟩⟩
  · rw [if_pos hr] at hload
    exact hload.mono (Nat.le_add_right _ _)
  · rwa [if_neg (by simp [hr])] at hload
  · exact hj.copied hr p h1 (by omega)

/-- **Resume.** In every state that a run of `copy_file` reaches, whatever the order and the results of
    the completions and whatever the submits do, the record of every outstanding request is at the
    position from which its chunk goes on: what is before it is read, or read and copied. -/
theorem resume_invariant (source : List UInt8) (size : Nat) (acts : List Act) (s : State)
    (hr : run (step source) (init size) acts = some s) :
    ∀ c ∈ s.ring.pending, ∃ d, s.heap.cell c.req.data = some d ∧
      Resumes source s.dest d (d.offset - d.firstOffset) := by
  intro c hc
  obtain ⟨d, hd, hj⟩ := (sound_run hr).flight.job hc
  refine ⟨d, hd, ?_⟩
  rw [hj.start, Nat.add_sub_cancel_left]
  exact hj.resumes

/-- One byte of two has been read, and the rest is queued again. -/
theorem resume_invariant_retried :
    ∃ s, run (step [7, 8]) (init 2) retried = some s ∧ s.ring.inflight = [⟨true, 1, 0⟩] ∧
      ∃ d, s.heap.cell 0 = some d ∧ Resumes [7, 8] s.dest d (d.offset - d.firstOffset) := by
  have hrun : (run (step [7, 8]) (init 2) retried).map (fun s => s.ring.inflight) =
      some [⟨true, 1, 0⟩] := by decide
  obtain ⟨s, hs, hin⟩ := Option.map_eq_some_iff.mp hrun
  have h := resume_invariant [7, 8] 2 retried s hs ⟨⟨true, 1, 0⟩, 0⟩
    (IoRing.mem_pending_of_inflight (by rw [hin]; exact List.mem_cons_self))
  exact ⟨s, hs, hin, h⟩

end KernelMagic.FileUring2
