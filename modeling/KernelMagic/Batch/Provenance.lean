/-
  What the batch programs write. A write moves the start of the buffer of its record, and the read of
  the record has filled the buffer as far as it has gone; `Backed` says how the two go together for
  each outstanding request, and `Traced` that the log of the transfers is in order (`Ordered`) and
  that its writes have copied the source as long as they are no longer than the reads.

  The single-buffer program writes what has been read, or less, so it writes nothing else
  (`singleBuffer_faithful`). The multi-buffer program writes the iovec of the read, whatever the read
  has returned: after a short read the rest of the buffer goes to the destination with whatever
  `malloc` has left there (`multiBuffer_leaks`).
-/
import KernelMagic.Lib.Provenance
import KernelMagic.Batch.Sound

namespace KernelMagic.Batch

open KernelMagic.Lib

/-- The transfer that the kernel makes in this step. -/
def moved (s : State) : Act → Option Moved
  | .complete i res => s.ring.inflight[i]?.bind fun q =>
      if 0 ≤ res then some ⟨q.read, q.data, q.offset, res.toNat⟩ else none
  | .prog _ => none

/-- The transfers of a run, the latest first. -/
def movedIn (prg : Program) (source : List UInt8) (st : Stat) (acts : List Act) : List Moved :=
  record (step prg source) (fun l s a => (moved s a).toList ++ l) [] (init st) acts

/-- The program writes no more than it has read. -/
def Program.Careful (prg : Program) : Prop := ∀ d n, prg.writeLen d n ≤ n

theorem singleBuffer_careful : singleBuffer.Careful := fun _ n => Nat.le_refl n

/-! ## Outstanding requests -/

/-- The buffer of the record is filled up to `r` by its read, and a careful program does not ask for
    more. -/
structure Filled (prg : Program) (source : List UInt8) (l : List Moved) (x : Req × Option Int)
    (d : FileData) (r : Nat) : Prop where
  mem : (⟨true, x.1.data, d.offset, r⟩ : Moved) ∈ l
  loaded : Loaded source d.buf d.offset r
  len : prg.Careful → x.1.read = false → x.1.len ≤ r
  res : prg.Careful → ∀ n, x.2 = some n → n.toNat ≤ r

/-- An outstanding request and its record: before the read is done nothing has been moved, then the
    buffer is filled. -/
structure Backed (prg : Program) (source : List UInt8) (l : List Moved) (x : Req × Option Int)
    (d : FileData) : Prop where
  offset : x.1.offset = d.offset
  fresh : x.1.read = true → (∀ n, x.2 = some n → n < 0) → ∀ e ∈ l, e.data ≠ x.1.data
  filled : (x.1.read = false ∨ ∃ n, x.2 = some n ∧ 0 ≤ n) → ∃ r, Filled prg source l x d r

structure Traced (prg : Program) (source : List UInt8) (l : List Moved) (s : State) : Prop where
  owned : Owned dataOf (Backed prg source l) s.heap s.ring.outstanding
  ordered : Ordered l
  old : ∀ e ∈ l, e.data < s.heap.next
  copied : Bounded l → ∀ w ∈ l, w.read = false → ∀ p, w.Covers p → Copied source s.dest p
  careful : prg.Careful → Bounded l

section Job

variable {prg : Program} {source : List UInt8} {l : List Moved} {x : Req × Option Int}
  {q : Req} {d : FileData} {res : Int} {e : Moved}

/-- A transfer of another record. -/
theorem Backed.cons (hj : Backed prg source l x d) (he : e.data ≠ x.1.data) :
    Backed prg source (e :: l) x d where
  offset := hj.offset
  fresh := fun hr hn => List.forall_mem_cons.mpr ⟨he, hj.fresh hr hn⟩
  filled := fun h => by
    obtain ⟨r, hf⟩ := hj.filled h
    exact ⟨r, List.mem_cons_of_mem e hf.mem, hf.loaded, hf.len, hf.res⟩

/-- The read of a new chunk. -/
theorem backed_start {off len p : Nat} (junk : Nat → UInt8) (hp : ∀ e ∈ l, e.data ≠ p) :
    Backed prg source l (⟨true, off, len, p⟩, none) ⟨off, len, junk⟩ where
  offset := rfl
  fresh := fun _ _ => hp
  filled := fun h => by simp at h

/-- The request has failed. -/
theorem Backed.fail (hj : Backed prg source l (q, none) d) (hres : res < 0) :
    Backed prg source l (q, some res) d where
  offset := hj.offset
  fresh := fun hr _ => hj.fresh hr fun n hn => by cases hn
  filled := fun h => by
    have hw : q.read = false := by
      rcases h with h | ⟨n, hn, h0⟩
      · exact h
      · cases hn
        omega
    obtain ⟨r, hf⟩ := hj.filled (.inl hw)
    refine ⟨r, hf.mem, hf.loaded, hf.len, fun _ n hn => ?_⟩
    cases hn
    omega

/-- The read is done. -/
theorem Backed.load (hj : Backed prg source l (q, none) d) (hr : q.read = true) (h0 : 0 ≤ res)
    (hlen : (pread source q.offset res.toNat).length = res.toNat) :
    Backed prg source (⟨true, q.data, q.offset, res.toNat⟩ :: l) (q, some res)
      (d.store (pread source q.offset res.toNat)) where
  offset := hj.offset
  fresh := fun _ hn => absurd (hn res rfl) (by omega)
  filled := fun _ => by
    have ho : q.offset = d.offset := hj.offset
    refine ⟨res.toNat, ?_, ?_, fun _ hw => ?_, fun _ n hn => ?_⟩
    · rw [ho]
      exact List.mem_cons_self
    · rw [ho] at hlen ⊢
      exact loaded_pread d.buf hlen
    · cases hr.symm.trans hw
    · cases hn
      exact Nat.le_refl _

/-- The write is done. -/
theorem Backed.write (hj : Backed prg source l (q, none) d) (hr : q.read = false)
    (hle : res ≤ q.len) (e : Moved) : Backed prg source (e :: l) (q, some res) d where
  offset := hj.offset
  fresh := fun h => by cases hr.symm.trans h
  filled := fun _ => by
    obtain ⟨r, hf⟩ := hj.filled (.inl hr)
    refine ⟨r, List.mem_cons_of_mem e hf.mem, hf.loaded, hf.len, fun hc n hn => ?_⟩
    have hlen : q.len ≤ r := hf.len hc hr
    cases hn
    omega

/-- The write of what has been read. -/
theorem Backed.turn {c : Cqe Req} (hj : Backed prg source l (c.req, some c.res) d) (h0 : 0 ≤ c.res) :
    Backed prg source l (⟨false, d.offset, prg.writeLen d c.res.toNat, c.req.data⟩, none) d where
  offset := rfl
  fresh := fun h => by cases h
  filled := fun _ => by
    obtain ⟨r, hf⟩ := hj.filled (.inr ⟨c.res, rfl, h0⟩)
    refine ⟨r, hf.mem, hf.loaded, fun hc _ => ?_, fun _ n hn => by cases hn⟩
    exact Nat.le_trans (hc d c.res.toNat) (hf.res hc c.res rfl)

end Job

/-! ## Runs -/

section Step

variable {prg : Program} {source : List UInt8} {st : Stat} {s s' : State} {a : Act}
  {l : List Moved} {q : Req} {d d' : FileData} {dest : List UInt8} {res : Int} {i : Nat}

theorem next_move (hm : Move prg source s a s') : s.heap.next ≤ s'.heap.next := by
  cases hm with
  | queued b junk ha hpc hi hopen hmore hroom => exact Nat.le_succ _
  | closed b junk ha hpc hi hlast hroom => exact Nat.le_succ _
  | _ => exact Nat.le_refl _

theorem moved_complete (hq : s.ring.inflight[i]? = some q) :
    moved s (.complete i res) =
      if 0 ≤ res then some ⟨q.read, q.data, q.offset, res.toNat⟩ else none := by
  rw [moved, hq, Option.bind_some]

/-- What a completion does to the job of the request. -/
theorem Backed.transfer (hj : Backed prg source l (q, none) d)
    (ht : Transfer source s.dest q d res d' dest) (hq : s.ring.inflight[i]? = some q) :
    Backed prg source ((moved s (.complete i res)).toList ++ l) (q, some res) d' := by
  rw [moved_complete hq]
  cases ht with
  | failed hres =>
    rw [if_neg (by omega)]
    exact hj.fail hres
  | loaded h0 hle hr hlen =>
    rw [if_pos h0, hr]
    exact hj.load hr h0 hlen
  | written h0 hle hr =>
    rw [if_pos h0]
    exact hj.write hr hle _

theorem Traced.owned_step (ht : Traced prg source l s) (hm : Move prg source s a s') :
    Owned dataOf (Backed prg source ((moved s a).toList ++ l)) s'.heap s'.ring.outstanding := by
  have hmono : ∀ x d, (∀ i res q, a = .complete i res → s.ring.inflight[i]? = some q →
      dataOf x ≠ q.data) → Backed prg source l x d →
      Backed prg source ((moved s a).toList ++ l) x d := by
    intro x d hne hj
    cases hmv : moved s a with
    | none => exact hj
    | some e =>
      refine hj.cons ?_
      cases a with
      | prog b => cases hmv
      | complete i res =>
        obtain ⟨q, hq, he⟩ := Option.bind_eq_some_iff.mp hmv
        split at he
        · cases he
          exact (hne i res q rfl hq).symm
        · cases he
  refine owned_move ht.owned hm ?_ ?_ ?_ hmono
  · rintro b rfl off len junk
    exact backed_start junk fun e he => Nat.ne_of_lt (ht.old e he)
  · rintro i res q d d' dest rfl hq htr hj
    exact hj.transfer htr hq
  · rintro b rfl c d h0 hj
    exact hj.turn h0

/-- The log after a read. -/
theorem Traced.log_read (ht : Traced prg source l s) (hj : Backed prg source l (q, none) d)
    (hr : q.read = true) (n : Nat) :
    Ordered (⟨true, q.data, q.offset, n⟩ :: l) ∧
      (Bounded l → Bounded (⟨true, q.data, q.offset, n⟩ :: l)) := by
  have hfresh := hj.fresh hr fun n hn => by cases hn
  refine ⟨⟨ht.ordered, fun _ => hfresh, nofun⟩, fun hb => hb.cons ?_ nofun⟩
  exact fun _ w hw _ hd => absurd hd (hfresh w hw)

/-- The log after a write: it is bounded if the write is no longer than the read of its record. -/
theorem Traced.log_write (ht : Traced prg source l s) (hj : Backed prg source l (q, none) d)
    (n : Nat) {r : Nat} (hf : Filled prg source l (q, none) d r) :
    Ordered (⟨false, q.data, q.offset, n⟩ :: l) ∧
      (Bounded (⟨false, q.data, q.offset, n⟩ :: l) → n ≤ r) ∧
      (Bounded l → n ≤ r → Bounded (⟨false, q.data, q.offset, n⟩ :: l)) := by
  have ho : q.offset = d.offset := hj.offset
  refine ⟨⟨ht.ordered, nofun, fun _ => ⟨_, hf.mem, rfl, rfl, ho.symm⟩⟩, fun hb => ?_,
    fun hb hn => hb.cons nofun fun _ r' hr' hread hd => ?_⟩
  · exact hb _ (List.mem_cons_of_mem _ hf.mem) _ List.mem_cons_self rfl rfl rfl
  · obtain rfl := ht.ordered.unique hr' hf.mem hread rfl hd.symm
    exact hn

/-- A write of no more than what has been read copies it. -/
theorem Traced.copied_write (ht : Traced prg source l s) (hj : Backed prg source l (q, none) d)
    {n r : Nat} (hf : Filled prg source l (q, none) d r) (hn : n ≤ r) (hb : Bounded l) :
    ∀ w ∈ (⟨false, q.data, q.offset, n⟩ :: l : List Moved), w.read = false → ∀ p, w.Covers p →
      Copied source (pwrite 0 s.dest q.offset (grab d.buf 0 n)) p := by
  intro w hw hread p hp
  rcases Nat.eq_zero_or_pos n with rfl | hpos
  · -- nothing has been written
    rcases List.mem_cons.mp hw with rfl | hw
    · have := hp.1
      have := hp.2
      simp only at *
      omega
    · exact ht.copied hb w hw hread p hp
  · have ho : q.offset = d.offset := hj.offset
    have hload := hf.loaded.mono hn
    have hfit := hload.fits hpos
    have hgrab : grab d.buf 0 n = pread source q.offset n := by
      rw [ho]
      exact Loaded.grab (by rw [Nat.zero_add]; exact hload)
    rw [hgrab]
    rcases List.mem_cons.mp hw with rfl | hw
    · exact copied_pwrite_mid 0 source s.dest q.offset n p (by omega) hp.1 hp.2
    · exact (ht.copied hb w hw hread p hp).pwrite 0 q.offset n (by omega)

theorem traced_step (ht : Traced prg source l s) (hm : Move prg source s a s') :
    Traced prg source ((moved s a).toList ++ l) s' := by
  have hown := ht.owned_step hm
  have hnext := next_move hm
  have hold : ∀ e ∈ l, e.data < s'.heap.next := fun e he => Nat.lt_of_lt_of_le (ht.old e he) hnext
  have hprog : ∀ b, a = .prog b → s'.dest = s.dest →
      Traced prg source ((moved s a).toList ++ l) s' := by
    rintro b rfl hdest
    refine ⟨hown, ht.ordered, hold, ?_, ht.careful⟩
    rw [hdest]
    exact ht.copied
  cases hm with
  | completed i q d d' dest res ha hq hd htr =>
    subst ha
    obtain ⟨P, hP, -⟩ := IoRing.outstanding_complete hq res
    have howned := ht.owned
    rw [hP] at howned
    have hj := howned.head hd
    have hlt : q.data < s.heap.next := Heap.lt_next hd
    rw [moved_complete hq] at hown ⊢
    cases htr with
    | failed hres =>
      rw [if_neg (by omega)] at hown ⊢
      exact ⟨hown, ht.ordered, hold, ht.copied, ht.careful⟩
    | loaded h0 hle hr hlen =>
      rw [if_pos h0, hr] at hown ⊢
      obtain ⟨hord, hbnd⟩ := ht.log_read hj hr res.toNat
      refine ⟨hown, hord, List.forall_mem_cons.mpr ⟨hlt, hold⟩, fun hb w hw hwr => ?_, fun hc =>
        hbnd (ht.careful hc)⟩
      rcases List.mem_cons.mp hw with rfl | hw
      · cases hwr
      · exact ht.copied hb.tail w hw hwr
    | written h0 hle hr =>
      rw [if_pos h0, hr] at hown ⊢
      obtain ⟨r, hf⟩ := hj.filled (.inl hr)
      obtain ⟨hord, hlen, hbnd⟩ := ht.log_write hj res.toNat hf
      refine ⟨hown, hord, List.forall_mem_cons.mpr ⟨hlt, hold⟩, fun hb => ?_, fun hc => ?_⟩
      · exact ht.copied_write hj hf (hlen hb) hb.tail
      · have hq : q.len ≤ r := hf.len hc hr
        exact hbnd (ht.careful hc) (by omega)
  | ended b pc ha hpc r hr why hfree => exact hprog b ha rfl
  | queued b junk ha hpc hi hopen hmore hroom => exact hprog b ha rfl
  | closed b junk ha hpc hi hlast hroom => exact hprog b ha rfl
  | skipped b ha hpc hi => exact hprog b ha rfl
  | submitted b ha hpc hret => exact hprog b ha rfl
  | readFailed b c cs d ha hpc hi htk hcq hd hres => exact hprog b ha rfl
  | readDone b c cs d ha hpc hi htk hcq hd hres hroom => exact hprog b ha rfl
  | readEnd b ha hpc hi => exact hprog b ha rfl
  | submittedWrites b ha hpc hret => exact hprog b ha rfl
  | writeDone b c cs d ha hpc hi htk hcq hd hres => exact hprog b ha rfl
  | writeStop b ha hpc hi why htk => exact hprog b ha rfl
  | writeEnd b ha hpc hi => exact hprog b ha rfl
  | stop b ha hpc ho => exact hprog b ha rfl
  | again b ha hpc ho => exact hprog b ha rfl

theorem traced_init (prg : Program) (source : List UInt8) (st : Stat) :
    Traced prg source [] (init st) where
  owned := Owned.empty _ _
  ordered := trivial
  old := nofun
  copied := fun _ => nofun
  careful := fun _ => nofun

theorem traced_run {acts : List Act} (hr : run (step prg source) (init st) acts = some s) :
    Traced prg source (movedIn prg source st acts) s :=
  (record_keeps (I := fun l s => Sound s ∧ Traced prg source l s) hr
    ⟨sound_init st, traced_init prg source st⟩
    fun _ _ _ _ hi h => ⟨sound_next hi.1 h, traced_step hi.2 (step_move hi.1.alive h)⟩).2

/-- The single-buffer program writes only what it has read, and where it has read it, whatever the
    results and the answers are. -/
theorem singleBuffer_faithful (source : List UInt8) (st : Stat) (acts : List Act) (s : State)
    (hr : run (step singleBuffer source) (init st) acts = some s) :
    Faithful (movedIn singleBuffer source st acts) := by
  have ht := traced_run hr
  exact ht.ordered.faithful_iff.mpr (ht.careful singleBuffer_careful)

/-- **Provenance.** In every run of the multi-buffer program, whatever the results and the answers
    are: every byte that has been written had been read before into the same buffer, from the same
    position, if and only if no write has moved more than the read of its record. And then what has
    been written is what the source has there. -/
theorem multiBuffer_faithful_iff (source : List UInt8) (st : Stat) (acts : List Act) (s : State)
    (hr : run (step multiBuffer source) (init st) acts = some s) :
    (Faithful (movedIn multiBuffer source st acts) ↔
      Bounded (movedIn multiBuffer source st acts)) ∧
    (Bounded (movedIn multiBuffer source st acts) →
      ∀ w ∈ movedIn multiBuffer source st acts, w.read = false → ∀ p, w.Covers p →
        Copied source s.dest p) := by
  have ht := traced_run hr
  exact ⟨ht.ordered.faithful_iff, ht.copied⟩

end Step

/-- Two bytes, read and written one after the other. -/
def readWrite : List Act :=
  [.prog {}, .prog {}, .complete 0 2, .prog {}, .prog {}, .prog {}, .complete 0 2]

theorem multiBuffer_faithful_readWrite :
    ∃ s, run (step multiBuffer [7, 8]) (init (.regular 2)) readWrite = some s ∧
      Faithful (movedIn multiBuffer [7, 8] (.regular 2) readWrite) ∧ Copied [7, 8] s.dest 1 := by
  have hrun : (run (step multiBuffer [7, 8]) (init (.regular 2)) readWrite).isSome = true := by decide
  obtain ⟨s, hs⟩ := Option.isSome_iff_exists.mp hrun
  have hlog : movedIn multiBuffer [7, 8] (.regular 2) readWrite =
      [⟨false, 0, 0, 2⟩, ⟨true, 0, 0, 2⟩] := by decide
  have hb : Bounded (movedIn multiBuffer [7, 8] (.regular 2) readWrite) := by
    rw [hlog]
    unfold Bounded
    decide
  obtain ⟨hiff, hcopied⟩ := multiBuffer_faithful_iff [7, 8] (.regular 2) readWrite s hs
  refine ⟨s, hs, hiff.mpr hb, hcopied hb ⟨false, 0, 0, 2⟩ ?_ rfl 1 ⟨by decide, by decide⟩⟩
  rw [hlog]
  exact List.mem_cons_self

/-- The same two bytes, the read of which completes with 1, in a buffer that holds nines. -/
def shortReadWrite : List Act :=
  [.prog { malloc := some fun _ => 9 }, .prog {}, .complete 0 1, .prog {}, .prog {}, .prog {},
    .complete 0 2]

/-- The second byte that is written is not from the source. -/
theorem multiBuffer_leaks :
    ∃ s, run (step multiBuffer [7, 8]) (init (.regular 2)) shortReadWrite = some s ∧
      s.dest = [7, 9] ∧ ¬ Faithful (movedIn multiBuffer [7, 8] (.regular 2) shortReadWrite) := by
  have hrun : (run (step multiBuffer [7, 8]) (init (.regular 2)) shortReadWrite).map State.dest =
      some [7, 9] := by decide
  obtain ⟨s, hs, hdest⟩ := Option.map_eq_some_iff.mp hrun
  have hlog : movedIn multiBuffer [7, 8] (.regular 2) shortReadWrite =
      [⟨false, 0, 0, 2⟩, ⟨true, 0, 0, 1⟩] := by decide
  refine ⟨s, hs, hdest, fun hf => ?_⟩
  rw [hlog] at hf
  obtain ⟨r, hr, -, -, hc⟩ := hf.2 rfl 1 ⟨by decide, by decide⟩
  rw [List.mem_singleton.mp hr] at hc
  exact absurd hc.2 (by decide)

end KernelMagic.Batch
