/-
  The counters of `copy_file` against the requests under way.

  `Ledger` ties the numbers to the pending requests: how many are in the read phase and in the write
  phase, and how many bytes the read phase stands for. `Inv` adds the program's own variables: the
  two counters and `write_left` are what the ledger says, the chunks queued so far cut `[0, offset)`,
  and the submission queue is empty except between the fill loop and its submit. `inv_step` proves
  it for every transition, and `inv_run` for every run in which the submits take all requests.

  Nothing is assumed of the length of the source: with a source shorter than `insize` the reads past
  its end never complete in full, and the invariant still holds.
-/
import KernelMagic.FileUring2.Flight
import KernelMagic.FileUring2.Steps

namespace KernelMagic.FileUring2

open KernelMagic.Lib

/-- The requests in the read phase. -/
def readsOf (P : Multiset (Cqe Req)) : Nat := P.countP fun c => c.req.read = true

/-- The requests in the write phase. -/
def writesOf (P : Multiset (Cqe Req)) : Nat := P.countP fun c => c.req.read = false

/-- `first_offset` and `first_len` of the record at `p`. -/
def chunkOf (h : Heap IoData) (p : Nat) : Nat × Nat :=
  ((h.cell p).map fun d => (d.firstOffset, d.firstLen)).getD (0, 0)

/-- The chunks of the requests in the read phase. -/
def readJobs (h : Heap IoData) (P : Multiset (Cqe Req)) : Multiset (Nat × Nat) :=
  (P.filter fun c => c.req.read = true).map fun c => chunkOf h c.req.data

/-- The bytes that a set of chunks stands for. -/
def loadOf (jobs : Multiset (Nat × Nat)) : Nat := (jobs.map Prod.snd).sum

structure Ledger (source : List UInt8) (h : Heap IoData) (P : Multiset (Cqe Req))
    (dest : List UInt8) (reads writes : Nat) (jobs : Multiset (Nat × Nat)) : Prop where
  flight : Flight source h P dest
  reads : reads = readsOf P
  writes : writes = writesOf P
  jobs : jobs = readJobs h P

structure Inv (source : List UInt8) (size : Nat) (s : State) : Prop where
  ledger : Ledger source s.heap s.ring.pending s.dest s.reads.toNat s.writes.toNat
    (readJobs s.heap s.ring.pending)
  left : s.writeLeft = s.insize + (loadOf (readJobs s.heap s.ring.pending) : Int)
  bound : s.ring.pending.card ≤ depth
  entries : s.ring.entries = depth
  cut : Cut bufSize size s.queued s.offset
  total : s.offset + s.insize = size
  fresh : s.pc = .fill ∨ s.pc = .submit → s.hadReads.toNat + s.ring.sq.length = s.reads.toNat
  flushed : s.pc ≠ .fill → s.pc ≠ .submit → s.ring.sq = []
  drained : s.pc = .drain ∨ s.pc = .ret 0 → s.insize = 0 ∧ s.writeLeft = 0
  exited : s.pc = .ret 0 → s.writes = 0
  noFault : s.pc ≠ .fault

/-! ## Counting -/

section Counting

variable {source dest dest' : List UInt8} {h h' : Heap IoData} {P : Multiset (Cqe Req)}
  {c c' : Cqe Req} {d d' : IoData} {reads writes : Nat} {jobs : Multiset (Nat × Nat)}

theorem readsOf_cons (c : Cqe Req) (P : Multiset (Cqe Req)) :
    readsOf (c ::ₘ P) = readsOf P + if c.req.read = true then 1 else 0 :=
  Multiset.countP_cons _ _ _

theorem writesOf_cons (c : Cqe Req) (P : Multiset (Cqe Req)) :
    writesOf (c ::ₘ P) = writesOf P + if c.req.read = false then 1 else 0 :=
  Multiset.countP_cons _ _ _

theorem readsOf_add_writesOf (P : Multiset (Cqe Req)) : readsOf P + writesOf P = P.card := by
  rw [Multiset.card_eq_countP_add_countP (fun c => c.req.read = true)]
  simp [readsOf, writesOf]

@[simp] theorem loadOf_cons (x : Nat × Nat) (J : Multiset (Nat × Nat)) :
    loadOf (x ::ₘ J) = x.2 + loadOf J := by
  simp [loadOf]

theorem readJobs_cons_read (h : Heap IoData) {c : Cqe Req} (P : Multiset (Cqe Req))
    (hr : c.req.read = true) :
    readJobs h (c ::ₘ P) = chunkOf h c.req.data ::ₘ readJobs h P := by
  unfold readJobs
  rw [Multiset.filter_cons_of_pos P hr, Multiset.map_cons]

theorem readJobs_cons_write (h : Heap IoData) {c : Cqe Req} (P : Multiset (Cqe Req))
    (hr : c.req.read = false) : readJobs h (c ::ₘ P) = readJobs h P := by
  unfold readJobs
  rw [Multiset.filter_cons_of_neg P (by simp [hr])]

theorem readJobs_congr (hc : ∀ c ∈ P, h'.cell c.req.data = h.cell c.req.data) :
    readJobs h' P = readJobs h P := by
  unfold readJobs
  refine Multiset.map_congr rfl ?_
  intro c hm
  rw [chunkOf, chunkOf, hc c (Multiset.mem_of_mem_filter hm)]

theorem chunkOf_of_cell {p : Nat} (hd : h.cell p = some d) :
    chunkOf h p = (d.firstOffset, d.firstLen) := by
  simp [chunkOf, hd]

/-- The record of a job is written; the other records are not touched. -/
theorem Flight.readJobs_put (hf : Flight source h (c ::ₘ P) dest) :
    readJobs (h.put c.req.data d') P = readJobs h P :=
  readJobs_congr fun _ hc => Heap.cell_put_ne _ _ (hf.not_mem hc)

theorem Ledger.start (hl : Ledger source h P dest reads writes jobs) (junk : Nat → UInt8)
    (size offset : Nat) (hs : 0 < size) :
    Ledger source (h.alloc ⟨true, offset, offset, size, ⟨0, size⟩, junk⟩)
      (⟨⟨true, offset, h.next⟩, 0⟩ ::ₘ P) dest (reads + 1) writes ((offset, size) ::ₘ jobs) where
  flight := hl.flight.start junk size offset hs
  reads := by rw [readsOf_cons, hl.reads]; simp
  writes := by rw [writesOf_cons, hl.writes]; simp
  jobs := by
    have hc : readJobs (h.alloc ⟨true, offset, offset, size, ⟨0, size⟩, junk⟩) P = readJobs h P := by
      refine readJobs_congr fun c hc => ?_
      obtain ⟨d, hd, -⟩ := hl.flight.job hc
      rw [Heap.cell_alloc_of_some _ hd, hd]
    rw [readJobs_cons_read _ _ rfl, hc, hl.jobs, chunkOf_of_cell (Heap.cell_alloc_self _ _)]

/-- A job changes within its phase. -/
theorem Ledger.keep (hl : Ledger source h (c ::ₘ P) dest reads writes jobs)
    (hd : h.cell c.req.data = some d) (hdata : c'.req.data = c.req.data)
    (hr : c'.req.read = c.req.read) (hoff : d'.firstOffset = d.firstOffset)
    (hlen : d'.firstLen = d.firstLen) (hj : JobOk source dest' c' d')
    (hg : Gains source dest dest') (hle : dest'.length ≤ source.length) :
    Ledger source (h.put c.req.data d') (c' ::ₘ P) dest' reads writes jobs where
  flight := hl.flight.update hd hdata hj hg hle
  reads := by rw [hl.reads, readsOf_cons, readsOf_cons, hr]
  writes := by rw [hl.writes, writesOf_cons, writesOf_cons, hr]
  jobs := by
    have hput := Heap.cell_put_self d' hd
    rw [hl.jobs]
    cases hb : c.req.read with
    | true =>
      rw [readJobs_cons_read _ _ hb, readJobs_cons_read _ _ (hr.trans hb), hl.flight.readJobs_put,
        hdata, chunkOf_of_cell hd, chunkOf_of_cell hput, hoff, hlen]
    | false =>
      rw [readJobs_cons_write _ _ hb, readJobs_cons_write _ _ (hr.trans hb),
        hl.flight.readJobs_put]

/-- `Ledger.keep` where the record keeps its contents. -/
theorem Ledger.keep_req (hl : Ledger source h (c ::ₘ P) dest reads writes jobs)
    (hd : h.cell c.req.data = some d) (hdata : c'.req.data = c.req.data)
    (hr : c'.req.read = c.req.read) (hj : JobOk source dest' c' d)
    (hg : Gains source dest dest') (hle : dest'.length ≤ source.length) :
    Ledger source h (c' ::ₘ P) dest' reads writes jobs := by
  have := hl.keep hd hdata hr rfl rfl hj hg hle
  rwa [Heap.put_eq_self hd] at this

/-- A job passes from its read phase to its write phase. -/
theorem Ledger.toWrite (hl : Ledger source h (c ::ₘ P) dest reads writes jobs)
    (hd : h.cell c.req.data = some d) (hr : d.read = true) (he : c.res.toNat = d.iov.iovLen) :
    0 < reads ∧ ∃ jobs', jobs = (d.firstOffset, d.firstLen) ::ₘ jobs' ∧
    Ledger source (h.put c.req.data d.toWrite) (⟨⟨false, d.firstOffset, c.req.data⟩, 0⟩ ::ₘ P)
      dest (reads - 1) (writes + 1) jobs' := by
  obtain ⟨d₁, hd₁, hj⟩ := hl.flight.job (Multiset.mem_cons_self _ _)
  obtain rfl : d = d₁ := Option.some.inj (hd.symm.trans hd₁)
  have hcr : c.req.read = true := by rw [hj.read, hr]
  have h1 := hl.reads
  have h2 := hl.writes
  rw [readsOf_cons, if_pos hcr] at h1
  rw [writesOf_cons, if_neg (by simp [hcr])] at h2
  refine ⟨by omega, readJobs h P, ?_, ?_, ?_, ?_, ?_⟩
  · rw [hl.jobs, readJobs_cons_read _ _ hcr, chunkOf_of_cell hd]
  · exact hl.flight.update hd rfl (hj.toWrite hr he) (Gains.refl _ _) hl.flight.dest_le
  · rw [readsOf_cons, if_neg (by simp)]
    omega
  · rw [writesOf_cons, if_pos rfl]
    omega
  · rw [readJobs_cons_write _ _ rfl, hl.flight.readJobs_put]

/-- A job in its write phase is over. -/
theorem Ledger.retire (hl : Ledger source h (c ::ₘ P) dest reads writes jobs)
    (hr : c.req.read = false) :
    0 < writes ∧ Ledger source (h.free c.req.data) P dest reads (writes - 1) jobs := by
  have h1 := hl.reads
  have h2 := hl.writes
  rw [readsOf_cons, if_neg (by simp [hr])] at h1
  rw [writesOf_cons, if_pos hr] at h2
  have hc : readJobs (h.free c.req.data) P = readJobs h P :=
    readJobs_congr fun e he => Heap.cell_free_ne _ (hl.flight.not_mem he)
  refine ⟨by omega, hl.flight.retire, by omega, by omega, ?_⟩
  rw [hc, hl.jobs, readJobs_cons_write _ _ hr]

/-- Without load there is no request in the read phase. -/
theorem Flight.no_reads (hf : Flight source h P dest) (h0 : loadOf (readJobs h P) = 0) :
    ∀ c ∈ P, c.req.read = false := by
  intro c hc
  by_contra hr
  obtain ⟨d, hd, hj⟩ := hf.job hc
  obtain ⟨Q, rfl⟩ := Multiset.exists_cons_of_mem hc
  rw [readJobs_cons_read _ _ (by simpa using hr), chunkOf_of_cell hd, loadOf_cons] at h0
  have := hj.left
  have := hj.rest
  simp only at h0
  omega

end Counting

/-! ## Unsigned counters -/

theorem toNat_add_one {x : UInt64} (h : x.toNat < depth) : (x + 1).toNat = x.toNat + 1 := by
  have hd : depth = 64 := rfl
  have h1 : (1 : UInt64).toNat = 1 := rfl
  rw [UInt64.toNat_add, h1]
  omega

theorem toNat_sub_one {x : UInt64} (h : 0 < x.toNat) : (x - 1).toNat = x.toNat - 1 := by
  have h1 : (1 : UInt64).toNat = 1 := rfl
  rw [UInt64.toNat_sub_of_le x 1 (by rw [UInt64.le_iff_toNat_le, h1]; omega), h1]

theorem toNat_add_lt {x y : UInt64} (h : x.toNat + y.toNat ≤ depth)
    (hlt : ¬ x + y ≥ depth.toUInt64) : x.toNat + y.toNat < depth := by
  have hd : depth = 64 := rfl
  have h64 : depth.toUInt64.toNat = 64 := rfl
  rw [ge_iff_le, UInt64.le_iff_toNat_le, h64, UInt64.toNat_add] at hlt
  omega

theorem thisSize_eq (n : Nat) : thisSize n = min bufSize n := by
  unfold thisSize
  split <;> omega

/-! ## One step -/

section Step

variable {source : List UInt8} {size : Nat} {s s' : State} {a : Act}

theorem Inv.ready (hi : Inv source size s) : Ready s where
  entries := hi.entries
  live := fun c hc => by
    obtain ⟨d, hd, -⟩ := hi.ledger.flight.job hc
    exact ⟨d, hd⟩
  room := fun hpc => hi.flushed (by simp [hpc]) (by simp [hpc])

theorem Inv.counters (hi : Inv source size s) :
    s.reads.toNat + s.writes.toNat = s.ring.pending.card := by
  rw [hi.ledger.reads, hi.ledger.writes, readsOf_add_writesOf]

/-- The ledger, `write_left` and the bound where one of the pending requests is picked out. -/
theorem Inv.pick (hi : Inv source size s) {c : Cqe Req} {P : Multiset (Cqe Req)}
    (hP : s.ring.pending = c ::ₘ P) :
    Ledger source s.heap (c ::ₘ P) s.dest s.reads.toNat s.writes.toNat
        (readJobs s.heap (c ::ₘ P)) ∧
      s.writeLeft = s.insize + (loadOf (readJobs s.heap (c ::ₘ P)) : Int) ∧
      P.card + 1 ≤ depth := by
  have hb := hi.bound
  rw [hP, Multiset.card_cons] at hb
  exact ⟨hP ▸ hi.ledger, hP ▸ hi.left, hb⟩

/-- A completion by the kernel: one pending request gets its result. -/
theorem Inv.completed (hi : Inv source size s) {i : Nat} {q : Req} {d : IoData} (res : Int)
    (hq : s.ring.inflight[i]? = some q) (hd : s.heap.cell q.data = some d)
    {h : Heap IoData} {dest : List UInt8}
    (hl : ∀ P J, Ledger source s.heap (⟨q, 0⟩ ::ₘ P) s.dest s.reads.toNat s.writes.toNat J →
      JobOk source s.dest ⟨q, 0⟩ d →
      Ledger source h (⟨q, res⟩ ::ₘ P) dest s.reads.toNat s.writes.toNat J) :
    Inv source size { s with
      ring :=
        { s.ring with inflight := s.ring.inflight.eraseIdx i, cq := s.ring.cq ++ [⟨q, res⟩] }
      heap := h
      dest := dest } ∧
    readJobs h (IoRing.pending
      { s.ring with inflight := s.ring.inflight.eraseIdx i, cq := s.ring.cq ++ [⟨q, res⟩] }) =
        readJobs s.heap s.ring.pending := by
  obtain ⟨P, hP, hP'⟩ := IoRing.pending_complete hq res
  obtain ⟨hled, hleft, hb⟩ := hi.pick hP
  obtain ⟨d₁, hd₁, hj⟩ := hled.flight.job (Multiset.mem_cons_self _ _)
  obtain rfl : d = d₁ := Option.some.inj (hd.symm.trans hd₁)
  have hled' := hl P _ hled hj
  refine ⟨{ hi with ledger := ?_, left := ?_, bound := ?_ }, by rw [hP', hP, ← hled'.jobs]⟩
  · rw [hP', ← hled'.jobs]
    exact hled'
  · rw [hP', ← hled'.jobs]
    exact hleft
  · rw [hP', Multiset.card_cons]
    exact hb

theorem Inv.loaded (hi : Inv source size s) {i : Nat} {q : Req} {d : IoData} {res : Int}
    (hq : s.ring.inflight[i]? = some q) (hd : s.heap.cell q.data = some d)
    (hle : res ≤ d.iov.iovLen) (hr : q.read = true)
    (hlen : (pread source q.offset res.toNat).length = res.toNat) :
    Inv source size { s with
      ring :=
        { s.ring with inflight := s.ring.inflight.eraseIdx i, cq := s.ring.cq ++ [⟨q, res⟩] }
      heap := s.heap.put q.data (d.store (pread source q.offset res.toNat)) } ∧
    readJobs (s.heap.put q.data (d.store (pread source q.offset res.toNat))) (IoRing.pending
      { s.ring with inflight := s.ring.inflight.eraseIdx i, cq := s.ring.cq ++ [⟨q, res⟩] }) =
        readJobs s.heap s.ring.pending :=
  hi.completed res hq hd fun _ _ hl hj =>
    hl.keep hd rfl rfl rfl rfl (hj.store hr hle hlen) (Gains.refl _ _) hl.flight.dest_le

theorem Inv.written (hi : Inv source size s) {i : Nat} {q : Req} {d : IoData} {res : Int}
    (hq : s.ring.inflight[i]? = some q) (hd : s.heap.cell q.data = some d)
    (hle : res ≤ d.iov.iovLen) (hr : q.read = false) :
    Inv source size { s with
      ring :=
        { s.ring with inflight := s.ring.inflight.eraseIdx i, cq := s.ring.cq ++ [⟨q, res⟩] }
      dest := pwrite 0 s.dest q.offset (grab d.buf d.iov.iovBase res.toNat) } ∧
    readJobs s.heap (IoRing.pending
      { s.ring with inflight := s.ring.inflight.eraseIdx i, cq := s.ring.cq ++ [⟨q, res⟩] }) =
        readJobs s.heap s.ring.pending := by
  refine hi.completed res hq hd fun P J hl hj => ?_
  obtain ⟨hg, hfit, ho⟩ := hj.grab_eq hr hle
  refine hl.keep_req hd rfl rfl (hj.pwrite hr hle) ?_ ?_
  · intro p hp
    rw [hg]
    exact hp.pwrite 0 _ _ hfit
  · refine length_pwrite_le hl.flight.dest_le ?_
    rw [length_grab]
    exact hfit

/-- A completion that the main loop queues again within its phase. -/
theorem Inv.requeued (hi : Inv source size s) (hpc : s.pc = .comp) {c : Cqe Req}
    {cs : List (Cqe Req)} (hcq : s.ring.cq = c :: cs) {d d' : IoData} {q : Req} (posted : List Io)
    (hd : s.heap.cell c.req.data = some d) (hdata : q.data = c.req.data)
    (hr : q.read = d.read) (hoff : d'.firstOffset = d.firstOffset)
    (hlen : d'.firstLen = d.firstLen)
    (hj : JobOk source s.dest c d → JobOk source s.dest ⟨q, 0⟩ d') :
    Inv source size { s with
      gotComp := true
      heap := s.heap.put c.req.data d'
      ring := s.ring.resubmit q
      posted := posted } := by
  have hP := IoRing.pending_advance hcq
  obtain ⟨hled, hleft, hb⟩ := hi.pick hP
  obtain ⟨d₁, hd₁, hj₁⟩ := hled.flight.job (Multiset.mem_cons_self _ _)
  obtain rfl : d = d₁ := Option.some.inj (hd.symm.trans hd₁)
  have hled' := hled.keep hd (show (⟨q, 0⟩ : Cqe Req).req.data = c.req.data from hdata)
    (by rw [hr, hj₁.read]) hoff hlen (hj hj₁)
    (Gains.refl _ _) hled.flight.dest_le
  refine { hi with ledger := ?_, left := ?_, bound := ?_, fresh := ?_, flushed := ?_ }
  · rw [IoRing.pending_resubmit, ← hled'.jobs]
    exact hled'
  · rw [IoRing.pending_resubmit, ← hled'.jobs]
    exact hleft
  · rw [IoRing.pending_resubmit, Multiset.card_cons]
    exact hb
  · intro h
    simp [hpc] at h
  · intro _ _
    rfl

theorem Inv.readDone (hi : Inv source size s) (hpc : s.pc = .comp) {c : Cqe Req}
    {cs : List (Cqe Req)} (hcq : s.ring.cq = c :: cs) {d : IoData}
    (hd : s.heap.cell c.req.data = some d) (he : c.res.toNat = d.iov.iovLen)
    (hr : d.read = true) (posted : List Io) :
    Inv source size { s with
      gotComp := true
      heap := s.heap.put c.req.data d.toWrite
      ring := s.ring.resubmit ⟨false, d.firstOffset, c.req.data⟩
      posted := posted
      writeLeft := s.writeLeft - d.firstLen
      reads := s.reads - 1
      writes := s.writes + 1 } ∧
    readJobs s.heap s.ring.pending = (d.firstOffset, d.firstLen) ::ₘ
      readJobs (s.heap.put c.req.data d.toWrite)
        (s.ring.resubmit ⟨false, d.firstOffset, c.req.data⟩).pending := by
  have hP := IoRing.pending_advance hcq
  obtain ⟨hled, hleft, hb⟩ := hi.pick hP
  have hcnt := hi.counters
  rw [hP, Multiset.card_cons] at hcnt
  obtain ⟨hpos, J, hJ, hled'⟩ := hled.toWrite hd hr he
  rw [hJ, loadOf_cons] at hleft
  have h1 := toNat_sub_one hpos
  have h2 := toNat_add_one (show s.writes.toNat < depth by omega)
  refine ⟨{ hi with
    ledger := ?_, left := ?_, bound := ?_, fresh := ?_, flushed := ?_, drained := ?_
    exited := ?_ }, by rw [hP, hJ, IoRing.pending_resubmit, ← hled'.jobs]⟩
  · rw [IoRing.pending_resubmit, h1, h2, ← hled'.jobs]
    exact hled'
  · rw [IoRing.pending_resubmit, ← hled'.jobs]
    simp only
    omega
  · rw [IoRing.pending_resubmit, Multiset.card_cons]
    exact hb
  · intro h
    simp [hpc] at h
  · intro _ _
    rfl
  · intro h
    simp [hpc] at h
  · intro h
    simp [hpc] at h

/-- A write is over and its record freed, by either loop. -/
theorem Inv.freed (hi : Inv source size s) (hpc : s.pc = .comp ∨ s.pc = .drain) {c : Cqe Req}
    {cs : List (Cqe Req)} (hcq : s.ring.cq = c :: cs) (hr : c.req.read = false) (g : Bool) :
    Inv source size { s with
      gotComp := g
      heap := s.heap.free c.req.data
      ring := s.ring.advance 1
      writes := s.writes - 1 } ∧
    readJobs (s.heap.free c.req.data) (s.ring.advance 1).pending =
      readJobs s.heap s.ring.pending := by
  have hP := IoRing.pending_advance hcq
  obtain ⟨hled, hleft, hb⟩ := hi.pick hP
  obtain ⟨hpos, hled'⟩ := hled.retire hr
  have h1 := toNat_sub_one hpos
  refine ⟨{ hi with ledger := ?_, left := ?_, bound := ?_, exited := ?_ },
    by rw [hP, ← hled'.jobs]⟩
  · rw [h1, ← hled'.jobs]
    exact hled'
  · rw [← hled'.jobs]
    exact hleft
  · simp only
    omega
  · intro h
    rcases hpc with hpc | hpc <;> simp [hpc] at h

theorem Inv.queued (hi : Inv source size s) (junk : Nat → UInt8) (hpc : s.pc = .fill)
    (hne : s.insize ≠ 0) (hfull : ¬ s.reads + s.writes ≥ depth.toUInt64) (posted : List Io) :
    Inv source size { s with
      insize := s.insize - thisSize s.insize
      offset := s.offset + thisSize s.insize
      reads := s.reads + 1
      heap := s.heap.alloc
        ⟨true, s.offset, s.offset, thisSize s.insize, ⟨0, thisSize s.insize⟩, junk⟩
      ring := { s.ring with sq := s.ring.sq ++ [⟨true, s.offset, s.heap.next⟩] }
      queued := s.queued ++ [(s.offset, thisSize s.insize)]
      posted := posted } ∧
    readJobs (s.heap.alloc
        ⟨true, s.offset, s.offset, thisSize s.insize, ⟨0, thisSize s.insize⟩, junk⟩)
      (IoRing.pending { s.ring with sq := s.ring.sq ++ [⟨true, s.offset, s.heap.next⟩] }) =
      (s.offset, thisSize s.insize) ::ₘ readJobs s.heap s.ring.pending := by
  have hB : 0 < bufSize := by decide
  have hcnt := hi.counters
  have hroom : s.reads.toNat + s.writes.toNat < depth :=
    toNat_add_lt (by rw [hcnt]; exact hi.bound) hfull
  have hts := thisSize_eq s.insize
  have htot := hi.total
  have hins : s.insize = size - s.offset := by omega
  have hleft := hi.left
  have h1 := toNat_add_one (show s.reads.toNat < depth by omega)
  have hled := hi.ledger.start junk (thisSize s.insize) s.offset (by omega)
  refine ⟨{ hi with
    ledger := ?_, left := ?_, bound := ?_, cut := ?_, total := ?_
    fresh := ?_, flushed := ?_, drained := ?_, exited := ?_ },
    by rw [IoRing.pending_prep, ← hled.jobs]⟩
  · rw [IoRing.pending_prep, h1, ← hled.jobs]
    exact hled
  · rw [IoRing.pending_prep, ← hled.jobs, loadOf_cons]
    simp only
    omega
  · rw [IoRing.pending_prep, Multiset.card_cons]
    omega
  · have hc := hi.cut.snoc (show s.offset < size by omega)
    rw [← hins, ← hts] at hc
    exact hc
  · simp only
    omega
  · intro _
    have := hi.fresh (.inl hpc)
    rw [h1]
    simp only [List.length_append, List.length_singleton]
    omega
  · intro h
    exact absurd hpc h
  · intro h
    simp [hpc] at h
  · intro h
    simp [hpc] at h

/-- Behind the main loop every request is in its write phase. -/
theorem Inv.drain_write (hi : Inv source size s) (hpc : s.pc = .drain ∨ s.pc = .ret 0) {c : Cqe Req}
    (hc : c ∈ s.ring.pending) : c.req.read = false := by
  obtain ⟨hin, hwl⟩ := hi.drained hpc
  have hleft := hi.left
  exact hi.ledger.flight.no_reads (by omega) c hc

/-- Control moves on with nothing queued; the requests and the counters stay. -/
theorem Inv.moved (hi : Inv source size s) {pc : Pc}
    (hpc : pc = .comp ∨ pc = .outer ∨ pc = .ret 1) (hsq : s.ring.sq = []) (g : Bool) :
    Inv source size { s with pc := pc, gotComp := g } :=
  { hi with
    fresh := fun h => by rcases hpc with rfl | rfl | rfl <;> simp at h
    flushed := fun _ _ => hsq
    drained := fun h => by rcases hpc with rfl | rfl | rfl <;> simp at h
    exited := fun h => by rcases hpc with rfl | rfl | rfl <;> simp at h
    noFault := by rcases hpc with rfl | rfl | rfl <;> simp }

/-- Every transition keeps the invariant. -/
theorem inv_step (hi : Inv source size s) (ht : Trans source s a s') : Inv source size s' := by
  cases ht with
  | failed i q res ha hq hres =>
    obtain ⟨d, hd⟩ := hi.ready.live _ (IoRing.mem_pending_of_inflight (List.mem_of_getElem? hq))
    exact (hi.completed res hq hd fun P J hl hj =>
      hl.keep_req hd rfl rfl (hj.fail hres) (Gains.refl _ _) hl.flight.dest_le).1
  | loaded i q d res ha hq hd h0 hle hr hlen =>
    exact (hi.loaded hq hd hle hr hlen).1
  | written i q d res ha hq hd h0 hle hr =>
    exact (hi.written hq hd hle hr).1
  | enter hpc hw =>
    have hsq := hi.flushed (by simp [hpc]) (by simp [hpc])
    exact { hi with
      fresh := fun _ => by simp [hsq]
      flushed := fun h => absurd rfl h
      drained := fun h => by simp at h
      exited := fun h => by simp at h
      noFault := by simp }
  | leave hpc hin hw =>
    exact { hi with
      fresh := fun h => by simp at h
      flushed := fun _ _ => hi.flushed (by simp [hpc]) (by simp [hpc])
      drained := fun _ => ⟨hin, hw⟩
      exited := fun h => by simp at h
      noFault := by simp }
  | filled hpc why =>
    exact { hi with
      fresh := fun _ => hi.fresh (.inl hpc)
      flushed := fun _ h => absurd rfl h
      drained := fun h => by simp at h
      exited := fun h => by simp at h
      noFault := by simp }
  | queued junk hpc hne hfull hroom => exact (hi.queued junk hpc hne hfull _).1
  | submitted hpc hh =>
    have hp := IoRing.pending_submit_all s.ring
    rw [IoRing.submit_all] at hp
    refine { hi with
      ledger := ?_, left := ?_, bound := ?_
      fresh := fun h => by simp at h
      flushed := fun _ _ => rfl
      drained := fun h => by simp at h
      exited := fun h => by simp at h
      noFault := by simp }
    · rw [hp]
      exact hi.ledger
    · rw [hp]
      exact hi.left
    · rw [hp]
      exact hi.bound
  | skipped hpc hh =>
    -- `had_reads = reads` says that this turn has queued nothing
    have hsq : s.ring.sq = [] := by
      have := hi.fresh (.inr hpc)
      rw [hh] at this
      exact List.eq_nil_of_length_eq_zero (by omega)
    exact hi.moved (.inl rfl) hsq false
  | compDone hpc hw =>
    exact hi.moved (.inr (.inl rfl)) (hi.flushed (by simp [hpc]) (by simp [hpc])) s.gotComp
  | idle hpc hw hg =>
    exact hi.moved (.inr (.inl rfl)) (hi.flushed (by simp [hpc]) (by simp [hpc])) s.gotComp
  | error hpc g why =>
    have hsq : s.ring.sq = [] := by
      rcases hpc with h | h <;> exact hi.flushed (by simp [h]) (by simp [h])
    exact hi.moved (.inr (.inr rfl)) hsq g
  | again c cs d hpc hw hcq hd hres =>
    have h := hi.requeued (q := ⟨d.read, d.offset, c.req.data⟩) hpc hcq
      (s.posted ++ [⟨d.read, d.offset, d.iov.iovLen⟩]) hd rfl rfl rfl rfl
      (fun hj => hj.again (Int.le_refl 0))
    rw [Heap.put_eq_self hd] at h
    exact h
  | short c cs d hpc hw hcq hd hres hne =>
    exact hi.requeued hpc hcq _ hd rfl rfl rfl rfl (fun hj => hj.resume hne)
  | readDone c cs d hpc hw hcq hd hres he hr => exact (hi.readDone hpc hcq hd he hr _).1
  | writeDone c cs d hpc hw hcq hd hres he hr =>
    have hj := hi.ledger.flight.owned.ok_of_mem (IoRing.head_mem_pending hcq) hd
    exact (hi.freed (.inl hpc) hcq (by rw [hj.read, hr]) true).1
  | drained hpc hw =>
    exact { hi with
      fresh := fun h => by simp at h
      flushed := fun _ _ => hi.flushed (by simp [hpc]) (by simp [hpc])
      drained := fun _ => hi.drained (.inl hpc)
      exited := fun _ => hw
      noFault := by simp }
  | drainDone b c cs d ha hpc hw hcq hd hres =>
    have hr := hi.drain_write (.inl hpc) (IoRing.head_mem_pending hcq)
    exact (hi.freed (.inr hpc) hcq hr s.gotComp).1

theorem inv_init (source : List UInt8) (size : Nat) : Inv source size (init size) where
  ledger := ⟨Flight.empty source, rfl, rfl, rfl⟩
  left := (Int.add_zero _).symm
  bound := Nat.zero_le _
  entries := rfl
  cut := Cut.nil _ _
  total := Nat.zero_add _
  fresh := fun h => by simp [init] at h
  flushed := fun _ _ => rfl
  drained := fun h => by simp [init] at h
  exited := fun h => by simp [init] at h
  noFault := by simp [init]

/-- Every run in which the submits take all requests keeps the invariant. -/
theorem inv_run {acts : List Act} (hsub : ∀ a ∈ acts, a.SubmitsAll)
    (hr : run (step source) (init size) acts = some s) : Inv source size s :=
  run_inv (P := fun _ a => a.SubmitsAll)
    (fun _ _ _ hi ha hs => inv_step hi (step_trans hi.ready ha hs)) (inv_init source size)
    (along_of_forall (fun _ _ h => h) _ _ hsub) hr

end Step

/-! ## The accounting invariant -/

/-- The live records in the read phase (`true`) or the write phase (`false`). -/
def phase (h : Heap IoData) (read : Bool) : Finset Nat :=
  (Finset.range h.next).filter fun p => (h.cell p).map IoData.read = some read

/-- The program is in the main loop. -/
def MainLoop (s : State) : Prop :=
  s.pc = .outer ∨ s.pc = .fill ∨ s.pc = .submit ∨ s.pc = .comp

/-- What holds in the main loop of a copy of `size` bytes. -/
structure Accounted (size : Nat) (s : State) : Prop where
  total : s.offset + s.insize = size
  /-- The chunks passed to `queue_read` follow each other. -/
  consecutive : ∀ (i : Nat) (c c' : Nat × Nat), s.queued[i]? = some c →
    s.queued[i + 1]? = some c' → c.1 + c.2 = c'.1
  disjoint : s.queued.Pairwise fun c c' => c.1 + c.2 ≤ c'.1
  sizes : ∀ c ∈ s.queued, 0 < c.2 ∧ c.2 ≤ bufSize
  cover : ∀ p, p < s.offset ↔ ∃ c ∈ s.queued, c.1 ≤ p ∧ p < c.1 + c.2
  /-- Every live record is the user data of exactly one outstanding request. -/
  outstanding : ∀ p, (s.heap.cell p).isSome = true ↔ ∃ c ∈ s.ring.pending, c.req.data = p
  once : (s.ring.pending.map fun c => c.req.data).Nodup
  reads : s.reads.toNat = (phase s.heap true).card
  writes : s.writes.toNat = (phase s.heap false).card
  left : s.writeLeft = s.insize + ((∑ p ∈ phase s.heap true, (chunkOf s.heap p).2 : Nat) : Int)
  inDepth : s.reads.toNat + s.writes.toNat ≤ depth
  /-- No decrement of the next completion wraps or goes below 0. -/
  noUnderflow : ∀ c d, s.ring.cq.head? = some c → s.heap.cell c.req.data = some d →
    (d.read = true → 0 < s.reads.toNat ∧ (d.firstLen : Int) ≤ s.writeLeft) ∧
      (d.read = false → 0 < s.writes.toNat)
  nonneg : 0 ≤ s.writeLeft
  /-- `queue_read` finds a free entry when the fill loop calls it, and so does `queue_prepped`,
      which only the completion loop calls. -/
  slotRead : s.pc = .fill → s.insize ≠ 0 → ¬ s.reads + s.writes ≥ depth.toUInt64 →
    s.ring.sq.length < s.ring.entries
  slotPrepped : s.pc = .comp → s.ring.sq.length < s.ring.entries
  entries : s.ring.entries = depth

section Accounted

variable {source dest : List UInt8} {size : Nat} {s : State} {h : Heap IoData}
  {P : Multiset (Cqe Req)}

/-- The records of a phase are the user data of the requests of that phase. -/
theorem Flight.phase_val (hf : Flight source h P dest) (b : Bool) :
    (phase h b).val = (P.filter fun c => c.req.read = b).map fun c => c.req.data := by
  have hn : ((P.filter fun c => c.req.read = b).map fun c => c.req.data).Nodup :=
    Multiset.nodup_of_le (Multiset.map_le_map (Multiset.filter_le _ _)) hf.owned.nodup
  rw [Multiset.Nodup.ext (phase h b).nodup hn]
  intro p
  simp only [phase, Finset.mem_val, Finset.mem_filter, Finset.mem_range, Multiset.mem_map,
    Multiset.mem_filter, Option.map_eq_some_iff]
  constructor
  · rintro ⟨-, d, hd, hb⟩
    obtain ⟨c, hc, rfl⟩ := hf.owned.live p d hd
    obtain ⟨d₁, hd₁, hj⟩ := hf.job hc
    obtain rfl : d = d₁ := Option.some.inj (hd.symm.trans hd₁)
    exact ⟨c, ⟨hc, by rw [hj.read, hb]⟩, rfl⟩
  · rintro ⟨c, ⟨hc, hb⟩, rfl⟩
    obtain ⟨d, hd, hj⟩ := hf.job hc
    exact ⟨Heap.lt_next hd, d, hd, by rw [← hj.read, hb]⟩

theorem Flight.card_phase (hf : Flight source h P dest) (b : Bool) :
    (phase h b).card = P.countP fun c => c.req.read = b := by
  rw [Finset.card_def, hf.phase_val, Multiset.card_map, Multiset.countP_eq_card_filter]

theorem Flight.sum_phase (hf : Flight source h P dest) :
    ∑ p ∈ phase h true, (chunkOf h p).2 = loadOf (readJobs h P) := by
  rw [Finset.sum, hf.phase_val, Multiset.map_map, loadOf, readJobs, Multiset.map_map]
  rfl

/-- The next `io_uring_get_sqe`, if the program calls it in its next step, finds a free entry:
    `queue_read` in the fill loop, and `queue_prepped`, which only the completion loop calls. -/
def Slot (s : State) : Prop :=
  (s.pc = .fill → s.insize ≠ 0 → ¬ s.reads + s.writes ≥ depth.toUInt64 →
    s.ring.sq.length < s.ring.entries) ∧ (s.pc = .comp → s.ring.sq.length < s.ring.entries)

theorem Inv.slot (hi : Inv source size s) : Slot s ∧ s.ring.sq.length ≤ depth := by
  have hcnt := hi.counters
  have hb := hi.bound
  have hle := IoRing.length_sq_le_card s.ring
  refine ⟨⟨?_, ?_⟩, by omega⟩
  · intro hpc hne hfull
    have := toNat_add_lt (by omega) hfull
    rw [hi.entries]
    omega
  · intro hpc
    rw [hi.ready.room hpc, hi.entries]
    decide

theorem Inv.accounted (hi : Inv source size s) : Accounted size s := by
  have hB : 0 < bufSize := by decide
  have hf := hi.ledger.flight
  have hleft := hi.left
  have hcnt := hi.counters
  have hb := hi.bound
  refine ⟨hi.total, fun i c c' => hi.cut.consecutive, hi.cut.disjoint, fun c => hi.cut.size hB,
    hi.cut.cover hB, ?_, hf.owned.nodup, ?_, ?_, ?_, by omega, ?_, by omega,
    hi.slot.1.1, hi.slot.1.2, hi.entries⟩
  · intro p
    rw [Option.isSome_iff_exists]
    constructor
    · rintro ⟨d, hd⟩
      exact hf.owned.live p d hd
    · rintro ⟨c, hc, rfl⟩
      exact hi.ready.live c hc
  · rw [hf.card_phase]
    exact hi.ledger.reads
  · rw [hf.card_phase]
    exact hi.ledger.writes
  · rw [hf.sum_phase]
    omega
  · intro c d hc hd
    obtain ⟨cs, hcq⟩ := List.head?_eq_some_iff.mp hc
    have hm : c ∈ s.ring.pending :=
      IoRing.head_mem_pending hcq
    obtain ⟨d₁, hd₁, hj⟩ := hf.job hm
    obtain rfl : d = d₁ := Option.some.inj (hd.symm.trans hd₁)
    obtain ⟨Q, hQ⟩ := Multiset.exists_cons_of_mem hm
    have h1 := hi.ledger.reads
    have h2 := hi.ledger.writes
    rw [hQ, readsOf_cons, hj.read] at h1
    rw [hQ, writesOf_cons, hj.read] at h2
    refine ⟨fun hr => ⟨?_, ?_⟩, fun hr => ?_⟩
    · rw [if_pos hr] at h1
      omega
    · rw [hQ, readJobs_cons_read _ _ (by rw [hj.read, hr]), chunkOf_of_cell hd, loadOf_cons] at hleft
      simp only at hleft
      omega
    · rw [if_pos hr] at h2
      omega

/-- **Accounting.** In every state that a run of `copy_file` reaches in its main loop, whatever the
    order and the results of the completions, the five counters agree with each other and with the
    records under way, as long as the submits take all queued requests; the loop is left with no
    read outstanding, and nothing faults. -/
theorem copyFile_accounting (source : List UInt8) (size : Nat) (acts : List Act) (s : State)
    (hsub : ∀ a ∈ acts, a.SubmitsAll) (hr : run (step source) (init size) acts = some s) :
    (MainLoop s → Accounted size s) ∧ (s.pc = .drain → s.reads = 0) ∧ s.pc ≠ .fault := by
  have hi := inv_run hsub hr
  refine ⟨fun _ => hi.accounted, fun hpc => ?_, hi.noFault⟩
  have h0 : s.reads.toNat = 0 := by
    rw [hi.ledger.reads, readsOf, Multiset.countP_eq_zero]
    intro c hc hr
    rw [hi.drain_write (.inl hpc) hc] at hr
    cases hr
  exact UInt64.toNat_inj.mp h0

/-- Two bytes, the read of which first completes with `-EAGAIN` and then short. -/
def retried : List Act :=
  [.prog {}, .prog {}, .prog {}, .prog {}, .complete 0 (-11), .prog {}, .complete 0 1, .prog {}]

theorem copyFile_accounting_retried :
    ∃ s, run (step [7, 8]) (init 2) retried = some s ∧ s.pc = .comp ∧ s.reads = 1 ∧
      Accounted 2 s := by
  have hrun : (run (step [7, 8]) (init 2) retried).map (fun s => (s.pc, s.reads)) =
      some (.comp, 1) := by decide
  obtain ⟨s, hs, he⟩ := Option.map_eq_some_iff.mp hrun
  obtain ⟨hpc, hreads⟩ := Prod.mk.inj he
  have h := copyFile_accounting [7, 8] 2 retried s (by simp [retried, Act.SubmitsAll]) hs
  exact ⟨s, hs, hpc, hreads, h.1 (.inr (.inr (.inr hpc)))⟩

end Accounted

end KernelMagic.FileUring2
