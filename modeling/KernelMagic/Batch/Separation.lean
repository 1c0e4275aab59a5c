/-
  The two phases of a batch. Reads and writes share one completion queue, and the two receive loops
  tell their completions apart by counting. `Apart` is the invariant that makes the counting right: a
  batch begins with nothing left of the one before; while its reads are taken the writes prepared for
  it are only queued; and when as many completions have been taken as there were reads, the rest are
  its writes.

  A batch is left behind only if `write_cqe_recv` returns early. That does no harm in the last batch,
  nor when nothing is outstanding (`CleanReturn`). Otherwise what is outstanding comes back in the next
  batch (`batch_late_write`), where `read_cqe_recv` takes it for a read.
-/
import KernelMagic.Batch.Sound

namespace KernelMagic.Batch

open KernelMagic.Lib

/-- The records of the current batch after this step: `main` starts a new batch when
    `write_cqe_recv` returns. -/
def nextBatch (g : List Nat) (s : State) : Act → List Nat
  | .complete _ _ => g
  | .prog b =>
    match s.pc with
    | .top => if 0 < s.insize then g ++ [s.heap.next] else g
    | .writeRecv => if (writeTakes s (.prog b)).any fun c => 0 ≤ c.res then g else []
    | _ => g

def batchIn (prg : Program) (source : List UInt8) (st : Stat) (acts : List Act) : List Nat :=
  record (step prg source) nextBatch [] (init st) acts

/-- If `write_cqe_recv` returns early in this step, no batch follows or nothing is outstanding. -/
def CleanReturn (s : State) : Act → Prop
  | .complete _ _ => True
  | .prog b => s.pc = .writeRecv → s.i < s.writes →
      (0 ≤ b.cqeErr ∧ ∀ c ∈ s.ring.cq.head?, 0 ≤ c.res) ∨ s.insize ≤ 0 ∨ s.ring.requests = 0

instance : (s : State) → (a : Act) → Decidable (CleanReturn s a)
  | _, .complete _ _ => isTrue trivial
  | s, .prog b => inferInstanceAs (Decidable (s.pc = .writeRecv → s.i < s.writes →
      (0 ≤ b.cqeErr ∧ ∀ c ∈ s.ring.cq.head?, 0 ≤ c.res) ∨ s.insize ≤ 0 ∨ s.ring.requests = 0))

/-- The requests in the read phase. -/
def readsOf (R : Multiset Req) : Nat := R.countP fun q => q.read = true

/-! ## The phases -/

/-- A batch is being collected. -/
structure Gathered (g : List Nat) (s : State) : Prop where
  own : ∀ q ∈ s.ring.requests, q.data ∈ g
  kind : ∀ q ∈ s.ring.requests, q.read = true
  card : s.ring.requests.card = s.reads

/-- Its reads are taken; what is not with the kernel yet may be a write. -/
structure ReadPhase (g : List Nat) (s : State) : Prop where
  own : ∀ q ∈ s.ring.requests, q.data ∈ g
  kindInflight : ∀ q ∈ s.ring.inflight, q.read = true
  kindCq : ∀ c ∈ s.ring.cq, c.req.read = true
  reads : s.reads = 0
  count : readsOf s.ring.requests + s.i = s.writes
  card : s.ring.requests.card ≤ s.writes

/-- Its writes are taken, `k` of them so far. -/
structure WritePhase (g : List Nat) (k : Nat) (s : State) : Prop where
  own : ∀ q ∈ s.ring.requests, q.data ∈ g
  kind : ∀ q ∈ s.ring.requests, q.read = false
  reads : s.reads = 0
  card : s.ring.requests.card + k ≤ s.writes

def Apart (g : List Nat) (s : State) : Prop :=
  match s.pc with
  | .top => s.insize ≤ 0 ∨ Gathered g s
  | .last => s.insize ≤ 0 ∨ Gathered g s
  | .submit => Gathered g s
  | .readRecv => ReadPhase g s
  | .readSubmit => WritePhase g 0 s
  | .writeRecv => WritePhase g s.i s
  | .exit _ => True
  | .fault => True

variable {prg : Program} {source : List UInt8} {st : Stat} {s s' : State} {a : Act} {g : List Nat}

theorem readsOf_cons (q : Req) (R : Multiset Req) :
    readsOf (q ::ₘ R) = readsOf R + if q.read = true then 1 else 0 :=
  Multiset.countP_cons _ _ _

/-! ## One step -/

/-- The read of a chunk is queued. -/
theorem Gathered.queue (hg : Gathered g s) {q : Req} (hq : q.read = true)
    (h1 : s'.ring = { s.ring with sq := s.ring.sq ++ [q] }) (h2 : s'.reads = s.reads + 1) :
    Gathered (g ++ [q.data]) s' := by
  have hreq : s'.ring.requests = q ::ₘ s.ring.requests := by rw [h1, IoRing.requests_prep]
  refine ⟨?_, ?_, ?_⟩
  · rw [hreq, Multiset.forall_mem_cons]
    exact ⟨by simp, fun x hx => List.mem_append_left _ (hg.own x hx)⟩
  · rw [hreq, Multiset.forall_mem_cons]
    exact ⟨hq, hg.kind⟩
  · rw [hreq, Multiset.card_cons, hg.card, h2]

/-- The batch is submitted, or some of it. -/
theorem Gathered.submit (hg : Gathered g s) (b : Answers)
    (h1 : s'.ring = (s.ring.submit b.submit).1) (h2 : s'.reads = 0) (h3 : s'.writes = s.reads)
    (h4 : s'.i = 0) : ReadPhase g s' := by
  have hreq : s'.ring.requests = s.ring.requests := by rw [h1, IoRing.requests_submit]
  have hall : readsOf s.ring.requests = s.ring.requests.card :=
    Multiset.countP_eq_card.mpr hg.kind
  refine ⟨?_, fun q hq => ?_, fun c hc => ?_, h2, ?_, ?_⟩
  · rw [hreq]
    exact hg.own
  · exact hg.kind q (hreq ▸ IoRing.mem_requests_of_inflight hq)
  · exact hg.kind c.req (hreq ▸ IoRing.mem_requests_of_cq hc)
  · rw [hreq, hall, hg.card, h3, h4, Nat.add_zero]
  · rw [hreq, hg.card, h3]

/-- A batch of which nothing is left. -/
theorem gathered_of_zero (h1 : s.ring.requests = 0) (h2 : s.reads = 0) : Gathered g s := by
  refine ⟨?_, ?_, ?_⟩
  · rw [h1]
    exact fun q hq => absurd hq (Multiset.notMem_zero q)
  · rw [h1]
    exact fun q hq => absurd hq (Multiset.notMem_zero q)
  · rw [h1, h2, Multiset.card_zero]

theorem Gathered.congr (hg : Gathered g s) (h1 : s'.ring.requests = s.ring.requests)
    (h2 : s'.reads = s.reads) : Gathered g s' := by
  refine ⟨?_, ?_, ?_⟩
  · rw [h1]
    exact hg.own
  · rw [h1]
    exact hg.kind
  · rw [h1, h2]
    exact hg.card

theorem WritePhase.congr {k : Nat} (hw : WritePhase g k s)
    (h1 : s'.ring.requests = s.ring.requests) (h2 : s'.reads = s.reads)
    (h3 : s'.writes = s.writes) : WritePhase g k s' := by
  refine ⟨?_, ?_, h2.trans hw.reads, ?_⟩
  · rw [h1]
    exact hw.own
  · rw [h1]
    exact hw.kind
  · rw [h1, h3]
    exact hw.card

/-- A completion by the kernel leaves the requests as they are. -/
theorem Apart.complete (hp : Apart g s) {i : Nat} {q : Req} (hq : s.ring.inflight[i]? = some q)
    (res : Int) (h : Heap FileData) (dest : List UInt8) :
    Apart g { s with
      ring := { s.ring with inflight := s.ring.inflight.eraseIdx i, cq := s.ring.cq ++ [⟨q, res⟩] }
      heap := h
      dest := dest } := by
  have hreq := IoRing.requests_complete hq res
  cases hpc : s.pc with
  | top =>
    simp only [Apart, hpc] at hp ⊢
    exact hp.imp_right fun hg => hg.congr hreq rfl
  | last =>
    simp only [Apart, hpc] at hp ⊢
    exact hp.imp_right fun hg => hg.congr hreq rfl
  | submit =>
    simp only [Apart, hpc] at hp ⊢
    exact hp.congr hreq rfl
  | readRecv =>
    simp only [Apart, hpc] at hp ⊢
    have hmem := List.mem_of_getElem? hq
    refine ⟨?_, fun r hr => hp.kindInflight r (List.mem_of_mem_eraseIdx hr), ?_, hp.reads, ?_, ?_⟩
    · simp only [hreq]
      exact hp.own
    · exact List.forall_mem_append.mpr
        ⟨hp.kindCq, List.forall_mem_singleton.mpr (hp.kindInflight q hmem)⟩
    · simp only [hreq]
      exact hp.count
    · simp only [hreq]
      exact hp.card
  | readSubmit =>
    simp only [Apart, hpc] at hp ⊢
    exact hp.congr hreq rfl rfl
  | writeRecv =>
    simp only [Apart, hpc] at hp ⊢
    exact hp.congr hreq rfl rfl
  | exit n => trivial
  | fault => trivial

/-- A completion of the read phase, with or without a write in its place. -/
theorem ReadPhase.take (hp : ReadPhase g s) {c : Cqe Req} {cs : List (Cqe Req)}
    (hcq : s.ring.cq = c :: cs) (h1 : s'.ring.inflight = s.ring.inflight)
    (h2 : s'.ring.cq = cs) (h3 : s'.ring.requests = (s.ring.advance 1).requests ∨
      ∃ q, q.read = false ∧ q.data = c.req.data ∧
        s'.ring.requests = q ::ₘ (s.ring.advance 1).requests)
    (h4 : s'.i = s.i + 1) (h5 : s'.reads = s.reads) (h6 : s'.writes = s.writes) :
    ReadPhase g s' := by
  have hP := IoRing.requests_advance hcq
  have hown := hp.own
  have hcount := hp.count
  have hcard := hp.card
  have hread : c.req.read = true := hp.kindCq c (IoRing.head_mem_cq hcq)
  rw [hP, Multiset.forall_mem_cons] at hown
  rw [hP, readsOf_cons, if_pos hread] at hcount
  rw [hP, Multiset.card_cons] at hcard
  have hinf : ∀ q ∈ s'.ring.inflight, q.read = true := by
    rw [h1]
    exact hp.kindInflight
  have hcq' : ∀ e ∈ s'.ring.cq, e.req.read = true := by
    rw [h2]
    exact fun e he => hp.kindCq e (by rw [hcq]; exact List.mem_cons_of_mem _ he)
  rcases h3 with hreq | ⟨q, hq, hdata, hreq⟩
  · refine ⟨?_, hinf, hcq', h5.trans hp.reads, ?_, ?_⟩
    · rw [hreq]
      exact hown.2
    · rw [hreq, h4, h6]
      omega
    · rw [hreq, h6]
      omega
  · refine ⟨?_, hinf, hcq', h5.trans hp.reads, ?_, ?_⟩
    · rw [hreq, Multiset.forall_mem_cons, hdata]
      exact hown
    · rw [hreq, readsOf_cons, if_neg (by simp [hq]), h4, h6]
      omega
    · rw [hreq, Multiset.card_cons, h6]
      omega

theorem apart_step (hp : Apart g s) (hc : CleanReturn s a) (hm : Move prg source s a s') :
    Apart (nextBatch g s a) s' := by
  cases hm with
  | completed i q d d' dest res ha hq hd ht =>
    subst ha
    exact hp.complete hq res _ _
  | ended b pc ha hpc r hr why hfree => rcases hpc with rfl | rfl <;> trivial
  | queued b junk ha hpc hi hopen hmore hroom =>
    subst ha
    simp only [Apart, hpc] at hp
    have hg : Gathered g s := hp.resolve_left (by omega)
    simp only [nextBatch, hpc, hi, if_true]
    exact .inr (hg.queue (q := ⟨true, s.offset, (chunkSize s.insize).toNat, s.heap.next⟩) rfl rfl rfl)
  | closed b junk ha hpc hi hlast hroom =>
    subst ha
    simp only [Apart, hpc] at hp
    have hg : Gathered g s := hp.resolve_left (by omega)
    simp only [nextBatch, hpc, hi, if_true]
    exact hg.queue (q := ⟨true, s.offset, (chunkSize s.insize).toNat, s.heap.next⟩) rfl rfl rfl
  | skipped b ha hpc hi => exact .inl hi
  | submitted b ha hpc hret =>
    subst ha
    simp only [Apart, hpc] at hp
    simp only [nextBatch, hpc]
    exact hp.submit b rfl rfl rfl rfl
  | readFailed b c cs d ha hpc hi ht hcq hd hres =>
    subst ha
    simp only [Apart, hpc] at hp ⊢
    simp only [nextBatch, hpc]
    exact hp.take hcq rfl (by simp [IoRing.advance, hcq]) (.inl rfl) rfl rfl rfl
  | readDone b c cs d ha hpc hi ht hcq hd hres hroom =>
    subst ha
    simp only [Apart, hpc] at hp ⊢
    simp only [nextBatch, hpc]
    exact hp.take hcq rfl (by simp [IoRing.advance, hcq])
      (.inr ⟨⟨false, d.offset, prg.writeLen d c.res.toNat, c.req.data⟩, rfl, rfl,
        IoRing.requests_prep (s.ring.advance 1) _⟩) rfl rfl rfl
  | readEnd b ha hpc hi =>
    subst ha
    simp only [Apart, hpc] at hp
    simp only [nextBatch, hpc]
    have hcount := hp.count
    have hzero : readsOf s.ring.requests = 0 := by omega
    refine ⟨hp.own, fun q hq => ?_, hp.reads, hp.card⟩
    have hne := Multiset.countP_eq_zero.mp hzero q hq
    simpa using hne
  | submittedWrites b ha hpc hret =>
    subst ha
    simp only [Apart, hpc] at hp
    simp only [nextBatch, hpc]
    exact hp.congr (IoRing.requests_submit s.ring b.submit) rfl rfl
  | writeDone b c cs d ha hpc hi ht hcq hd hres =>
    have hstay : nextBatch g s a = g := by
      subst ha
      simp [nextBatch, hpc, ht, hres]
    rw [hstay]
    simp only [Apart, hpc] at hp ⊢
    have hP := IoRing.requests_advance hcq
    obtain ⟨hown, hkind, hreads, hcard⟩ := hp
    rw [hP, Multiset.forall_mem_cons] at hown hkind
    rw [hP, Multiset.card_cons] at hcard
    exact ⟨hown.2, hkind.2, hreads, by simp only; omega⟩
  | writeStop b ha hpc hi why ht =>
    subst ha
    simp only [Apart, hpc] at hp
    rcases hc hpc hi with ⟨herr, hhead⟩ | hin | hreq
    · rcases why with h | ⟨c, hcq, hneg⟩
      · omega
      · have := hhead c hcq
        omega
    · exact .inl hin
    · exact .inr (gathered_of_zero hreq hp.reads)
  | writeEnd b ha hpc hi =>
    simp only [Apart, hpc] at hp
    have hcard := hp.card
    have hreq : s.ring.requests = 0 := Multiset.card_eq_zero.mp (by omega)
    exact .inr (gathered_of_zero hreq hp.reads)
  | stop b ha hpc ho => trivial
  | again b ha hpc ho =>
    subst ha
    simp only [Apart, hpc] at hp
    simp only [nextBatch, hpc]
    exact hp.imp_right fun hg => hg.congr rfl rfl

theorem apart_run {acts : List Act} (hr : run (step prg source) (init st) acts = some s)
    (hc : Along (step prg source) CleanReturn (init st) acts) :
    Apart (batchIn prg source st acts) s :=
  (record_inv (I := fun g s => Sound s ∧ Apart g s) hr hc
    ⟨sound_init st, .inr (gathered_of_zero rfl rfl)⟩
    fun _ _ _ _ hi hca h => ⟨sound_next hi.1 h, apart_step hi.2 hca (step_move hi.1.alive h)⟩).2

/-! ## Runs -/

theorem mem_readTakes {b : Answers} {c : Cqe Req} (hc : c ∈ readTakes s (.prog b)) :
    s.pc = .readRecv ∧ c ∈ s.ring.cq := by
  simp only [readTakes] at hc
  split at hc
  · next h => exact ⟨h.1, List.mem_of_mem_head? hc⟩
  · cases hc

theorem mem_writeTakes {b : Answers} {c : Cqe Req} (hc : c ∈ writeTakes s (.prog b)) :
    s.pc = .writeRecv ∧ c ∈ s.ring.cq := by
  simp only [writeTakes] at hc
  split at hc
  · next h => exact ⟨h.1, List.mem_of_mem_head? hc⟩
  · cases hc

/-- **Separation.** In every run of either program, of any number of batches, in which
    `write_cqe_recv` does not return early while requests are outstanding and a batch is to follow:
    what `read_cqe_recv` takes up next is a read of the current batch, what `write_cqe_recv` looks at
    next is a write of the current batch, and no request uses a record that has been freed. -/
theorem batch_separation (prg : Program) (source : List UInt8) (st : Stat) (acts : List Act)
    (s : State) (b : Answers) (hr : run (step prg source) (init st) acts = some s)
    (hc : Along (step prg source) CleanReturn (init st) acts) :
    (∀ c ∈ readTakes s (.prog b),
      c.req.read = true ∧ c.req.data ∈ batchIn prg source st acts) ∧
    (∀ c ∈ writeTakes s (.prog b),
      c.req.read = false ∧ c.req.data ∈ batchIn prg source st acts) ∧
    ∀ p ∈ freedIn prg source st acts, ∀ c ∈ s.ring.pending, c.req.data ≠ p := by
  have hp := apart_run hr hc
  refine ⟨fun c hcr => ?_, fun c hcw => ?_, not_freed_run hr⟩
  · obtain ⟨hpc, hmem⟩ := mem_readTakes hcr
    simp only [Apart, hpc] at hp
    exact ⟨hp.kindCq c hmem, hp.own c.req (IoRing.mem_requests_of_cq hmem)⟩
  · obtain ⟨hpc, hmem⟩ := mem_writeTakes hcw
    simp only [Apart, hpc] at hp
    have hreq := IoRing.mem_requests_of_cq hmem
    exact ⟨hp.kind c.req hreq, hp.own c.req hreq⟩

/-- A file of 65 chunks that has been cut to nothing since `fstat`. The first batch is read and written,
    and the read of the second comes back. -/
def twoBatches : List Act :=
  List.replicate 128 (Act.prog {}) ++ List.replicate 64 (Act.complete 0 0) ++
    List.replicate 66 (Act.prog {}) ++ List.replicate 64 (Act.complete 0 0) ++
    List.replicate 68 (Act.prog {}) ++ [Act.complete 0 0]

theorem batch_separation_written :
    ∃ s c, run (step singleBuffer []) (init (.regular 2097153)) twoBatches = some s ∧
      readTakes s (.prog {}) = some c ∧ c.req.offset = 2097152 ∧ c.req.read = true ∧
      c.req.data ∈ batchIn singleBuffer [] (.regular 2097153) twoBatches ∧
      0 ∈ freedIn singleBuffer [] (.regular 2097153) twoBatches := by
  have hrun : (run (step singleBuffer []) (init (.regular 2097153)) twoBatches).bind (fun s =>
      readTakes s (.prog {})) = some ⟨⟨true, 2097152, 1, 64⟩, 0⟩ := by decide +kernel
  obtain ⟨s, hs, htake⟩ := Option.bind_eq_some_iff.mp hrun
  have h := batch_separation singleBuffer [] (.regular 2097153) twoBatches s {} hs
    (by decide +kernel)
  obtain ⟨hread, hown⟩ := h.1 _ htake
  exact ⟨s, _, hs, htake, rfl, hread, hown, by decide +kernel⟩

/-- A file of 65 chunks. In the first batch one byte is read and the other reads fail; the write of
    the byte fails, and `write_cqe_recv` returns. Then the second batch is read. -/
def lateWrite : List Act :=
  List.replicate 128 (Act.prog {}) ++ [Act.complete 0 1] ++
    List.replicate 63 (Act.complete 0 (-5)) ++ List.replicate 66 (Act.prog {}) ++
    [Act.complete 0 (-5)] ++ List.replicate 4 (Act.prog {})

/-- `read_cqe_recv` takes the completion of a write. -/
theorem batch_late_write :
    ∃ s c, run (step singleBuffer (List.replicate 2097153 0))
        (init (.regular (List.replicate 2097153 (0 : UInt8)).length)) lateWrite = some s ∧
      readTakes s (.prog {}) = some c ∧ c.req.read = false := by
  rw [List.length_replicate]
  have hrun : ((run (step singleBuffer (List.replicate 2097153 0)) (init (.regular 2097153))
      lateWrite).bind fun s => (readTakes s (.prog {})).map fun c => c.req.read) = some false := by
    decide +kernel
  obtain ⟨s, hs, htake⟩ := Option.bind_eq_some_iff.mp hrun
  obtain ⟨c, hc, hread⟩ := Option.map_eq_some_iff.mp htake
  exact ⟨s, c, hs, hc, hread⟩

end KernelMagic.Batch
