/-
  The invariant of the batch programs while every request completes with its full length.

  `JobOk` relates a pending request to the record it points to, `Inv` adds the books: the reads
  prepared so far cut the file into chunks up to `reached`, every chunk whose read is not pending any
  more has its write, and every byte before `reached` is copied or held by a record. `inv_step` takes
  it through the transitions; the part about the control is `phase_step`.
-/
import KernelMagic.Lib.Owned
import KernelMagic.Lib.Transfers
import KernelMagic.Batch.Steps

namespace KernelMagic.Batch

open KernelMagic.Lib

/-- The chunk of a record. -/
def FileData.chunk (d : FileData) : Nat × Nat := (d.offset, d.iovLen)

/-- A pending request and its record; the result is 0 until the request is completed. -/
structure JobOk (source dest : List UInt8) (c : Cqe Req) (d : FileData) : Prop where
  offset : c.req.offset = d.offset
  len : c.req.len = d.iovLen
  pos : 0 < d.iovLen
  fit : d.offset + d.iovLen ≤ source.length
  loaded : c.req.read = false ∨ c.res ≠ 0 → Loaded source d.buf d.offset d.iovLen
  copied : c.req.read = false → c.res ≠ 0 → ∀ p, d.offset ≤ p → p < d.offset + d.iovLen →
    Copied source dest p

/-- The chunks that are still being read. -/
def readJobs (P : Multiset (Cqe Req)) : Multiset (Nat × Nat) :=
  (P.filter fun c => c.req.read = true).map fun c => (c.req.offset, c.req.len)

/-- How far the reads go: `offset`, or behind the chunk that is queued at `offset`. -/
def reached (s : State) : Nat :=
  match s.pc with
  | .submit => s.offset + s.thisSize.toNat
  | .readRecv => s.offset + s.thisSize.toNat
  | .readSubmit => s.offset + s.thisSize.toNat
  | _ => s.offset

structure Inv (source : List UInt8) (s : State) : Prop where
  owned : Owned (fun c : Cqe Req => c.req.data) (JobOk source s.dest) s.heap s.ring.pending
  dest_le : s.dest.length ≤ source.length
  entries : s.ring.entries = depth
  full : ∀ c ∈ s.ring.cq, c.res = (c.req.len : Int)
  size : s.fileSz = source.length
  total : (s.offset : Int) + s.insize = source.length
  left : 0 ≤ s.insize
  queued : ∃ cs, Cut bufSize source.length cs (reached s) ∧
    Posted s.posted cs (readJobs s.ring.pending)
  covered : ∀ p < reached s, Copied source s.dest p ∨ Held FileData.chunk s.heap p
  phase : Phase s

theorem chunkSize_eq {n : Int} (h : 0 ≤ n) :
    (chunkSize n).toNat = min bufSize n.toNat ∧ 0 ≤ chunkSize n ∧ chunkSize n ≤ n := by
  have hB : bufSize = 32768 := rfl
  unfold chunkSize
  split <;> omega

theorem readJobs_cons_read {P : Multiset (Cqe Req)} {c : Cqe Req} (h : c.req.read = true) :
    readJobs (c ::ₘ P) = (c.req.offset, c.req.len) ::ₘ readJobs P := by
  unfold readJobs
  rw [Multiset.filter_cons_of_pos (p := fun c : Cqe Req => c.req.read = true) _ h, Multiset.map_cons]

theorem readJobs_cons_write {P : Multiset (Cqe Req)} {c : Cqe Req} (h : c.req.read = false) :
    readJobs (c ::ₘ P) = readJobs P := by
  unfold readJobs
  rw [Multiset.filter_cons_of_neg (p := fun c : Cqe Req => c.req.read = true) _ (by simp [h])]

/-- The result of a request does not matter to the chunks being read. -/
theorem readJobs_cons_req {P : Multiset (Cqe Req)} (q : Req) (n m : Int) :
    readJobs (⟨q, n⟩ ::ₘ P) = readJobs (⟨q, m⟩ ::ₘ P) := by
  cases hq : q.read with
  | true => rw [readJobs_cons_read hq, readJobs_cons_read hq]
  | false => rw [readJobs_cons_write hq, readJobs_cons_write hq]

/-- The chunk of a read that is complete still has to be written. -/
theorem readJobs_complete {r : IoRing Req} {i : Nat} {q : Req} (hq : r.inflight[i]? = some q)
    (res : Int) :
    readJobs (IoRing.pending
        { r with inflight := r.inflight.eraseIdx i, cq := r.cq ++ [⟨q, res⟩] }) =
      readJobs r.pending := by
  obtain ⟨P, hP, hP'⟩ := IoRing.pending_complete hq res
  rw [hP, hP']
  exact readJobs_cons_req q _ _

/-! ## One job -/

section Job

variable {source dest dest' : List UInt8} {c : Cqe Req} {q : Req} {d : FileData}

theorem JobOk.mono (hj : JobOk source dest c d)
    (hg : ∀ p, Copied source dest p → Copied source dest' p) : JobOk source dest' c d :=
  { hj with copied := fun hr hn p h1 h2 => hg p (hj.copied hr hn p h1 h2) }

/-- The read of a new chunk. -/
theorem jobOk_start (source dest : List UInt8) {off len : Nat} (p : Nat) (junk : Nat → UInt8)
    (hpos : 0 < len) (hfit : off + len ≤ source.length) :
    JobOk source dest ⟨⟨true, off, len, p⟩, 0⟩ ⟨off, len, junk⟩ where
  offset := rfl
  len := rfl
  pos := hpos
  fit := hfit
  loaded := fun h => by simp at h
  copied := fun h => by simp at h

/-- The read is complete. -/
theorem JobOk.store (hj : JobOk source dest ⟨q, 0⟩ d) (hr : q.read = true) :
    JobOk source dest ⟨q, q.len⟩ (d.store (pread source q.offset q.len)) where
  offset := hj.offset
  len := hj.len
  pos := hj.pos
  fit := hj.fit
  loaded := fun _ => by
    have ho : q.offset = d.offset := hj.offset
    have hl : q.len = d.iovLen := hj.len
    have hfit := hj.fit
    have h := (loaded_zero source d.buf d.offset).blit d.iovLen (by omega)
    rw [ho, hl]
    simpa [FileData.store] using h
  copied := fun hf => by simp [hr] at hf

/-- What a write moves is the piece of the source at its offset. -/
theorem JobOk.grab_eq (hj : JobOk source dest ⟨q, 0⟩ d) (hr : q.read = false) :
    grab d.buf 0 q.len = pread source q.offset q.len ∧ q.offset + q.len ≤ source.length := by
  have ho : q.offset = d.offset := hj.offset
  have hl : q.len = d.iovLen := hj.len
  have hload := hj.loaded (.inl hr)
  refine ⟨?_, by rw [ho, hl]; exact hj.fit⟩
  rw [ho, hl]
  exact Loaded.grab (by rw [Nat.zero_add]; exact hload)

/-- The write is complete. -/
theorem JobOk.pwrite (hj : JobOk source dest ⟨q, 0⟩ d) (hr : q.read = false) :
    JobOk source (pwrite 0 dest q.offset (pread source q.offset q.len)) ⟨q, q.len⟩ d where
  offset := hj.offset
  len := hj.len
  pos := hj.pos
  fit := hj.fit
  loaded := fun _ => hj.loaded (.inl hr)
  copied := fun _ _ p h1 h2 => by
    have ho : q.offset = d.offset := hj.offset
    have hl : q.len = d.iovLen := hj.len
    exact copied_pwrite_mid 0 source dest q.offset q.len p (hj.grab_eq hr).2 (by omega) (by omega)

/-- The write of a chunk that has been read. -/
theorem JobOk.turn (hj : JobOk source dest c d) (hres : c.res = (c.req.len : Int)) :
    JobOk source dest ⟨⟨false, d.offset, d.iovLen, c.req.data⟩, 0⟩ d where
  offset := rfl
  len := rfl
  pos := hj.pos
  fit := hj.fit
  loaded := fun _ => hj.loaded (.inr (by have := hj.len; have := hj.pos; omega))
  copied := fun _ hn => absurd rfl hn

end Job

/-! ## The phases along the transitions -/

section Step

variable {source : List UInt8} {s s' : State}

theorem Inv.ready (hi : Inv source s) : Ready s where
  entries := hi.entries
  live := fun c hc => by
    obtain ⟨d, hd, -⟩ := hi.owned.job c hc
    exact ⟨d, hd⟩
  full := hi.full
  len := fun c hc d hd => (hi.owned.ok_of_mem (IoRing.mem_pending_of_cq hc) hd).len
  phase := hi.phase

/-- A completion by the kernel moves a request from one list to the other. -/
theorem Phase.complete (hp : Phase s) {i : Nat} {q : Req} (hq : s.ring.inflight[i]? = some q)
    (res : Int) (h : Heap FileData) (dest : List UInt8) :
    Phase { s with
      ring := { s.ring with inflight := s.ring.inflight.eraseIdx i, cq := s.ring.cq ++ [⟨q, res⟩] }
      heap := h
      dest := dest } := by
  have hmem := List.mem_of_getElem? hq
  have hne : s.ring.inflight ≠ [] := List.ne_nil_of_mem hmem
  have hlt := (List.getElem?_eq_some_iff.mp hq).1
  have hlen := List.length_eraseIdx_of_lt hlt
  unfold Phase at hp ⊢
  cases hpc : s.pc with
  | top =>
    rw [hpc] at hp
    exact absurd hp.1.inflight hne
  | last =>
    rw [hpc] at hp
    exact absurd hp.1.inflight hne
  | submit =>
    rw [hpc] at hp
    exact absurd hp.1.inflight hne
  | readRecv =>
    rw [hpc] at hp
    obtain ⟨hr, ha⟩ := hp
    have hrest := hr.rest
    refine ⟨⟨hr.flag, hr.reads, hr.some, hr.count, ?_, hr.bound, hr.kindSq, ?_, ?_⟩, ha⟩
    · simp only [hlen, List.length_append, List.length_cons, List.length_nil]
      omega
    · exact fun r hr' => hr.kindInflight r (List.mem_of_mem_eraseIdx hr')
    · exact List.forall_mem_append.mpr
        ⟨hr.kindCq, List.forall_mem_singleton.mpr (hr.kindInflight q hmem)⟩
  | readSubmit =>
    rw [hpc] at hp
    exact absurd (hp.1.queued hp.2.1).1 hne
  | writeRecv =>
    rw [hpc] at hp
    have hrest := hp.rest
    refine ⟨hp.flag, hp.reads, hp.sq, ?_, ?_, ?_⟩
    · simp only [hlen, List.length_append, List.length_cons, List.length_nil]
      omega
    · exact fun r hr' => hp.kindInflight r (List.mem_of_mem_eraseIdx hr')
    · exact List.forall_mem_append.mpr
        ⟨hp.kindCq, List.forall_mem_singleton.mpr (hp.kindInflight q hmem)⟩
  | exit n =>
    rw [hpc] at hp
    have hm := IoRing.mem_pending_of_inflight hmem
    rw [hp.2.1] at hm
    exact absurd hm (Multiset.notMem_zero _)
  | fault =>
    rw [hpc] at hp
    exact hp.elim

theorem Collecting.queue (hc : Collecting s) (q : Req) (hq : q.read = true) (s' : State)
    (h1 : s'.flag = s.flag) (h2 : s'.ring = { s.ring with sq := s.ring.sq ++ [q] })
    (h3 : s'.reads = s.reads + 1) : Collecting s' := by
  refine ⟨by rw [h1]; exact hc.flag, ?_, ?_, ?_, ?_⟩
  · rw [h2]
    exact hc.inflight
  · rw [h2]
    exact hc.cq
  · rw [h2, h3, List.length_append, hc.count]
    rfl
  · rw [h2]
    exact List.forall_mem_append.mpr ⟨hc.kind, List.forall_mem_singleton.mpr hq⟩

theorem phase_step (hi : Inv source s) (ht : Trans source s s') : Phase s' := by
  have hp := hi.phase
  have hleft := hi.left
  have hB : bufSize = 32768 := rfl
  cases ht with
  | loaded i q d hq hd hr hlen => exact hp.complete hq _ _ _
  | written i q d hq hd hr => exact hp.complete hq _ _ _
  | queued junk hpc hin hopen hroom =>
    simp only [Phase, hpc] at hp
    refine ⟨hp.1.queue _ rfl _ rfl rfl rfl, hroom, fun h => ?_⟩
    have := chunkSize_eq hleft
    simp only at h
    omega
  | closed junk hpc hin =>
    simp only [Phase, hpc] at hp
    exact ⟨hp.1.queue _ rfl _ rfl rfl rfl, Nat.succ_pos _, hp.2.1, hin, rfl⟩
  | skipped hpc hin =>
    simp only [Phase, hpc] at hp
    exact ⟨⟨hp.1.flag, hp.1.inflight, hp.1.cq, hp.1.count, hp.1.kind⟩, hp.2.1, hp.2.2⟩
  | submitted hpc =>
    simp only [Phase, hpc] at hp
    obtain ⟨hc, hpos, hle, ha⟩ := hp
    refine ⟨⟨rfl, rfl, hpos, rfl, ?_, hle, ?_, ?_, ?_⟩, ha⟩
    · simp [hc.inflight, hc.cq, hc.count]
    · exact fun q hq => absurd hq List.not_mem_nil
    · simp only [hc.inflight, List.nil_append]
      exact hc.kind
    · simp [hc.cq]
  | readDone c cs d hpc hin hcq hd =>
    simp only [Phase, hpc] at hp ⊢
    obtain ⟨hr, ha⟩ := hp
    have hrest := hr.rest
    have hkind := hr.kindCq
    rw [hcq] at hrest hkind
    refine ⟨⟨hr.flag, hr.reads, hr.some, ?_, ?_, hr.bound, ?_, hr.kindInflight, ?_⟩, ha⟩
    · simp only [List.length_append, hr.count]
      rfl
    · simp only [IoRing.advance, hcq, List.drop_succ_cons, List.drop_zero]
      simp only [List.length_cons] at hrest
      omega
    · exact List.forall_mem_append.mpr ⟨hr.kindSq, List.forall_mem_singleton.mpr rfl⟩
    · simp only [IoRing.advance, hcq, List.drop_succ_cons, List.drop_zero]
      exact fun e he => hkind e (List.mem_cons_of_mem _ he)
  | readEnd hpc hin =>
    simp only [Phase, hpc] at hp
    obtain ⟨hr, ha⟩ := hp
    have hrest := hr.rest
    exact ⟨⟨hr.flag, hr.reads, hr.some, hr.count, hr.rest, hr.bound, hr.kindSq, hr.kindInflight,
      hr.kindCq⟩, by simp only; omega, ha⟩
  | submittedWrites hpc =>
    simp only [Phase, hpc] at hp
    obtain ⟨hr, hiw, -⟩ := hp
    obtain ⟨hinf, hcq, hsq⟩ := hr.queued hiw
    refine ⟨hr.flag, hr.reads, rfl, ?_, ?_, ?_⟩
    · simp [hinf, hcq, hsq]
    · simp only [hinf, List.nil_append]
      exact hr.kindSq
    · simp [hcq]
  | writeDone c cs d hpc hin hcq hd =>
    simp only [Phase, hpc] at hp ⊢
    have hrest := hp.rest
    have hkind := hp.kindCq
    rw [hcq] at hrest hkind
    refine ⟨hp.flag, hp.reads, hp.sq, ?_, hp.kindInflight, ?_⟩
    · simp only [IoRing.advance, hcq, List.drop_succ_cons, List.drop_zero]
      simp only [List.length_cons] at hrest
      omega
    · simp only [IoRing.advance, hcq, List.drop_succ_cons, List.drop_zero]
      exact fun e he => hkind e (List.mem_cons_of_mem _ he)
  | writeEnd hpc hin =>
    simp only [Phase, hpc] at hp
    have hrest := hp.rest
    refine ⟨⟨rfl, ?_, ?_, ?_, ?_⟩, ?_, fun _ => hp.reads⟩
    · exact List.eq_nil_of_length_eq_zero (by simp only; omega)
    · exact List.eq_nil_of_length_eq_zero (by simp only; omega)
    · simp [hp.sq, hp.reads]
    · simp [hp.sq]
    · simp only [hp.reads]
      decide
  | stop hpc ho =>
    simp only [Phase, hpc] at hp
    have htot := hi.total
    have hsz := hi.size
    have hin : s.insize ≤ 0 := by omega
    have hreads := hp.2.2 hin
    have hsq : s.ring.sq = [] :=
      List.eq_nil_of_length_eq_zero (by rw [hp.1.count, hreads])
    refine ⟨rfl, ?_, hin⟩
    simp [IoRing.pending, hsq, hp.1.inflight, hp.1.cq]
  | again hpc ho =>
    simp only [Phase, hpc] at hp
    exact ⟨⟨hp.1.flag, hp.1.inflight, hp.1.cq, hp.1.count, hp.1.kind⟩, hp.2.1, hp.2.2⟩

/-! ## The invariant along the transitions -/

theorem inv_init (source : List UInt8) : Inv source (init (.regular source.length)) where
  owned := Owned.empty _ _
  dest_le := Nat.zero_le _
  entries := rfl
  full := by simp [init]
  size := rfl
  total := by simp [init, getFileSize]
  left := by simp [init, getFileSize]
  queued := ⟨[], Cut.nil _ _, Posted.nil⟩
  covered := fun p hp => absurd hp (Nat.not_lt_zero p)
  phase := ⟨⟨rfl, rfl, rfl, rfl, by simp [init]⟩, by simp [init, depth], fun _ => rfl⟩

/-- A transition that only moves the control, or requests between the stages of the ring. -/
theorem Inv.moved (hi : Inv source s) (hp : Phase s') (h1 : s'.heap = s.heap)
    (h2 : s'.ring.pending = s.ring.pending) (h3 : s'.ring.cq = s.ring.cq)
    (h4 : s'.ring.entries = s.ring.entries) (h5 : s'.dest = s.dest) (h6 : s'.fileSz = s.fileSz)
    (h7 : (s'.offset : Int) + s'.insize = source.length) (h8 : 0 ≤ s'.insize)
    (h9 : reached s' = reached s) (h10 : s'.posted = s.posted) : Inv source s' := by
  refine ⟨?_, ?_, ?_, ?_, ?_, h7, h8, ?_, ?_, hp⟩
  · rw [h1, h2, h5]
    exact hi.owned
  · rw [h5]
    exact hi.dest_le
  · rw [h4]
    exact hi.entries
  · rw [h3]
    exact hi.full
  · rw [h6]
    exact hi.size
  · rw [h2, h9, h10]
    exact hi.queued
  · rw [h1, h5, h9]
    exact hi.covered

/-- The read of the next chunk is queued. -/
theorem Inv.queue (hi : Inv source s) (hpc : s.pc = .top) (hin : 0 < s.insize)
    (junk : Nat → UInt8) (hp : Phase s')
    (h1 : s'.heap = s.heap.alloc ⟨s.offset, (chunkSize s.insize).toNat, junk⟩)
    (h2 : s'.ring = { s.ring with sq :=
      s.ring.sq ++ [⟨true, s.offset, (chunkSize s.insize).toNat, s.heap.next⟩] })
    (h5 : s'.dest = s.dest) (h6 : s'.fileSz = s.fileSz)
    (h7 : (s'.offset : Int) + s'.insize = source.length) (h8 : 0 ≤ s'.insize)
    (h9 : reached s' = s.offset + (chunkSize s.insize).toNat)
    (h10 : s'.posted = s.posted ++ [⟨true, s.offset, (chunkSize s.insize).toNat⟩]) :
    Inv source s' := by
  have htot := hi.total
  have hcs := chunkSize_eq hi.left
  have hB : bufSize = 32768 := rfl
  have hre : reached s = s.offset := by simp only [reached, hpc]
  have hpend := IoRing.pending_prep s.ring
    ⟨true, s.offset, (chunkSize s.insize).toNat, s.heap.next⟩
  have hmin : (chunkSize s.insize).toNat = min bufSize (source.length - s.offset) := by omega
  refine ⟨?_, ?_, ?_, ?_, ?_, h7, h8, ?_, ?_, hp⟩
  · rw [h1, h2, h5, hpend]
    exact hi.owned.start rfl (jobOk_start _ _ _ _ (by omega) (by omega))
  · rw [h5]
    exact hi.dest_le
  · rw [h2]
    exact hi.entries
  · rw [h2]
    exact hi.full
  · rw [h6]
    exact hi.size
  · obtain ⟨cs, hcut, hpost⟩ := hi.queued
    refine ⟨cs ++ [(s.offset, (chunkSize s.insize).toNat)], ?_, ?_⟩
    · rw [h9, hmin]
      rw [hre] at hcut
      exact hcut.snoc (by omega)
    · rw [h2, hpend, h10, readJobs_cons_read rfl]
      exact hpost.snoc_read (s.offset, (chunkSize s.insize).toNat)
  · intro p hlt
    rw [h9] at hlt
    rw [h1, h5]
    by_cases hold : p < s.offset
    · rcases hi.covered p (by rw [hre]; exact hold) with h | h
      · exact .inl h
      · exact .inr (h.alloc _)
    · exact .inr (held_alloc _ _ (by simp only [FileData.chunk]; omega) hlt)

/-- A read has been completed. -/
theorem Inv.loaded (hi : Inv source s) {i : Nat} {q : Req} {d : FileData}
    (hq : s.ring.inflight[i]? = some q) (hd : s.heap.cell q.data = some d) (hr : q.read = true)
    (hp : Phase s') (h : s' = { s with
      ring := { s.ring with
        inflight := s.ring.inflight.eraseIdx i, cq := s.ring.cq ++ [⟨q, q.len⟩] }
      heap := s.heap.put q.data (d.store (pread source q.offset q.len)) }) :
    Inv source s' := by
  subst h
  obtain ⟨P, hP, hP'⟩ := IoRing.pending_complete hq (q.len : Int)
  have howned := hi.owned
  rw [hP] at howned
  refine ⟨?_, hi.dest_le, hi.entries, ?_, hi.size, hi.total, hi.left, ?_, ?_, hp⟩
  · simp only [hP']
    exact howned.update hd rfl ((howned.head hd).store hr) fun _ _ _ hx => hx
  · exact List.forall_mem_append.mpr ⟨hi.full, List.forall_mem_singleton.mpr rfl⟩
  · obtain ⟨cs, hcut, hpost⟩ := hi.queued
    exact ⟨cs, hcut, hpost.todo_eq (readJobs_complete hq _)⟩
  · intro p hlt
    rcases hi.covered p hlt with h | h
    · exact .inl h
    · exact .inr (h.put hd rfl)

/-- A write has been completed. -/
theorem Inv.written (hi : Inv source s) {i : Nat} {q : Req} {d : FileData}
    (hq : s.ring.inflight[i]? = some q) (hd : s.heap.cell q.data = some d) (hr : q.read = false)
    (hp : Phase s') (h : s' = { s with
      ring := { s.ring with
        inflight := s.ring.inflight.eraseIdx i, cq := s.ring.cq ++ [⟨q, q.len⟩] }
      dest := pwrite 0 s.dest q.offset (grab d.buf 0 q.len) }) :
    Inv source s' := by
  subst h
  obtain ⟨P, hP, hP'⟩ := IoRing.pending_complete hq (q.len : Int)
  have howned := hi.owned
  rw [hP] at howned
  have hj := howned.head hd
  obtain ⟨hg, hfit⟩ := hj.grab_eq hr
  have hgain : ∀ p, Copied source s.dest p →
      Copied source (pwrite 0 s.dest q.offset (pread source q.offset q.len)) p :=
    fun p h => h.pwrite 0 q.offset q.len hfit
  rw [hg] at hp ⊢
  refine ⟨?_, ?_, hi.entries, ?_, hi.size, hi.total, hi.left, ?_, ?_, hp⟩
  · simp only [hP']
    exact howned.update_entry hd rfl (hj.pwrite hr) fun _ _ _ hx => hx.mono hgain
  · exact length_pwrite_le hi.dest_le (by rw [length_pread _ _ _ hfit]; exact hfit)
  · exact List.forall_mem_append.mpr ⟨hi.full, List.forall_mem_singleton.mpr rfl⟩
  · obtain ⟨cs, hcut, hpost⟩ := hi.queued
    exact ⟨cs, hcut, hpost.todo_eq (readJobs_complete hq _)⟩
  · intro p hlt
    rcases hi.covered p hlt with h | h
    · exact .inl (hgain p h)
    · exact .inr h

theorem Inv.readDone (hi : Inv source s) {c : Cqe Req} {cs : List (Cqe Req)} {d : FileData}
    (hpc : s.pc = .readRecv) (hcq : s.ring.cq = c :: cs) (hd : s.heap.cell c.req.data = some d)
    (hp : Phase s') (h : s' = { s with
      ring := { s.ring.advance 1 with
        sq := s.ring.sq ++ [⟨false, d.offset, d.iovLen, c.req.data⟩] }
      i := s.i + 1
      posted := s.posted ++ [⟨false, d.offset, d.iovLen⟩] }) : Inv source s' := by
  subst h
  have hph := hi.phase
  simp only [Phase, hpc] at hph
  have hm : c ∈ s.ring.cq := IoRing.head_mem_cq hcq
  have hread := hph.1.kindCq c hm
  have hP := IoRing.pending_advance hcq
  have hP' := IoRing.pending_prep (s.ring.advance 1) ⟨false, d.offset, d.iovLen, c.req.data⟩
  simp only [IoRing.advance] at hP'
  have howned := hi.owned
  rw [hP] at howned
  have hj := howned.head hd
  refine ⟨?_, hi.dest_le, hi.entries, ?_, hi.size, hi.total, hi.left, ?_, hi.covered, hp⟩
  · simp only [IoRing.advance, hP']
    exact howned.update_entry hd rfl (hj.turn (hi.full c hm)) fun _ _ _ hx => hx
  · exact fun e he => hi.full e (List.mem_of_mem_drop he)
  · obtain ⟨chs, hcut, hpost⟩ := hi.queued
    refine ⟨chs, hcut, ?_⟩
    rw [hP, readJobs_cons_read hread, hj.offset, hj.len] at hpost
    simp only [IoRing.advance, hP', readJobs_cons_write]
    exact hpost.snoc_write

theorem Inv.writeDone (hi : Inv source s) {c : Cqe Req} {cs : List (Cqe Req)} {d : FileData}
    (hpc : s.pc = .writeRecv) (hcq : s.ring.cq = c :: cs) (hd : s.heap.cell c.req.data = some d)
    (hp : Phase s') (h : s' = { s with
      heap := s.heap.free c.req.data
      ring := s.ring.advance 1
      i := s.i + 1 }) : Inv source s' := by
  subst h
  have hph := hi.phase
  simp only [Phase, hpc] at hph
  have hm : c ∈ s.ring.cq := IoRing.head_mem_cq hcq
  have hwrite := hph.kindCq c hm
  have hP := IoRing.pending_advance hcq
  have howned := hi.owned
  rw [hP] at howned
  have hj := howned.head hd
  have hne : c.res ≠ 0 := by
    have h1 := hi.full c hm
    have h2 := hj.len
    have h3 := hj.pos
    omega
  refine ⟨howned.retire, hi.dest_le, hi.entries, ?_, hi.size, hi.total, hi.left, ?_, ?_, hp⟩
  · exact fun e he => hi.full e (List.mem_of_mem_drop he)
  · obtain ⟨chs, hcut, hpost⟩ := hi.queued
    rw [hP, readJobs_cons_write hwrite] at hpost
    exact ⟨chs, hcut, hpost⟩
  · intro p hlt
    rcases hi.covered p hlt with h | h
    · exact .inl h
    · rcases h.free hd with ⟨h1, h2⟩ | h
      · exact .inl (hj.copied hwrite hne p h1 h2)
      · exact .inr h

theorem inv_step (hi : Inv source s) (ht : Trans source s s') : Inv source s' := by
  have hp := phase_step hi ht
  have htot := hi.total
  have hleft := hi.left
  have hcs := chunkSize_eq hleft
  cases ht with
  | loaded i q d hq hd hr hlen => exact hi.loaded hq hd hr hp rfl
  | written i q d hq hd hr => exact hi.written hq hd hr hp rfl
  | queued junk hpc hin hopen hroom =>
    exact hi.queue hpc hin junk hp rfl rfl rfl rfl (by simp only; omega) (by simp only; omega) rfl rfl
  | closed junk hpc hin =>
    exact hi.queue hpc hin junk hp rfl rfl rfl rfl htot hleft rfl rfl
  | skipped hpc hin =>
    exact hi.moved hp rfl rfl rfl rfl rfl rfl htot hleft (by simp only [reached, hpc]) rfl
  | submitted hpc =>
    exact hi.moved hp rfl (IoRing.pending_submit_all s.ring) rfl rfl rfl rfl htot hleft
      (by simp only [reached, hpc]) rfl
  | readDone c cs d hpc hin hcq hd => exact hi.readDone hpc hcq hd hp rfl
  | readEnd hpc hin =>
    exact hi.moved hp rfl rfl rfl rfl rfl rfl htot hleft (by simp only [reached, hpc]) rfl
  | submittedWrites hpc =>
    have hph := hi.phase
    simp only [Phase, hpc] at hph
    obtain ⟨-, -, hpos, hts⟩ := hph
    exact hi.moved hp rfl (IoRing.pending_submit_all s.ring) rfl rfl rfl rfl
      (by simp only; omega) (by simp only; omega) (by simp only [reached, hpc]) rfl
  | writeDone c cs d hpc hin hcq hd => exact hi.writeDone hpc hcq hd hp rfl
  | writeEnd hpc hin =>
    exact hi.moved hp rfl rfl rfl rfl rfl rfl htot hleft (by simp only [reached, hpc]) rfl
  | stop hpc ho =>
    exact hi.moved hp rfl rfl rfl rfl rfl rfl htot hleft (by simp only [reached, hpc]) rfl
  | again hpc ho =>
    exact hi.moved hp rfl rfl rfl rfl rfl rfl htot hleft (by simp only [reached, hpc]) rfl

/-- When the program has ended nothing is under way and everything is copied. -/
theorem Inv.exited (hi : Inv source s) {n : Int} (hpc : s.pc = .exit n) :
    n = 0 ∧ s.ring.pending = 0 ∧ s.offset = source.length ∧ s.dest = source := by
  have hph := hi.phase
  simp only [Phase, hpc] at hph
  obtain ⟨hn, hpend, hin⟩ := hph
  have htot := hi.total
  have hleft := hi.left
  have hoff : s.offset = source.length := by omega
  refine ⟨hn, hpend, hoff, eq_of_copied hi.dest_le fun p hp => ?_⟩
  rcases hi.covered p (by simp only [reached, hpc]; omega) with h | ⟨q, d, hd, -⟩
  · exact h
  · -- a live record would have a pending request
    obtain ⟨c, hc, -⟩ := hi.owned.live q d hd
    rw [hpend] at hc
    exact absurd hc (Multiset.notMem_zero c)

end Step

end KernelMagic.Batch
