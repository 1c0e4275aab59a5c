/-
  What one step of the batch programs can do when every request completes with its full length: the
  transitions `Trans`, with the test that leads to each and the state after it.

  `Phase` is what the control says about the ring. A batch is collected with nothing under way; then
  its reads come back one by one, each replaced by a queued write; then the writes are submitted and
  come back. The programs tell the two kinds of completions apart only by counting, so the phase has
  to carry the counts. `step_trans` says that a step from a state in its phase is one of `Trans`,
  unless a call has failed and the program is `Lost`: it has crashed, has given up, or waits for
  completions of requests that a submit has left behind. It does not get out of that any more
  (`lost_step`).
-/
import KernelMagic.Batch.Moves

namespace KernelMagic.Batch

open KernelMagic.Lib

/-- No call of the program fails. -/
def Act.CallsSucceed : Act → Prop
  | .complete _ _ => True
  | .prog a => a.malloc.isSome = true ∧ a.submit = .all ∧ a.cqeErr = 0

/-- The request completes with its full length. -/
def FullLength (s : State) : Act → Prop
  | .complete i res => ∀ q ∈ s.ring.inflight[i]?, res = (q.len : Int)
  | .prog _ => True

instance : (s : State) → (a : Act) → Decidable (FullLength s a)
  | s, .complete i res =>
    inferInstanceAs (Decidable (∀ q ∈ s.ring.inflight[i]?, res = (q.len : Int)))
  | _, .prog _ => isTrue trivial

def Full (s : State) (a : Act) : Prop := a.CallsSucceed ∧ FullLength s a

/-- The request completes with its full length, and `write_cqe_recv` does not fail to wait. -/
def Whole (s : State) (a : Act) : Prop :=
  FullLength s a ∧ match a with
    | .complete _ _ => True
    | .prog b => s.pc = .writeRecv → 0 ≤ b.cqeErr

instance : (s : State) → (a : Act) → Decidable (Whole s a)
  | s, .complete i res =>
    inferInstanceAs (Decidable (FullLength s (.complete i res) ∧ True))
  | s, .prog b =>
    inferInstanceAs (Decidable (FullLength s (.prog b) ∧ (s.pc = .writeRecv → 0 ≤ b.cqeErr)))

/-- The write after a full read is a full write. -/
def Program.Exact (prg : Program) : Prop := ∀ d, prg.writeLen d d.iovLen = d.iovLen

theorem singleBuffer_exact : singleBuffer.Exact := fun _ => rfl

theorem multiBuffer_exact : multiBuffer.Exact := fun _ => rfl

/-! ## Phases -/

/-- A batch is being collected: its reads are queued and nothing else is under way. -/
structure Collecting (s : State) : Prop where
  flag : s.flag = 1
  inflight : s.ring.inflight = []
  cq : s.ring.cq = []
  count : s.ring.sq.length = s.reads
  kind : ∀ q ∈ s.ring.sq, q.read = true

/-- The reads of a batch come back; `i` of them are queued as writes. -/
structure Reading (s : State) : Prop where
  flag : s.flag = 2
  reads : s.reads = 0
  some : 0 < s.writes
  count : s.ring.sq.length = s.i
  rest : s.ring.inflight.length + s.ring.cq.length + s.i = s.writes
  bound : s.writes ≤ depth
  kindSq : ∀ q ∈ s.ring.sq, q.read = false
  kindInflight : ∀ q ∈ s.ring.inflight, q.read = true
  kindCq : ∀ c ∈ s.ring.cq, c.req.read = true

/-- The writes of a batch come back. -/
structure Writing (s : State) : Prop where
  flag : s.flag = 2
  reads : s.reads = 0
  sq : s.ring.sq = []
  rest : s.ring.inflight.length + s.ring.cq.length + s.i = s.writes
  kindInflight : ∀ q ∈ s.ring.inflight, q.read = false
  kindCq : ∀ c ∈ s.ring.cq, c.req.read = false

/-- The chunk at `offset` is queued, `offset` has not been moved past it yet. -/
def Ahead (s : State) : Prop := 0 < s.insize ∧ s.thisSize = chunkSize s.insize

def Phase (s : State) : Prop :=
  match s.pc with
  | .top => Collecting s ∧ s.reads < depth ∧ (s.insize ≤ 0 → s.reads = 0)
  | .last => Collecting s ∧ s.reads < depth ∧ (s.insize ≤ 0 → s.reads = 0)
  | .submit => Collecting s ∧ 0 < s.reads ∧ s.reads ≤ depth ∧ Ahead s
  | .readRecv => Reading s ∧ Ahead s
  | .readSubmit => Reading s ∧ s.i = s.writes ∧ Ahead s
  | .writeRecv => Writing s
  | .exit n => n = 0 ∧ s.ring.pending = 0 ∧ s.insize ≤ 0
  | .fault => False

/-- Fewer requests are under way than the program waits for. -/
structure Stalled (s : State) : Prop where
  pc : s.pc = .readRecv ∨ s.pc = .writeRecv
  short : s.ring.inflight.length + s.ring.cq.length + s.i < s.writes
  nonneg : ∀ c ∈ s.ring.cq, 0 ≤ c.res

def Lost (s : State) : Prop := s.pc = .fault ∨ s.pc = .exit 1 ∨ Stalled s

/-! ## Transitions -/

inductive Trans (source : List UInt8) (s : State) : State → Prop
  | loaded (i : Nat) (q : Req) (d : FileData) (hq : s.ring.inflight[i]? = some q)
      (hd : s.heap.cell q.data = some d) (hr : q.read = true)
      (hlen : (pread source q.offset q.len).length = q.len) :
      Trans source s { s with
        ring :=
          { s.ring with inflight := s.ring.inflight.eraseIdx i, cq := s.ring.cq ++ [⟨q, q.len⟩] }
        heap := s.heap.put q.data (d.store (pread source q.offset q.len)) }
  | written (i : Nat) (q : Req) (d : FileData) (hq : s.ring.inflight[i]? = some q)
      (hd : s.heap.cell q.data = some d) (hr : q.read = false) :
      Trans source s { s with
        ring :=
          { s.ring with inflight := s.ring.inflight.eraseIdx i, cq := s.ring.cq ++ [⟨q, q.len⟩] }
        dest := pwrite 0 s.dest q.offset (grab d.buf 0 q.len) }
  | queued (junk : Nat → UInt8) (hpc : s.pc = .top) (hi : 0 < s.insize)
      (hopen : chunkSize s.insize ≠ s.insize) (hroom : s.reads + 1 < depth) :
      Trans source s { s with
        pc := .last
        thisSize := chunkSize s.insize
        insize := s.insize - chunkSize s.insize
        offset := s.offset + (chunkSize s.insize).toNat
        reads := s.reads + 1
        heap := s.heap.alloc ⟨s.offset, (chunkSize s.insize).toNat, junk⟩
        ring := { s.ring with sq :=
          s.ring.sq ++ [⟨true, s.offset, (chunkSize s.insize).toNat, s.heap.next⟩] }
        posted := s.posted ++ [⟨true, s.offset, (chunkSize s.insize).toNat⟩] }
  | closed (junk : Nat → UInt8) (hpc : s.pc = .top) (hi : 0 < s.insize) :
      Trans source s { s with
        pc := .submit
        thisSize := chunkSize s.insize
        reads := s.reads + 1
        heap := s.heap.alloc ⟨s.offset, (chunkSize s.insize).toNat, junk⟩
        ring := { s.ring with sq :=
          s.ring.sq ++ [⟨true, s.offset, (chunkSize s.insize).toNat, s.heap.next⟩] }
        posted := s.posted ++ [⟨true, s.offset, (chunkSize s.insize).toNat⟩] }
  | skipped (hpc : s.pc = .top) (hi : s.insize ≤ 0) :
      Trans source s { s with pc := .last, thisSize := chunkSize s.insize }
  | submitted (hpc : s.pc = .submit) :
      Trans source s { s with
        ring := { s.ring with sq := [], inflight := s.ring.inflight ++ s.ring.sq }
        flag := 2
        writes := s.reads
        reads := 0
        i := 0
        pc := .readRecv }
  | readDone (c : Cqe Req) (cs : List (Cqe Req)) (d : FileData) (hpc : s.pc = .readRecv)
      (hi : s.i < s.writes) (hcq : s.ring.cq = c :: cs) (hd : s.heap.cell c.req.data = some d) :
      Trans source s { s with
        ring := { s.ring.advance 1 with
          sq := s.ring.sq ++ [⟨false, d.offset, d.iovLen, c.req.data⟩] }
        i := s.i + 1
        posted := s.posted ++ [⟨false, d.offset, d.iovLen⟩] }
  | readEnd (hpc : s.pc = .readRecv) (hi : s.writes ≤ s.i) :
      Trans source s { s with pc := .readSubmit }
  | submittedWrites (hpc : s.pc = .readSubmit) :
      Trans source s { s with
        pc := .writeRecv
        i := 0
        insize := s.insize - s.thisSize
        offset := s.offset + s.thisSize.toNat
        ring := { s.ring with sq := [], inflight := s.ring.inflight ++ s.ring.sq } }
  | writeDone (c : Cqe Req) (cs : List (Cqe Req)) (d : FileData) (hpc : s.pc = .writeRecv)
      (hi : s.i < s.writes) (hcq : s.ring.cq = c :: cs) (hd : s.heap.cell c.req.data = some d) :
      Trans source s { s with
        heap := s.heap.free c.req.data
        ring := s.ring.advance 1
        i := s.i + 1 }
  | writeEnd (hpc : s.pc = .writeRecv) (hi : s.writes ≤ s.i) :
      Trans source s { s with flag := 1, writes := 0, pc := .last }
  | stop (hpc : s.pc = .last) (ho : s.fileSz ≤ s.offset) :
      Trans source s { s with pc := .exit 0 }
  | again (hpc : s.pc = .last) (ho : (s.offset : Int) < s.fileSz) :
      Trans source s { s with pc := .top }

/-- What rules out the failing branches. -/
structure Ready (s : State) : Prop where
  entries : s.ring.entries = depth
  live : ∀ c ∈ s.ring.pending, ∃ d, s.heap.cell c.req.data = some d
  full : ∀ c ∈ s.ring.cq, c.res = (c.req.len : Int)
  len : ∀ c ∈ s.ring.cq, ∀ d, s.heap.cell c.req.data = some d → c.req.len = d.iovLen
  phase : Phase s

variable {prg : Program} {source : List UInt8} {s s' : State} {a : Answers}

theorem Ready.alive (hs : Ready s) : Alive s where
  live := hs.live
  flagOne := fun h => by
    have hph := hs.phase
    rcases h with h | h | h
    · simp only [Phase, h] at hph
      exact hph.1.flag
    · simp only [Phase, h] at hph
      exact hph.1.flag
    · simp only [Phase, h] at hph
      exact hph.1.flag
  flagTwo := fun h => by
    have hph := hs.phase
    rcases h with h | h | h
    · simp only [Phase, h] at hph
      exact hph.1.flag
    · simp only [Phase, h] at hph
      exact hph.1.flag
    · simp only [Phase, h] at hph
      exact hph.flag

/-- There is an entry wherever the program takes one. -/
theorem Ready.room (hs : Ready s) (hpc : s.pc = .top ∨ s.pc = .readRecv ∧ s.i < s.writes) :
    s.ring.sq.length < s.ring.entries := by
  have hph := hs.phase
  rw [hs.entries]
  rcases hpc with hpc | ⟨hpc, hi⟩
  · simp only [Phase, hpc] at hph
    rw [hph.1.count]
    exact hph.2.1
  · simp only [Phase, hpc] at hph
    have hb := hph.1.bound
    rw [hph.1.count]
    omega

/-- Behind the reads of a batch only its writes are left, all of them queued. -/
theorem Reading.queued (hrd : Reading s) (hi : s.i = s.writes) :
    s.ring.inflight = [] ∧ s.ring.cq = [] ∧ s.ring.sq.length = s.writes := by
  have hrest := hrd.rest
  exact ⟨List.eq_nil_of_length_eq_zero (by omega), List.eq_nil_of_length_eq_zero (by omega),
    by rw [hrd.count, hi]⟩

/-- A submit with nothing under way before it: it takes everything, or the program will wait for
    more completions than there are requests in flight. -/
theorem submit_all_or_stalled (hinf : s.ring.inflight = []) (hcq : s.ring.cq = [])
    (b : Answers) (s' : State) (h1 : s'.ring = (s.ring.submit b.submit).1)
    (h2 : s'.pc = .readRecv ∨ s'.pc = .writeRecv) (h3 : s'.i = 0)
    (h4 : s.ring.sq.length ≤ s'.writes) :
    s'.ring = { s.ring with sq := [], inflight := s.ring.inflight ++ s.ring.sq } ∨
      b.submit ≠ .all ∧ Stalled s' := by
  rcases IoRing.submit_cases s.ring b.submit with hall | ⟨hne, hlt, hcq'⟩
  · exact .inl (h1.trans hall)
  · refine .inr ⟨hne, h2, ?_, ?_⟩
    · rw [hinf, List.length_nil, Nat.zero_add] at hlt
      rw [h1, hcq', hcq, h3, List.length_nil]
      omega
    · rw [h1, hcq', hcq]
      exact fun c hc => absurd hc List.not_mem_nil

/-- A move is one of the transitions, unless a call fails and the program is lost. -/
theorem Move.trans (hx : prg.Exact) (hs : Ready s) {a : Act} (hw : Whole s a)
    (hm : Move prg source s a s') : Trans source s s' ∨ Lost s' ∧ ¬ a.CallsSucceed := by
  have hph := hs.phase
  cases hm with
  | completed i q d d' dest res ha hq hd ht =>
    left
    subst ha
    obtain rfl : res = (q.len : Int) := hw.1 q hq
    cases ht with
    | failed hres => omega
    | loaded h0 hle hr hlen => exact .loaded i q d hq hd hr (by simpa using hlen)
    | written h0 hle hr =>
      rw [Heap.put_eq_self hd]
      exact .written i q d hq hd hr
  | ended b pc ha hpc r hr why hfree =>
    subst ha
    refine .inr ⟨?_, fun hc => ?_⟩
    · rcases hpc with rfl | rfl
      · exact .inl rfl
      · exact .inr (.inl rfl)
    · obtain ⟨hm, hsub, herr⟩ := hc
      rcases why with h | h | h | ⟨h, hle⟩
      · rw [h] at hm
        cases hm
      · rw [hsub, IoRing.submit_all] at h
        simp only at h
        omega
      · omega
      · have := hs.room h
        omega
  | queued b junk ha hpc hi hopen hmore hroom => exact .inl (.queued junk hpc hi hopen hmore)
  | closed b junk ha hpc hi hlast hroom => exact .inl (.closed junk hpc hi)
  | skipped b ha hpc hi => exact .inl (.skipped hpc hi)
  | submitted b ha hpc hret =>
    subst ha
    simp only [Phase, hpc] at hph
    obtain ⟨hcol, -⟩ := hph
    rcases submit_all_or_stalled hcol.inflight hcol.cq b { s with
      ring := (s.ring.submit b.submit).1, flag := 2, writes := s.reads, reads := 0, i := 0,
      pc := .readRecv } rfl (.inl rfl) rfl (Nat.le_of_eq hcol.count) with hall | ⟨hne, hst⟩
    · simp only at hall
      rw [hall]
      exact .inl (.submitted hpc)
    · exact .inr ⟨.inr (.inr hst), fun hc => hne hc.2.1⟩
  | readFailed b c cs d ha hpc hi ht hcq hd hres =>
    have := hs.full c (IoRing.head_mem_cq hcq)
    omega
  | readDone b c cs d ha hpc hi ht hcq hd hres hroom =>
    have hm : c ∈ s.ring.cq := IoRing.head_mem_cq hcq
    have hlen : prg.writeLen d c.res.toNat = d.iovLen := by
      rw [hs.full c hm, Int.toNat_natCast, hs.len c hm d hd, hx d]
    rw [hlen]
    exact .inl (.readDone c cs d hpc hi hcq hd)
  | readEnd b ha hpc hi => exact .inl (.readEnd hpc hi)
  | submittedWrites b ha hpc hret =>
    subst ha
    simp only [Phase, hpc] at hph
    obtain ⟨hrd, hi, -⟩ := hph
    obtain ⟨hinf, hcq, hsq⟩ := hrd.queued hi
    rcases submit_all_or_stalled hinf hcq b { s with
      pc := .writeRecv, i := 0, insize := s.insize - s.thisSize,
      offset := s.offset + s.thisSize.toNat, ring := (s.ring.submit b.submit).1 } rfl (.inr rfl)
      rfl (Nat.le_of_eq hsq) with hall | ⟨hne, hst⟩
    · simp only at hall
      rw [hall]
      exact .inl (.submittedWrites hpc)
    · exact .inr ⟨.inr (.inr hst), fun hc => hne hc.2.1⟩
  | writeDone b c cs d ha hpc hi ht hcq hd hres => exact .inl (.writeDone c cs d hpc hi hcq hd)
  | writeStop b ha hpc hi why ht =>
    subst ha
    rcases why with herr | ⟨c, hc, hneg⟩
    · have := hw.2 hpc
      omega
    · have := hs.full c (List.mem_of_mem_head? hc)
      omega
  | writeEnd b ha hpc hi => exact .inl (.writeEnd hpc hi)
  | stop b ha hpc ho => exact .inl (.stop hpc ho)
  | again b ha hpc ho => exact .inl (.again hpc ho)

/-- The machine takes no other transitions, unless a call fails and the program is lost. -/
theorem step_trans (hx : prg.Exact) (hs : Ready s) {a : Act} (hw : Whole s a)
    (h : step prg source s a = some s') :
    Trans source s s' ∨ Lost s' ∧ ¬ a.CallsSucceed :=
  (step_move hs.alive h).trans hx hs hw

theorem Full.whole {s : State} {a : Act} (hf : Full s a) : Whole s a := by
  refine ⟨hf.2, ?_⟩
  cases a with
  | complete i res => trivial
  | prog b =>
    intro _
    have := hf.1.2.2
    omega

/-! ## Lost programs -/

theorem kernelStep_lost (hl : Lost s) {i : Nat} {res : Int}
    (hf : FullLength s (.complete i res)) (h : kernelStep source s i res = some s') :
    Lost s' := by
  unfold kernelStep at h
  obtain ⟨q, hq, h⟩ := Option.bind_eq_some_iff.mp h
  obtain rfl : res = (q.len : Int) := hf q hq
  cases hd : s.heap.cell q.data with
  | none =>
    rw [hd] at h
    cases h
    exact .inl rfl
  | some d =>
    rw [hd] at h
    simp only [IoRing.complete, hq, Option.map_some] at h
    obtain ⟨t, ht, h⟩ := Option.bind_eq_some_iff.mp h
    obtain ⟨d', dest', -, rfl⟩ := transfer_cases hd ht
    obtain rfl := Option.some.inj h
    -- the program does not move, and what is under way stays as much
    rcases hl with hl | hl | hl
    · exact .inl hl
    · exact .inr (.inl hl)
    · refine .inr (.inr ⟨hl.pc, ?_, ?_⟩)
      · have hshort := hl.short
        have hlt := (List.getElem?_eq_some_iff.mp hq).1
        simp only [List.length_eraseIdx_of_lt hlt, List.length_append, List.length_cons,
          List.length_nil]
        omega
      · intro c hc
        rcases List.mem_append.mp hc with hc | hc
        · exact hl.nonneg c hc
        · rw [List.mem_singleton.mp hc]
          simp only
          omega

/-- The loop takes one completion: it is no error, and the program still waits for too many. -/
theorem Stalled.head (hl : Stalled s) {c : Cqe Req} {cs : List (Cqe Req)}
    (hcq : s.ring.cq = c :: cs) :
    ¬ c.res < 0 ∧ s.ring.inflight.length + (s.ring.cq.drop 1).length + (s.i + 1) < s.writes ∧
      ∀ e ∈ s.ring.cq.drop 1, 0 ≤ e.res := by
  have hshort := hl.short
  have hnn := hl.nonneg
  rw [hcq, List.length_cons] at hshort
  rw [hcq, List.forall_mem_cons] at hnn
  rw [hcq, List.drop_succ_cons, List.drop_zero]
  exact ⟨Int.not_lt.mpr hnn.1, by omega, hnn.2⟩

theorem Stalled.readRecvStep (hl : Stalled s) (hpc : s.pc = .readRecv)
    (h : readRecvStep prg s a = some s') : Lost s' := by
  have hshort := hl.short
  unfold Batch.readRecvStep at h
  rw [if_pos (by omega)] at h
  split at h
  · cases h
    exact .inr (.inl rfl)
  · obtain ⟨c, hc, rfl⟩ := Option.map_eq_some_iff.mp h
    obtain ⟨cs, hcq⟩ := List.head?_eq_some_iff.mp hc
    obtain ⟨hneg, hrest, hnn⟩ := hl.head hcq
    unfold readDone
    cases hd : s.heap.cell c.req.data with
    | none => exact .inl rfl
    | some d =>
      simp only [if_neg hneg]
      unfold IoRing.prep
      split
      · next hnone => exact .inl rfl
      · next r hr =>
        split at hr
        · cases hr
          exact .inr (.inr ⟨.inl hpc, hrest, hnn⟩)
        · cases hr

theorem Stalled.writeRecvStep (hl : Stalled s) (hpc : s.pc = .writeRecv) (ha : 0 ≤ a.cqeErr)
    (h : writeRecvStep s a = some s') : Lost s' := by
  have hshort := hl.short
  unfold Batch.writeRecvStep at h
  rw [if_pos (by omega), if_neg (by omega)] at h
  obtain ⟨c, hc, rfl⟩ := Option.map_eq_some_iff.mp h
  obtain ⟨cs, hcq⟩ := List.head?_eq_some_iff.mp hc
  obtain ⟨hneg, hrest, hnn⟩ := hl.head hcq
  cases hd : s.heap.cell c.req.data with
  | none =>
    simp only [if_neg hneg]
    exact .inl rfl
  | some d =>
    simp only [if_neg hneg]
    exact .inr (.inr ⟨.inr hpc, hrest, hnn⟩)

/-- A lost program stays lost. -/
theorem lost_step (hl : Lost s) {a : Act} (hw : Whole s a) (h : step prg source s a = some s') :
    Lost s' := by
  cases a with
  | complete i res => exact kernelStep_lost hl hw.1 h
  | prog a =>
    unfold step progStep at h
    simp only at h
    rcases hl with hl | hl | hl
    · rw [hl] at h
      cases h
    · rw [hl] at h
      cases h
    · rcases hl.pc with hpc | hpc
      · rw [hpc] at h
        exact hl.readRecvStep hpc h
      · rw [hpc] at h
        exact hl.writeRecvStep hpc (hw.2 hpc) h

end KernelMagic.Batch
