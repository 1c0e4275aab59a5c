/-
  `copy_file` when nothing goes wrong: every request completes with its full length and no call
  fails (`Full`), in whatever order the completions come.

  `Smooth` is the invariant of such runs. No iovec is ever moved (`Plain`), so the retry and error
  branches are not taken, and the main loop never waits with nothing under way (`stocked`). Each
  chunk is read once and written once (`Posted`). `measure` counts the stages that the bytes and
  requests still have to pass, and the position of the control between two completions; every step
  lowers it. `copyFile_finishes` puts this together: every run ends, with status 0, the source
  copied, and one read and one write for each chunk.
-/
import KernelMagic.FileUring2.Copy

namespace KernelMagic.FileUring2

open KernelMagic.Lib

/-- The request completes with its full length; no call of the program fails. -/
def Full (s : State) : Act → Prop
  | .complete i res => ∀ q ∈ s.ring.inflight[i]?, ∀ d ∈ s.heap.cell q.data,
      res = (d.iov.iovLen : Int)
  | .prog a => a.malloc.isSome = true ∧ a.submit = .all ∧ a.cqeErr = 0

theorem Full.submitsAll {s : State} {a : Act} (h : Full s a) : a.SubmitsAll := by
  cases a with
  | complete i res => trivial
  | prog a => exact h.2.1

/-- The records hold whole chunks, and every completion is a full one. -/
structure Plain (h : Heap IoData) (cq : List (Cqe Req)) (off : Nat) : Prop where
  whole : ∀ p d, h.cell p = some d → d.iov = ⟨0, d.firstLen⟩
  range : ∀ p d, h.cell p = some d → d.firstOffset + d.firstLen ≤ off
  full : ∀ c ∈ cq, ∀ d, h.cell c.req.data = some d → c.res = d.iov.iovLen

structure Smooth (source : List UInt8) (s : State) : Prop where
  inv : Inv source source.length s
  covered : Covered source s
  plain : Plain s.heap s.ring.cq s.offset
  posted : Posted s.posted s.queued (readJobs s.heap s.ring.pending)
  busy : s.pc = .fill ∨ s.pc = .submit ∨ (s.pc = .comp ∧ s.gotComp = false) → s.writeLeft ≠ 0
  stocked : s.pc = .submit ∨ (s.pc = .comp ∧ s.gotComp = false) →
    s.insize = 0 ∨ s.ring.pending ≠ 0
  status : ∀ n, s.pc = .ret n → n = 0

/-! ## Plain runs -/

section Plain

variable {h h' : Heap IoData} {cq cq' : List (Cqe Req)} {off off' : Nat}

/-- The records of `h'` are records of `h` with the same iovec and chunk. -/
def Shape (h h' : Heap IoData) : Prop :=
  ∀ p d', h'.cell p = some d' → ∃ d, h.cell p = some d ∧ d'.iov = d.iov ∧
    d'.firstOffset = d.firstOffset ∧ d'.firstLen = d.firstLen

theorem shape_put {p : Nat} {d d' : IoData} (hd : h.cell p = some d) (h1 : d'.iov = d.iov)
    (h2 : d'.firstOffset = d.firstOffset) (h3 : d'.firstLen = d.firstLen) :
    Shape h (h.put p d') := by
  intro q e he
  by_cases hq : q = p
  · subst hq
    rw [Heap.cell_put_self d' hd] at he
    cases he
    exact ⟨d, hd, h1, h2, h3⟩
  · rw [Heap.cell_put_ne _ _ hq] at he
    exact ⟨e, he, rfl, rfl, rfl⟩

theorem shape_free (h : Heap IoData) (p : Nat) : Shape h (h.free p) := by
  intro q e he
  by_cases hq : q = p
  · rw [hq, Heap.cell_free_self] at he
    cases he
  · rw [Heap.cell_free_ne _ hq] at he
    exact ⟨e, he, rfl, rfl, rfl⟩

theorem Plain.shape (hp : Plain h cq off) (hs : Shape h h') (hsub : ∀ c ∈ cq', c ∈ cq) :
    Plain h' cq' off := by
  refine ⟨?_, ?_, ?_⟩
  · intro p d' hd'
    obtain ⟨d, hd, h1, -, h3⟩ := hs p d' hd'
    rw [h1, h3]
    exact hp.whole p d hd
  · intro p d' hd'
    obtain ⟨d, hd, -, h2, h3⟩ := hs p d' hd'
    rw [h2, h3]
    exact hp.range p d hd
  · intro c hc d' hd'
    obtain ⟨d, hd, h1, -, -⟩ := hs _ d' hd'
    rw [h1]
    exact hp.full c (hsub c hc) d hd

theorem Plain.snoc (hp : Plain h cq off) {c : Cqe Req}
    (hc : ∀ d, h.cell c.req.data = some d → c.res = d.iov.iovLen) :
    Plain h (cq ++ [c]) off := by
  refine ⟨hp.whole, hp.range, ?_⟩
  intro e he
  rcases List.mem_append.mp he with he | he
  · exact hp.full e he
  · rw [List.mem_singleton.mp he]
    exact hc

/-- `queue_read` allocates a whole chunk. -/
theorem Plain.alloc (hp : Plain h cq off) {d : IoData} (h1 : d.iov = ⟨0, d.firstLen⟩)
    (h2 : d.firstOffset + d.firstLen ≤ off') (hle : off ≤ off')
    (hlive : ∀ c ∈ cq, ∃ e, h.cell c.req.data = some e) : Plain (h.alloc d) cq off' := by
  refine ⟨?_, ?_, ?_⟩
  · intro p e he
    by_cases hq : p = h.next
    · rw [hq, Heap.cell_alloc_self] at he
      cases he
      exact h1
    · rw [Heap.cell_alloc_ne _ _ hq] at he
      exact hp.whole p e he
  · intro p e he
    by_cases hq : p = h.next
    · rw [hq, Heap.cell_alloc_self] at he
      cases he
      exact h2
    · rw [Heap.cell_alloc_ne _ _ hq] at he
      have := hp.range p e he
      omega
  · intro c hc e he
    obtain ⟨x, hx⟩ := hlive c hc
    rw [Heap.cell_alloc_of_some _ hx] at he
    cases he
    exact hp.full c hc _ hx

end Plain

/-! ## One step -/

section Step

variable {source : List UInt8} {s s' : State} {a : Act}

/-- The head of the completion queue is a full completion. -/
theorem Smooth.full (hs : Smooth source s) {c : Cqe Req} {cs : List (Cqe Req)} {d : IoData}
    (hcq : s.ring.cq = c :: cs) (hd : s.heap.cell c.req.data = some d) : c.res = d.iov.iovLen :=
  hs.plain.full c (IoRing.head_mem_cq hcq) d hd

/-- The drain loop retires complete writes. -/
theorem Smooth.drainsFull (hs : Smooth source s) : DrainsFull s a := by
  cases a with
  | complete i res => trivial
  | prog b =>
    intro _ c hc d hd
    obtain ⟨cs, hcq⟩ := List.head?_eq_some_iff.mp hc
    have := hs.full hcq hd
    right
    omega

/-- A full completion by the kernel keeps the iovecs as they are. -/
theorem Smooth.plain_complete (hs : Smooth source s) {i : Nat} {q : Req} {d : IoData} {res : Int}
    (hq : s.ring.inflight[i]? = some q) (hd : s.heap.cell q.data = some d)
    (hf : Full s (.complete i res)) {h : Heap IoData} (hsh : Shape s.heap h) :
    Plain h (s.ring.cq ++ [⟨q, res⟩]) s.offset := by
  refine (hs.plain.shape hsh (fun c hc => hc)).snoc ?_
  intro d' hd'
  obtain ⟨d₁, hd₁, h1, -, -⟩ := hsh _ d' hd'
  obtain rfl : d = d₁ := Option.some.inj (hd.symm.trans hd₁)
  rw [h1]
  exact hf q hq d hd

theorem pending_complete_ne (r : IoRing Req) {i : Nat} {q : Req} (hq : r.inflight[i]? = some q)
    (res : Int) : IoRing.pending
      { r with inflight := r.inflight.eraseIdx i, cq := r.cq ++ [⟨q, res⟩] } ≠ 0 := by
  obtain ⟨P, -, hP⟩ := IoRing.pending_complete hq res
  rw [hP]
  exact Multiset.cons_ne_zero

/-- The fill loop ends when everything is queued or something is pending. -/
theorem Inv.stocked {size : Nat} (hi : Inv source size s) (hf : Full s a)
    (why : s.insize = 0 ∨ s.reads + s.writes ≥ depth.toUInt64 ∨
      s.ring.entries ≤ s.ring.sq.length ∨ ¬ a.Allocates) :
    s.insize = 0 ∨ s.ring.pending ≠ 0 := by
  rcases why with h | h | h | h
  · exact .inl h
  · -- the depth is reached
    refine .inr fun h0 => ?_
    have hcnt := hi.counters
    rw [h0, Multiset.card_zero] at hcnt
    have h64 : depth.toUInt64.toNat = 64 := rfl
    rw [ge_iff_le, UInt64.le_iff_toNat_le, h64, UInt64.toNat_add] at h
    omega
  · -- the submission queue is full
    refine .inr fun h0 => ?_
    have hle := IoRing.length_sq_le_card s.ring
    have h64 : depth = 64 := rfl
    rw [h0, Multiset.card_zero] at hle
    rw [hi.entries] at h
    omega
  · cases a with
    | complete i res => exact absurd trivial h
    | prog b => exact absurd hf.1 h

/-- Every transition of a run without failures keeps `Smooth`. -/
theorem smooth_step (hs : Smooth source s) (hf : Full s a) (ht : Trans source s a s') :
    Smooth source s' := by
  have hi := hs.inv
  have hinv := inv_step hi ht
  have hcov := covered_step hi hs.covered hs.drainsFull ht
  have hleft := hi.left
  cases ht with
  | failed i q res ha hq hres =>
    subst ha
    obtain ⟨d, hd⟩ := hi.ready.live _ (IoRing.mem_pending_of_inflight (List.mem_of_getElem? hq))
    have := hf q hq d hd
    omega
  | loaded i q d res ha hq hd h0 hle hr hlen =>
    subst ha
    exact ⟨hinv, hcov, hs.plain_complete hq hd hf (shape_put hd rfl rfl rfl),
      hs.posted.todo_eq (hi.loaded hq hd hle hr hlen).2, hs.busy,
      fun _ => .inr (pending_complete_ne _ hq res), hs.status⟩
  | written i q d res ha hq hd h0 hle hr =>
    subst ha
    exact ⟨hinv, hcov, hs.plain_complete hq hd hf fun p e he => ⟨e, he, rfl, rfl, rfl⟩,
      hs.posted.todo_eq (hi.written hq hd hle hr).2, hs.busy,
      fun _ => .inr (pending_complete_ne _ hq res), hs.status⟩
  | enter hpc hw =>
    refine ⟨hinv, hcov, hs.plain, hs.posted, fun _ => ?_, ?_, ?_⟩
    · simp only
      omega
    · simp
    · simp
  | leave hpc hin hw =>
    exact ⟨hinv, hcov, hs.plain, hs.posted, by simp, by simp, by simp⟩
  | filled hpc why =>
    exact ⟨hinv, hcov, hs.plain, hs.posted, fun _ => hs.busy (.inl hpc),
      fun _ => hi.stocked hf why, by simp⟩
  | queued junk hpc hne hfull hroom =>
    refine ⟨hinv, hcov, ?_, ?_, fun _ => hs.busy (.inl hpc), ?_, ?_⟩
    · exact hs.plain.alloc rfl (Nat.le_refl _) (Nat.le_add_right _ _)
        fun c hc => hi.ready.live c (IoRing.mem_pending_of_cq hc)
    · exact (hs.posted.snoc_read _).todo_eq (hi.queued junk hpc hne hfull []).2
    · simp [hpc]
    · simp [hpc]
  | submitted hpc hh =>
    have hp := IoRing.pending_submit_all s.ring
    rw [IoRing.submit_all] at hp
    refine ⟨hinv, hcov, hs.plain, hs.posted.todo_eq (by rw [hp]),
      fun _ => hs.busy (.inr (.inl hpc)), fun _ => ?_, by simp⟩
    rw [hp]
    exact hs.stocked (.inl hpc)
  | skipped hpc hh =>
    exact ⟨hinv, hcov, hs.plain, hs.posted,
      fun _ => hs.busy (.inr (.inl hpc)), fun _ => hs.stocked (.inl hpc), by simp⟩
  | compDone hpc hw =>
    exact ⟨hinv, hcov, hs.plain, hs.posted, by simp, by simp, by simp⟩
  | idle hpc hw hg =>
    exact ⟨hinv, hcov, hs.plain, hs.posted, by simp, by simp, by simp⟩
  | error hpc g why =>
    exfalso
    rcases why with ⟨b, rfl, hb⟩ | ⟨c, hc, hneg⟩
    · have := hf.2.2
      omega
    · obtain ⟨cs, hcq⟩ := List.head?_eq_some_iff.mp hc
      obtain ⟨d, hd⟩ := hi.ready.live c (IoRing.head_mem_pending hcq)
      have := hs.full hcq hd
      omega
  | again c cs d hpc hw hcq hd hres =>
    have := hs.full hcq hd
    simp only [eagain] at hres
    omega
  | short c cs d hpc hw hcq hd hres hne =>
    have := hs.full hcq hd
    omega
  | readDone c cs d hpc hw hcq hd hres he hr =>
    have hiov := hs.plain.whole _ d hd
    refine ⟨hinv, hcov, ?_, ?_, by simp [hpc], by simp [hpc], by simp [hpc]⟩
    · refine hs.plain.shape (shape_put hd hiov.symm rfl rfl) ?_
      intro e he
      exact List.mem_of_mem_drop he
    · exact (hs.posted.todo_eq (hi.readDone hpc hcq hd he hr []).2.symm).snoc_write
  | writeDone c cs d hpc hw hcq hd hres he hr =>
    have hj := hi.ledger.flight.owned.ok_of_mem (IoRing.head_mem_pending hcq) hd
    exact ⟨hinv, hcov, hs.plain.shape (shape_free _ _) fun e he => List.mem_of_mem_drop he,
      hs.posted.todo_eq (hi.freed (.inl hpc) hcq (by rw [hj.read, hr]) true).2,
      by simp [hpc], by simp [hpc], by simp [hpc]⟩
  | drained hpc hw =>
    exact ⟨hinv, hcov, hs.plain, hs.posted, by simp, by simp, by simp⟩
  | drainDone b c cs d ha hpc hw hcq hd hres =>
    have hr := hi.drain_write (.inl hpc) (IoRing.head_mem_pending hcq)
    exact ⟨hinv, hcov, hs.plain.shape (shape_free _ _) fun e he => List.mem_of_mem_drop he,
      hs.posted.todo_eq (hi.freed (.inr hpc) hcq hr s.gotComp).2,
      by simp [hpc], by simp [hpc], by simp [hpc]⟩

theorem smooth_init (source : List UInt8) : Smooth source (init source.length) where
  inv := inv_init source _
  covered := fun p hp => absurd hp (Nat.not_lt_zero p)
  plain := ⟨by simp [init], by simp [init], by simp [init]⟩
  posted := ⟨rfl, rfl⟩
  busy := by simp [init]
  stocked := by simp [init]
  status := by simp [init]

end Step

/-! ## Termination -/

/-- The weight of a request: a read is still to be followed by a write. -/
def reqWeight (q : Req) : Nat := if q.read then 3 else 1

/-- Where the control stands on its way to the next completion. -/
def rank (s : State) : Nat :=
  match s.pc with
  | .comp => if s.gotComp then 4 else 0
  | .outer => 3
  | .fill => 2
  | .submit => 1
  | .drain => 1
  | .ret _ => 0
  | .fault => 0

def measure (s : State) : Nat := 5 * (6 * s.insize + s.ring.weigh reqWeight) + rank s

section Termination

variable {source : List UInt8} {s s' : State} {a : Act}

theorem reqWeight_pos (q : Req) : 1 ≤ reqWeight q := by
  unfold reqWeight
  split <;> omega

theorem measure_step (hs : Smooth source s) (hf : Full s a) (ht : Trans source s a s') :
    measure s' < measure s := by
  have hs' := smooth_step hs hf ht
  have hbusy := hs.busy
  have hts := thisSize_eq s.insize
  have hB : bufSize = 32768 := rfl
  unfold measure
  cases ht with
  | failed i q res ha hq hres =>
    have := IoRing.weigh_complete reqWeight hq res
    simp only [rank]
    omega
  | loaded i q d res ha hq hd h0 hle hr hlen =>
    have := IoRing.weigh_complete reqWeight hq res
    simp only [rank]
    omega
  | written i q d res ha hq hd h0 hle hr =>
    have := IoRing.weigh_complete reqWeight hq res
    simp only [rank]
    omega
  | enter hpc hw => simp [rank, hpc]
  | leave hpc hin hw => simp [rank, hpc]
  | filled hpc why => simp [rank, hpc]
  | queued junk hpc hne hfull hroom =>
    have := IoRing.weigh_prep reqWeight s.ring ⟨true, s.offset, s.heap.next⟩
    simp only [reqWeight, if_true] at this
    simp only [rank]
    omega
  | submitted hpc hh =>
    have := IoRing.weigh_submit reqWeight s.ring
    simp only [rank, hpc, Bool.false_eq_true, if_false]
    omega
  | skipped hpc hh => simp [rank, hpc]
  | compDone hpc hw =>
    cases hg : s.gotComp with
    | true => simp [rank, hpc, hg]
    | false => exact absurd hw (hbusy (.inr (.inr ⟨hpc, hg⟩)))
  | idle hpc hw hg => simp [rank, hpc, hg]
  | error hpc g why => exact absurd (hs'.status 1 rfl) (by decide)
  | again c cs d hpc hw hcq hd hres =>
    have := hs.full hcq hd
    simp only [eagain] at hres
    omega
  | short c cs d hpc hw hcq hd hres hne =>
    have := hs.full hcq hd
    omega
  | readDone c cs d hpc hw hcq hd hres he hr =>
    have hj := hs.inv.ledger.flight.owned.ok_of_mem (IoRing.head_mem_pending hcq) hd
    have hw := IoRing.weigh_resubmit reqWeight hcq ⟨false, d.firstOffset, c.req.data⟩
    have h3 : reqWeight c.req = 3 := by simp [reqWeight, hj.read, hr]
    have h1 : reqWeight ⟨false, d.firstOffset, c.req.data⟩ = 1 := rfl
    simp only [rank, hpc, if_true]
    omega
  | writeDone c cs d hpc hw hcq hd hres he hr =>
    have hw := IoRing.weigh_advance reqWeight hcq
    have := reqWeight_pos c.req
    simp only [rank, hpc, if_true]
    omega
  | drained hpc hw => simp [rank, hpc]
  | drainDone b c cs d ha hpc hw hcq hd hres =>
    have hw := IoRing.weigh_advance reqWeight hcq
    have := reqWeight_pos c.req
    simp only [rank, hpc]
    omega

theorem go_of_isSome {a : Act} (hf : Full s a) (h : (step source s a).isSome = true) :
    ∃ a s', Full s a ∧ step source s a = some s' := by
  obtain ⟨s', hs'⟩ := Option.isSome_iff_exists.mp h
  exact ⟨a, s', hf, hs'⟩

/-- A request in flight can be completed in full. -/
theorem Smooth.complete (hs : Smooth source s) (hne : s.ring.inflight ≠ []) :
    ∃ a s', Full s a ∧ step source s a = some s' := by
  obtain ⟨q, qs, hq⟩ := List.exists_cons_of_ne_nil hne
  have hq0 : s.ring.inflight[0]? = some q := by rw [hq]; rfl
  obtain ⟨d, hd, hj⟩ := hs.inv.ledger.flight.job
    (IoRing.mem_pending_of_inflight (List.mem_of_getElem? hq0))
  have hfit : q.offset + d.iov.iovLen ≤ source.length := by
    have h1 := hs.plain.range _ d hd
    have h2 := hs.inv.cut.off_le
    have h3 : q.offset = d.offset := hj.offset
    have h4 := hj.start
    have h5 := hj.rest
    omega
  have hfull : Full s (.complete 0 d.iov.iovLen) := by
    intro q' hq' d' hd'
    obtain rfl : q = q' := Option.some.inj (hq0.symm.trans hq')
    obtain rfl : d = d' := Option.some.inj (hd.symm.trans hd')
    rfl
  have hneg : ¬ ((d.iov.iovLen : Int) < 0) := by omega
  refine go_of_isSome hfull ?_
  cases hr : q.read with
  | true =>
    simp [step, kernelStep, transfer, hq0, hd, hr, hneg, length_pread _ _ _ hfit, IoRing.complete]
  | false => simp [step, kernelStep, transfer, hq0, hd, hr, hneg, IoRing.complete]

/-- When nothing is completed but something is pending behind the submit, it is in flight. -/
theorem Smooth.waiting (hs : Smooth source s) (hpc : s.pc = .comp ∨ s.pc = .drain)
    (hcq : s.ring.cq = []) (hp : s.ring.pending ≠ 0) :
    ∃ a s', Full s a ∧ step source s a = some s' := by
  have hsq : s.ring.sq = [] := by
    rcases hpc with h | h <;> exact hs.inv.flushed (by simp [h]) (by simp [h])
  refine hs.complete fun h => hp ?_
  simp [IoRing.pending, hsq, hcq, h]

/-- A run without failures is not stuck before it has returned. -/
theorem Smooth.go (hs : Smooth source s) :
    s.pc = .ret 0 ∨ ∃ a s', Full s a ∧ step source s a = some s' := by
  have hprog : Full s (.prog {}) := ⟨rfl, rfl, rfl⟩
  cases hpc : s.pc with
  | ret n => exact .inl (by rw [hs.status n hpc])
  | fault => exact absurd hpc hs.inv.noFault
  | outer =>
    refine .inr (go_of_isSome hprog ?_)
    simp only [step, progStep, hpc]
    split <;> rfl
  | fill => exact .inr (go_of_isSome hprog (by simp [step, progStep, hpc]))
  | submit => exact .inr (go_of_isSome hprog (by simp [step, progStep, hpc]))
  | comp =>
    right
    by_cases hw : s.writeLeft = 0
    · exact go_of_isSome hprog (by simp [step, progStep, hpc, compStep, hw])
    by_cases hblock : s.gotComp = false ∧ s.ring.cq = []
    · -- `io_uring_wait_cqe` blocks: it is the kernel's turn
      refine hs.waiting (.inl hpc) hblock.2 ?_
      rcases hs.stocked (.inr ⟨hpc, hblock.1⟩) with h | h
      · intro h0
        have hleft := hs.inv.left
        rw [h, h0] at hleft
        exact hw hleft
      · exact h
    · refine go_of_isSome hprog ?_
      cases hg : s.gotComp with
      | true => simp [step, progStep, hpc, compStep, fetch, hw, hg]
      | false =>
        obtain ⟨c, cs, hcq⟩ := List.exists_cons_of_ne_nil fun h => hblock ⟨hg, h⟩
        simp [step, progStep, hpc, compStep, fetch, hw, hg, hcq]
  | drain =>
    right
    by_cases hw : s.writes = 0
    · exact go_of_isSome hprog (by simp [step, progStep, hpc, drainStep, hw])
    cases hcq : s.ring.cq with
    | cons c cs => exact go_of_isSome hprog (by simp [step, progStep, hpc, drainStep, hw, hcq])
    | nil =>
      refine hs.waiting (.inr hpc) hcq fun h0 => hw ?_
      have hcnt := hs.inv.counters
      rw [h0, Multiset.card_zero] at hcnt
      exact UInt64.toNat_inj.mp (by rw [UInt64.toNat_zero]; omega)

/-- What a run without failures has done when it is over. -/
structure Finished (source : List UInt8) (s : State) : Prop where
  status : s.pc = .ret 0
  dest : s.dest = source
  posted : OneEach bufSize source.length s.posted

theorem Smooth.finished (hs : Smooth source s) (hpc : s.pc = .ret 0) : Finished source s := by
  obtain ⟨hp, -, hoff⟩ := hs.inv.ret_zero hpc
  have hcut := hs.inv.cut
  have hpost := hs.posted
  rw [hoff] at hcut
  rw [hp] at hpost
  exact ⟨hpc, hs.inv.dest_eq hs.covered hpc, hpost.oneEach hcut (by decide)⟩

theorem full_step (hs : Smooth source s) (hf : Full s a) (h : step source s a = some s') :
    Smooth source s' ∧ measure s' < measure s := by
  have ht := step_trans hs.inv.ready hf.submitsAll h
  exact ⟨smooth_step hs hf ht, measure_step hs hf ht⟩

theorem smooth_run {acts : List Act} (hf : Along (step source) Full (init source.length) acts)
    (hr : run (step source) (init source.length) acts = some s) : Smooth source s :=
  run_inv (fun _ _ _ hs hfa h => (full_step hs hfa h).1) (smooth_init source) hf hr

/-- Every run without failures ends, and ends well. -/
theorem copyFile_finishes (source : List UInt8) :
    Finishes (step source) Full (init source.length) (Finished source) := by
  refine finishes_of_measure measure ?_ ?_ (smooth_init source)
  · exact fun s a s' hs hf h => full_step hs hf h
  · intro s hs
    rcases hs.go with h | h
    · exact .inl (hs.finished h)
    · exact .inr h

end Termination

end KernelMagic.FileUring2
