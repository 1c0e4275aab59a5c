/-
  `copy_file` with transfers that are cut short. Every completion moves at least one byte, and no call
  fails; a write may be cut short as long as some of the source is still to be read (`Reading`). Reads
  may always be.

  The completion queue is taken up in its order. So a write that has been cut short while a read was
  unfinished has the completion of that read behind it (`Followed`), the main loop has not come to its
  end when it meets the write, and writes the rest; the drain loop, which does not look at the length,
  only meets whole ones.

  The measure of such runs is the work that is left, then the stages that the requests have to pass, then
  the position of the control; every step lowers it. `copyFile_finishes_short`: every run ends, with
  status 0 and the source copied.
-/
import KernelMagic.FileUring2.Progress
import KernelMagic.FileUring2.Work

namespace KernelMagic.FileUring2

open KernelMagic.Lib

/-- Some of the source is not queued yet, or asked for and not answered. -/
def Reading (s : State) : Prop :=
  s.insize ≠ 0 ∨ ∃ q, (q ∈ s.ring.sq ∨ q ∈ s.ring.inflight) ∧ q.read = true

/-- The request moves something, and all it asks for if it is a write with nothing left to be read; no
    call of the program fails. -/
def Brisk (s : State) : Act → Prop
  | .complete i res => ∀ q ∈ s.ring.inflight[i]?, ∀ d ∈ s.heap.cell q.data,
      0 < res ∧ (q.read = true ∨ res = (d.iov.iovLen : Int) ∨ Reading s)
  | .prog a => a.malloc.isSome = true ∧ a.submit = .all ∧ a.cqeErr = 0

/-- A write in the queue that has been cut short has a read behind it, or there is `more`. -/
def Followed (h : Heap IoData) (more : Prop) : List (Cqe Req) → Prop
  | [] => True
  | c :: cs => (∀ d, h.cell c.req.data = some d → d.read = true ∨ c.res = d.iov.iovLen ∨ more ∨
      ∃ c' ∈ cs, c'.req.read = true) ∧ Followed h more cs

/-- The chunks of the records lie in front of `off`. -/
def Ranged (h : Heap IoData) (off : Nat) : Prop :=
  ∀ p d, h.cell p = some d → d.firstOffset + d.firstLen ≤ off

/-- The main loop is only entered with something left to be written, and only waits for what has been
    asked for. -/
structure Stocked (s : State) : Prop where
  busy : s.pc = .fill ∨ s.pc = .submit ∨ (s.pc = .comp ∧ s.gotComp = false) → s.writeLeft ≠ 0
  stocked : s.pc = .submit ∨ (s.pc = .comp ∧ s.gotComp = false) →
    s.insize = 0 ∨ s.ring.pending ≠ 0
  status : ∀ n, s.pc = .ret n → n = 0

structure Steady (source : List UInt8) (s : State) : Prop where
  inv : Inv source source.length s
  sound : Sound source s
  covered : Covered source s
  moved : ∀ c ∈ s.ring.cq, 0 < c.res
  followed : Followed s.heap (Reading s) s.ring.cq
  range : Ranged s.heap s.offset
  control : Stocked s

/-! ## The completion queue -/

section Queue

variable {h h' : Heap IoData} {more more' : Prop} {cq : List (Cqe Req)} {c : Cqe Req} {off off' : Nat}
  {p : Nat} {d d' : IoData}

theorem Followed.imp (hf : Followed h more cq) (hm : more → more')
    (hs : ∀ c ∈ cq, ∀ d', h'.cell c.req.data = some d' → ∃ d, h.cell c.req.data = some d ∧
      d'.read = d.read ∧ d'.iov = d.iov) : Followed h' more' cq := by
  induction cq with
  | nil => trivial
  | cons c cs ih =>
    refine ⟨fun d' hd' => ?_, ih hf.2 fun e he => hs e (List.mem_cons_of_mem c he)⟩
    obtain ⟨d, hd, h1, h2⟩ := hs c List.mem_cons_self d' hd'
    rw [h1, h2]
    exact (hf.1 d hd).imp_right (Or.imp_right (Or.imp_left hm))

/-- The completion of a read makes up for a read that is no longer unfinished. -/
theorem Followed.snoc (hf : Followed h more cq) (hm : more → more' ∨ c.req.read = true)
    (hc : ∀ d, h.cell c.req.data = some d → d.read = true ∨ c.res = d.iov.iovLen ∨ more') :
    Followed h more' (cq ++ [c]) := by
  induction cq with
  | nil => exact ⟨fun d hd => (hc d hd).imp_right (Or.imp_right .inl), trivial⟩
  | cons e cs ih =>
    refine ⟨fun d hd => ?_, ih hf.2⟩
    rcases hf.1 d hd with h1 | h2 | h3 | ⟨c', hc', hr⟩
    · exact .inl h1
    · exact .inr (.inl h2)
    · rcases hm h3 with h | h
      · exact .inr (.inr (.inl h))
      · exact .inr (.inr (.inr ⟨c, List.mem_append_right _ List.mem_cons_self, h⟩))
    · exact .inr (.inr (.inr ⟨c', List.mem_append_left _ hc', hr⟩))

theorem Ranged.put (hr : Ranged h off) (hd : h.cell p = some d)
    (h1 : d'.firstOffset = d.firstOffset) (h2 : d'.firstLen = d.firstLen) :
    Ranged (h.put p d') off := by
  intro q e he
  by_cases hq : q = p
  · subst hq
    rw [Heap.cell_put_self d' hd] at he
    cases he
    rw [h1, h2]
    exact hr q d hd
  · rw [Heap.cell_put_ne _ _ hq] at he
    exact hr q e he

theorem Ranged.free (hr : Ranged h off) (p : Nat) : Ranged (h.free p) off := by
  intro q e he
  by_cases hq : q = p
  · rw [hq, Heap.cell_free_self] at he
    cases he
  · rw [Heap.cell_free_ne _ hq] at he
    exact hr q e he

theorem Ranged.alloc (hr : Ranged h off) (hle : off ≤ off')
    (hd : d.firstOffset + d.firstLen ≤ off') : Ranged (h.alloc d) off' := by
  intro q e he
  by_cases hq : q = h.next
  · rw [hq, Heap.cell_alloc_self] at he
    cases he
    exact hd
  · rw [Heap.cell_alloc_ne _ _ hq] at he
    exact (hr q e he).trans hle

end Queue

/-! ## One step -/

section Step

variable {source : List UInt8} {s s' : State} {a : Act}

theorem Brisk.submitsAll (hb : Brisk s a) : a.SubmitsAll := by
  cases a with
  | complete i res => trivial
  | prog a => exact hb.2.1

/-- What is unfinished stays so as long as the requests are kept. -/
theorem Reading.of_queues (hr : Reading s) (hi : s'.insize = s.insize)
    (hq : ∀ q, q ∈ s.ring.sq ∨ q ∈ s.ring.inflight → q ∈ s'.ring.sq ∨ q ∈ s'.ring.inflight) :
    Reading s' := by
  rcases hr with h | ⟨q, hm, hread⟩
  · exact .inl (by rwa [hi])
  · exact .inr ⟨q, hq q hm, hread⟩

/-- A read that is completed may have been the last that was unfinished. -/
theorem Reading.completed (hr : Reading s) {i : Nat} {q : Req} (hq : s.ring.inflight[i]? = some q)
    (hi : s'.insize = s.insize) (hsq : s'.ring.sq = s.ring.sq)
    (hin : s'.ring.inflight = s.ring.inflight.eraseIdx i) : Reading s' ∨ q.read = true := by
  rcases hr with h | ⟨q', hm | hm, hread⟩
  · exact .inl (.inl (by rwa [hi]))
  · exact .inl (.inr ⟨q', .inl (by rwa [hsq]), hread⟩)
  · obtain ⟨hlt, rfl⟩ := List.getElem?_eq_some_iff.mp hq
    rcases List.mem_cons.mp ((List.getElem_cons_eraseIdx_perm hlt).mem_iff.mpr hm) with rfl | hmem
    · exact .inr hread
    · exact .inl (.inr ⟨q', .inr (by rwa [hin]), hread⟩)

/-- The drain loop meets whole writes. -/
theorem Steady.drainsFull (hs : Steady source s) : DrainsFull s a := by
  cases a with
  | complete i res => trivial
  | prog b =>
    intro hpc c hc d hd
    obtain ⟨cs, hcq⟩ := List.head?_eq_some_iff.mp hc
    have hwrite : ∀ e ∈ s.ring.pending, e.req.read = false := fun e he =>
      hs.inv.drain_write (.inl hpc) he
    have hno : ¬ Reading s := by
      rintro (h | ⟨q, hm | hm, hread⟩)
      · exact h (hs.inv.drained (.inl hpc)).1
      · exact absurd (hwrite ⟨q, 0⟩ (by simp [IoRing.pending, hm])) (by simp [hread])
      · exact absurd (hwrite ⟨q, 0⟩ (IoRing.mem_pending_of_inflight hm)) (by simp [hread])
    have hfol := hs.followed
    rw [hcq] at hfol
    have hj := hs.inv.ledger.flight.owned.ok_of_mem (IoRing.head_mem_pending hcq) hd
    rcases hfol.1 d hd with h | h | h | ⟨c', hc', h⟩
    · exact absurd (hj.read.trans h) (by simp [hwrite c (IoRing.head_mem_pending hcq)])
    · exact .inr (by omega)
    · exact absurd h hno
    · have hmem : c' ∈ s.ring.pending := by
        refine IoRing.mem_pending_of_cq ?_
        rw [hcq]
        exact List.mem_cons_of_mem c hc'
      exact absurd h (by simp [hwrite c' hmem])

/-- The queue behind its head, when the record of the head has been changed or freed. -/
theorem Steady.tail (hs : Steady source s) {c : Cqe Req} {cs : List (Cqe Req)}
    (hcq : s.ring.cq = c :: cs) {h' : Heap IoData}
    (hne : ∀ p, p ≠ c.req.data → h'.cell p = s.heap.cell p) {more : Prop} (hm : Reading s → more) :
    Followed h' more ((s.ring.cq).drop 1) := by
  have hfol := hs.followed
  have hf := hs.inv.ledger.flight
  rw [hcq] at hfol
  rw [IoRing.pending_advance hcq] at hf
  rw [hcq]
  refine hfol.2.imp hm fun e he d' hd' => ?_
  have hadv : e ∈ (s.ring.advance 1).pending := by
    refine IoRing.mem_pending_of_cq ?_
    rw [IoRing.advance, hcq]
    exact he
  rw [hne _ (hf.not_mem hadv)] at hd'
  exact ⟨d', hd', rfl, rfl⟩

theorem Brisk.allocates (hb : Brisk s a) : a.Allocates := by
  cases a with
  | complete i res => trivial
  | prog a => exact hb.1

/-- A completion moves something. -/
theorem Steady.res_pos (hs : Steady source s) {i : Nat} {q : Req} {res : Int}
    (hb : Brisk s (.complete i res)) (hq : s.ring.inflight[i]? = some q) : 0 < res := by
  obtain ⟨d, hd⟩ := hs.inv.ready.live _ (IoRing.mem_pending_of_inflight (List.mem_of_getElem? hq))
  exact (hb q hq d hd).1

theorem Steady.head_pos (hs : Steady source s) {c : Cqe Req} {cs : List (Cqe Req)}
    (hcq : s.ring.cq = c :: cs) : 0 < c.res :=
  hs.moved c (IoRing.head_mem_cq hcq)

/-- No call has failed, and neither has a request. -/
theorem Steady.no_error (hs : Steady source s) (hb : Brisk s a)
    (why : (∃ b, a = .prog b ∧ b.cqeErr < 0) ∨ ∃ c, s.ring.cq.head? = some c ∧ c.res < 0) :
    False := by
  rcases why with ⟨b, rfl, hneg⟩ | ⟨c, hc, hneg⟩
  · have := hb.2.2
    omega
  · obtain ⟨cs, hcq⟩ := List.head?_eq_some_iff.mp hc
    have := hs.head_pos hcq
    omega

theorem moved_step (hs : Steady source s) (hb : Brisk s a) (ht : Trans source s a s') :
    ∀ c ∈ s'.ring.cq, 0 < c.res := by
  have happ : ∀ (q : Req) (res : Int), 0 < res → ∀ c ∈ s.ring.cq ++ [⟨q, res⟩], 0 < c.res := by
    intro q res hpos c hc
    rcases List.mem_append.mp hc with hc | hc
    · exact hs.moved c hc
    · rwa [List.mem_singleton.mp hc]
  have hdrop : ∀ c ∈ s.ring.cq.drop 1, 0 < c.res := fun c hc => hs.moved c (List.mem_of_mem_drop hc)
  cases ht with
  | failed i q res ha hq hres =>
    subst ha
    exact happ q res (hs.res_pos hb hq)
  | loaded i q d res ha hq hd h0 hle hr hlen =>
    subst ha
    exact happ q res (hs.res_pos hb hq)
  | written i q d res ha hq hd h0 hle hr =>
    subst ha
    exact happ q res (hs.res_pos hb hq)
  | again c cs d hpc hw hcq hd hres => exact hdrop
  | short c cs d hpc hw hcq hd hres hne => exact hdrop
  | readDone c cs d hpc hw hcq hd hres he hr => exact hdrop
  | writeDone c cs d hpc hw hcq hd hres he hr => exact hdrop
  | drainDone b c cs d ha hpc hw hcq hd hres => exact hdrop
  | _ => exact hs.moved

theorem ranged_step (hs : Steady source s) (ht : Trans source s a s') :
    Ranged s'.heap s'.offset := by
  cases ht with
  | loaded i q d res ha hq hd h0 hle hr hlen => exact hs.range.put hd rfl rfl
  | queued junk hpc hi hfull hroom => exact hs.range.alloc (Nat.le_add_right _ _) (Nat.le_refl _)
  | short c cs d hpc hw hcq hd hres hne => exact hs.range.put hd rfl rfl
  | readDone c cs d hpc hw hcq hd hres he hr => exact hs.range.put hd rfl rfl
  | writeDone c cs d hpc hw hcq hd hres he hr => exact hs.range.free _
  | drainDone b c cs d ha hpc hw hcq hd hres => exact hs.range.free _
  | _ => exact hs.range

/-- A completion joins the queue: it is that of a read, or a whole one, or some read is unfinished. -/
theorem Steady.arrived (hs : Steady source s) {i : Nat} {q : Req} {d : IoData} {res : Int}
    (hb : Brisk s (.complete i res)) (hq : s.ring.inflight[i]? = some q)
    (hd : s.heap.cell q.data = some d) {h : Heap IoData}
    (hshape : ∀ p d', h.cell p = some d' → ∃ d, s.heap.cell p = some d ∧ d'.read = d.read ∧
      d'.iov = d.iov)
    (hi : s'.insize = s.insize) (hsq : s'.ring.sq = s.ring.sq)
    (hin : s'.ring.inflight = s.ring.inflight.eraseIdx i) :
    Followed h (Reading s') (s.ring.cq ++ [⟨q, res⟩]) := by
  obtain ⟨d₁, hd₁, hj⟩ := hs.inv.ledger.flight.job
    (IoRing.mem_pending_of_inflight (List.mem_of_getElem? hq))
  obtain rfl : d = d₁ := Option.some.inj (hd.symm.trans hd₁)
  have hread : q.read = d.read := hj.read
  have hnow : Reading s → Reading s' ∨ q.read = true := fun hr => hr.completed hq hi hsq hin
  refine (hs.followed.imp id fun c _ d' hd' => hshape _ d' hd').snoc hnow fun d' hd' => ?_
  obtain ⟨d₂, hd₂, h1, h2⟩ := hshape _ d' hd'
  obtain rfl : d = d₂ := Option.some.inj (hd.symm.trans hd₂)
  rw [h1, h2, ← hread]
  rcases (hb q hq d hd).2 with h | h | h
  · exact .inl h
  · exact .inr (.inl h)
  · exact (hnow h).elim (fun h => .inr (.inr h)) .inl

theorem followed_step (hs : Steady source s) (hb : Brisk s a) (ht : Trans source s a s') :
    Followed s'.heap (Reading s') s'.ring.cq := by
  have hput : ∀ {p : Nat} {d d' : IoData}, s.heap.cell p = some d → d'.read = d.read →
      d'.iov = d.iov → ∀ q e', (s.heap.put p d').cell q = some e' → ∃ e, s.heap.cell q = some e ∧
        e'.read = e.read ∧ e'.iov = e.iov := by
    intro p d d' hd h1 h2 q e' he'
    by_cases hq : q = p
    · subst hq
      rw [Heap.cell_put_self d' hd] at he'
      cases he'
      exact ⟨d, hd, h1, h2⟩
    · rw [Heap.cell_put_ne _ _ hq] at he'
      exact ⟨e', he', rfl, rfl⟩
  -- what is in the submission queue or in flight stays there when a request is queued again
  have hmore : ∀ (q : Req) (r : Req), (r ∈ s.ring.sq ∨ r ∈ s.ring.inflight) →
      r ∈ (s.ring.resubmit q).sq ∨ r ∈ (s.ring.resubmit q).inflight := by
    intro q r hr
    right
    simp only [IoRing.resubmit, List.mem_append]
    tauto
  cases ht with
  | failed i q res ha hq hres =>
    subst ha
    have := hs.res_pos hb hq
    omega
  | loaded i q d res ha hq hd h0 hle hr hlen =>
    subst ha
    exact hs.arrived hb hq hd (hput hd rfl rfl) rfl rfl rfl
  | written i q d res ha hq hd h0 hle hr =>
    subst ha
    exact hs.arrived hb hq hd (fun p d' hd' => ⟨d', hd', rfl, rfl⟩) rfl rfl rfl
  | queued junk hpc hi hfull hroom =>
    refine hs.followed.imp (fun _ => .inr ⟨⟨true, s.offset, s.heap.next⟩, .inl ?_, rfl⟩)
      fun c hc d' hd' => ?_
    · exact List.mem_append_right _ List.mem_cons_self
    · obtain ⟨d, hd⟩ := hs.inv.ready.live c (IoRing.mem_pending_of_cq hc)
      rw [Heap.cell_alloc_of_some _ hd] at hd'
      cases hd'
      exact ⟨_, hd, rfl, rfl⟩
  | submitted hpc hh =>
    refine hs.followed.imp (fun hr => hr.of_queues rfl fun q hq => .inr ?_)
      fun c _ d hd => ⟨d, hd, rfl, rfl⟩
    rw [List.mem_append]
    exact hq.symm
  | again c cs d hpc hw hcq hd hres =>
    have := hs.head_pos hcq
    simp only [eagain] at hres
    omega
  | short c cs d hpc hw hcq hd hres hne =>
    exact hs.tail hcq (fun p hp => Heap.cell_put_ne _ _ hp) fun hr => hr.of_queues rfl (hmore _)
  | readDone c cs d hpc hw hcq hd hres he hr =>
    exact hs.tail hcq (fun p hp => Heap.cell_put_ne _ _ hp) fun hr => hr.of_queues rfl (hmore _)
  | writeDone c cs d hpc hw hcq hd hres he hr =>
    exact hs.tail hcq (fun p hp => Heap.cell_free_ne _ hp) fun hr => hr.of_queues rfl fun _ h => h
  | drainDone b c cs d ha hpc hw hcq hd hres =>
    exact hs.tail hcq (fun p hp => Heap.cell_free_ne _ hp) fun hr => hr.of_queues rfl fun _ h => h
  | _ => exact hs.followed

theorem stocked_step (hs : Steady source s) (hb : Brisk s a) (ht : Trans source s a s') :
    Stocked s' := by
  have hi := hs.inv
  have hc := hs.control
  have hleft := hi.left
  cases ht with
  | failed i q res ha hq hres =>
    exact ⟨hc.busy, fun _ => .inr (pending_complete_ne _ hq res), hc.status⟩
  | loaded i q d res ha hq hd h0 hle hr hlen =>
    exact ⟨hc.busy, fun _ => .inr (pending_complete_ne _ hq res), hc.status⟩
  | written i q d res ha hq hd h0 hle hr =>
    exact ⟨hc.busy, fun _ => .inr (pending_complete_ne _ hq res), hc.status⟩
  | enter hpc hw =>
    refine ⟨fun _ => ?_, by simp, by simp⟩
    simp only
    omega
  | leave hpc hin hw => exact ⟨by simp, by simp, by simp⟩
  | filled hpc why =>
    have hfull : Full s (.prog {}) := ⟨rfl, rfl, rfl⟩
    refine ⟨fun _ => hc.busy (.inl hpc), fun _ => hi.stocked hfull ?_, by simp⟩
    exact why.imp_right (Or.imp_right (Or.imp_right fun h => absurd hb.allocates h))
  | queued junk hpc hne hfull hroom =>
    exact ⟨fun _ => hc.busy (.inl hpc), by simp [hpc], by simp [hpc]⟩
  | submitted hpc hh =>
    have hp := IoRing.pending_submit_all s.ring
    rw [IoRing.submit_all] at hp
    refine ⟨fun _ => hc.busy (.inr (.inl hpc)), fun _ => ?_, by simp⟩
    rw [hp]
    exact hc.stocked (.inl hpc)
  | skipped hpc hh =>
    exact ⟨fun _ => hc.busy (.inr (.inl hpc)), fun _ => hc.stocked (.inl hpc), by simp⟩
  | compDone hpc hw => exact ⟨by simp, by simp, by simp⟩
  | idle hpc hw hg => exact ⟨by simp, by simp, by simp⟩
  | error hpc g why => exact (hs.no_error hb why).elim
  | again c cs d hpc hw hcq hd hres => exact ⟨by simp [hpc], by simp [hpc], by simp [hpc]⟩
  | short c cs d hpc hw hcq hd hres hne => exact ⟨by simp [hpc], by simp [hpc], by simp [hpc]⟩
  | readDone c cs d hpc hw hcq hd hres he hr => exact ⟨by simp [hpc], by simp [hpc], by simp [hpc]⟩
  | writeDone c cs d hpc hw hcq hd hres he hr => exact ⟨by simp [hpc], by simp [hpc], by simp [hpc]⟩
  | drained hpc hw => exact ⟨by simp, by simp, by simp⟩
  | drainDone b c cs d ha hpc hw hcq hd hres => exact ⟨by simp [hpc], by simp [hpc], by simp [hpc]⟩

/-- Every step keeps it. -/
theorem steady_step (hs : Steady source s) (hb : Brisk s a) (h : step source s a = some s') :
    Steady source s' := by
  have ht := step_trans hs.inv.ready hb.submitsAll h
  exact ⟨inv_step hs.inv ht, sound_next hs.sound h, covered_step hs.inv hs.covered hs.drainsFull ht,
    moved_step hs hb ht, followed_step hs hb ht, ranged_step hs ht, stocked_step hs hb ht⟩

theorem steady_init (source : List UInt8) : Steady source (init source.length) where
  inv := inv_init source _
  sound := sound_init source _
  covered := fun p hp => absurd hp (Nat.not_lt_zero p)
  moved := by simp [init]
  followed := trivial
  range := fun p d hd => by simp [init] at hd
  control := ⟨by simp [init], by simp [init], by simp [init]⟩

end Step

/-! ## Termination -/

/-- What lies before the requests: a chunk that is not queued yet has further to go than one that is. -/
def stages (s : State) : Nat := 4 * s.insize + s.ring.weigh fun _ => 1

/-- The work that is left, the stages that lie before the requests, and the control. -/
def steadyMeasure (s : State) : Nat := 5 * (3 * work s + stages s) + rank s

section Termination

variable {source : List UInt8} {s s' : State} {a : Act}

theorem rank_le (s : State) : rank s ≤ 4 := by
  unfold rank
  split <;> try split
  all_goals omega

/-- A completion that is taken up lowers the work by what it has moved. -/
theorem Steady.work_lt (hs : Steady source s) (hm : Move source s a s') {c : Cqe Req}
    (hc : taken s a = some c) : work s' < work s := by
  obtain ⟨-, hhead, -⟩ := taken_some hc
  obtain ⟨cs, hcq⟩ := List.head?_eq_some_iff.mp hhead
  have hpos := hs.head_pos hcq
  rcases work_taken hs.sound hm hc with ⟨hneg, -⟩ | ⟨-, -, hw⟩ <;> omega

/-- The control moves on, or `copy_file` has failed. -/
theorem Steady.rank_lt (hs : Steady source s) (hb : Brisk s a) {pc : Pc} {had : UInt64} {g : Bool}
    (hc : Control s a pc had g) :
    rank { s with pc := pc, hadReads := had, gotComp := g } < rank s := by
  cases hc with
  | enter hpc hw => simp [rank, hpc]
  | leave hpc hi hw => simp [rank, hpc]
  | filled hpc why => simp [rank, hpc]
  | skipped hpc hh => simp [rank, hpc]
  | compDone hpc hw =>
    cases hg : s.gotComp with
    | true => simp [rank, hpc, hg]
    | false => exact absurd hw (hs.control.busy (.inr (.inr ⟨hpc, hg⟩)))
  | idle hpc hw hg ht => simp [rank, hpc, hg]
  | waitFailed b ha hpc herr => exact (hs.no_error hb (.inl ⟨b, ha, herr⟩)).elim
  | failed c hpc ht hres hne => exact (hs.no_error hb (.inr ⟨c, (taken_some ht).2.1, hres⟩)).elim
  | drainFailed b c ha hpc hw herr hc hres => exact (hs.no_error hb (.inr ⟨c, hc, hres⟩)).elim
  | drained hpc hw => simp [rank, hpc]

/-- A step takes up a completion, which may have to go through two stages again, or is further on. -/
theorem stages_step (hs : Steady source s) (hb : Brisk s a) (hm : Move source s a s') :
    (∃ c, taken s a = some c) ∧ stages s' ≤ stages s + 1 ∨
      stages s' < stages s ∧ rank s' = rank s ∨ stages s' ≤ stages s ∧ rank s' < rank s := by
  have hsub := hb.submitsAll
  have hresend : ∀ {b : Answers} (c : Cqe Req) (cs : List (Cqe Req)) (q : Req), a = .prog b →
      s.ring.cq = c :: cs →
      4 * s.insize + IoRing.weigh (fun _ => 1) (s.ring.resend q b.submit) ≤ stages s + 1 := by
    intro b c cs q ha hcq
    subst ha
    have hw := IoRing.weigh_resubmit (fun _ => 1) hcq q
    rw [show b.submit = .all from hsub, stages]
    change 4 * s.insize + IoRing.weigh (fun _ => 1) (s.ring.resubmit q) ≤ _
    omega
  cases hm with
  | completed i q d d' dest res ha hq hd ht =>
    have hw := IoRing.weigh_complete (fun _ => 1) hq res
    refine .inr (.inl ⟨?_, rfl⟩)
    simp only [stages]
    omega
  | moved pc had g hctl => exact .inr (.inr ⟨Nat.le_refl _, hs.rank_lt hb hctl⟩)
  | queued junk hpc hi hfull hroom =>
    have hw := IoRing.weigh_prep (fun _ => 1) s.ring (⟨true, s.offset, s.heap.next⟩ : Req)
    have hts := thisSize_eq s.insize
    have hB : bufSize = 32768 := rfl
    refine .inr (.inl ⟨?_, rfl⟩)
    simp only [stages]
    omega
  | submitted b ha hpc hh hret =>
    subst ha
    have hw := IoRing.weigh_submit (fun _ => 1) s.ring
    rw [show b.submit = .all from hsub, IoRing.submit_all]
    refine .inr (.inr ⟨?_, by simp [rank, hpc]⟩)
    simp only [stages]
    omega
  | submitFailed b ha hpc hh hret =>
    subst ha
    rw [show b.submit = .all from hsub, IoRing.submit_all] at hret
    simp only at hret
    omega
  | again b c cs d ha hpc ht hcq hd hres => exact .inl ⟨⟨c, ht⟩, hresend c cs _ ha hcq⟩
  | short b c cs d ha hpc ht hcq hd hres hne => exact .inl ⟨⟨c, ht⟩, hresend c cs _ ha hcq⟩
  | readDone b c cs d ha hpc ht hcq hd hres he hr => exact .inl ⟨⟨c, ht⟩, hresend c cs _ ha hcq⟩
  | writeDone c cs d hpc ht hcq hd hres he hr =>
    have hw := IoRing.weigh_advance (fun _ => 1) hcq
    refine .inl ⟨⟨c, ht⟩, ?_⟩
    simp only [stages]
    omega
  | drainDone b c cs d ha hpc hw herr hcq hd hres =>
    have hw := IoRing.weigh_advance (fun _ => 1) hcq
    refine .inr (.inl ⟨?_, rfl⟩)
    simp only [stages]
    omega

theorem steadyMeasure_step (hs : Steady source s) (hb : Brisk s a)
    (h : step source s a = some s') : steadyMeasure s' < steadyMeasure s := by
  have hm := step_move hs.sound.alive h
  have hle := work_le hs.sound hm
  have hrank := rank_le s'
  unfold steadyMeasure
  rcases stages_step hs hb hm with ⟨⟨c, hc⟩, hst⟩ | ⟨hst, hr⟩ | ⟨hst, hr⟩
  · have hlt := hs.work_lt hm hc
    omega
  · omega
  · omega

theorem brisk_of_isSome {a : Act} (hb : Brisk s a) (h : (step source s a).isSome = true) :
    ∃ a s', Brisk s a ∧ step source s a = some s' := by
  obtain ⟨s', hs'⟩ := Option.isSome_iff_exists.mp h
  exact ⟨a, s', hb, hs'⟩

/-- A request in flight can be completed in full. -/
theorem Steady.complete (hs : Steady source s) (hne : s.ring.inflight ≠ []) :
    ∃ a s', Brisk s a ∧ step source s a = some s' := by
  obtain ⟨q, qs, hq⟩ := List.exists_cons_of_ne_nil hne
  have hq0 : s.ring.inflight[0]? = some q := by rw [hq]; rfl
  obtain ⟨d, hd, hj⟩ := hs.inv.ledger.flight.job
    (IoRing.mem_pending_of_inflight (List.mem_of_getElem? hq0))
  have hfit : q.offset + d.iov.iovLen ≤ source.length := by
    have h1 := hs.range _ d hd
    have h2 := hs.inv.cut.off_le
    have h3 : q.offset = d.offset := hj.offset
    have h4 := hj.start
    have h5 := hj.rest
    omega
  have hb : Brisk s (.complete 0 d.iov.iovLen) := by
    intro q' hq' d' hd'
    obtain rfl : q = q' := Option.some.inj (hq0.symm.trans hq')
    obtain rfl : d = d' := Option.some.inj (hd.symm.trans hd')
    have := hj.left
    exact ⟨by omega, .inr (.inl rfl)⟩
  have hneg : ¬ ((d.iov.iovLen : Int) < 0) := by omega
  refine brisk_of_isSome hb ?_
  cases hr : q.read with
  | true =>
    simp [step, kernelStep, transfer, hq0, hd, hr, hneg, length_pread _ _ _ hfit, IoRing.complete]
  | false => simp [step, kernelStep, transfer, hq0, hd, hr, hneg, IoRing.complete]

/-- When nothing is completed but something is pending behind the submit, it is in flight. -/
theorem Steady.waiting (hs : Steady source s) (hpc : s.pc = .comp ∨ s.pc = .drain)
    (hcq : s.ring.cq = []) (hp : s.ring.pending ≠ 0) :
    ∃ a s', Brisk s a ∧ step source s a = some s' := by
  have hsq : s.ring.sq = [] := by
    rcases hpc with h | h <;> exact hs.inv.flushed (by simp [h]) (by simp [h])
  refine hs.complete fun h => hp ?_
  simp [IoRing.pending, hsq, hcq, h]

/-- Such a run is not stuck before it has returned. -/
theorem Steady.go (hs : Steady source s) :
    s.pc = .ret 0 ∨ ∃ a s', Brisk s a ∧ step source s a = some s' := by
  have hprog : Brisk s (.prog {}) := ⟨rfl, rfl, rfl⟩
  cases hpc : s.pc with
  | ret n => exact .inl (by rw [hs.control.status n hpc])
  | fault => exact absurd hpc hs.inv.noFault
  | outer =>
    refine .inr (brisk_of_isSome hprog ?_)
    simp only [step, progStep, hpc]
    split <;> rfl
  | fill => exact .inr (brisk_of_isSome hprog (by simp [step, progStep, hpc]))
  | submit => exact .inr (brisk_of_isSome hprog (by simp [step, progStep, hpc]))
  | comp =>
    right
    by_cases hw : s.writeLeft = 0
    · exact brisk_of_isSome hprog (by simp [step, progStep, hpc, compStep, hw])
    by_cases hblock : s.gotComp = false ∧ s.ring.cq = []
    · -- the wait blocks
      refine hs.waiting (.inl hpc) hblock.2 fun h0 => ?_
      rcases hs.control.stocked (.inr ⟨hpc, hblock.1⟩) with h | h
      · have hleft := hs.inv.left
        rw [h, h0] at hleft
        exact hw hleft
      · exact h h0
    · refine brisk_of_isSome hprog ?_
      cases hg : s.gotComp with
      | true => simp [step, progStep, hpc, compStep, fetch, hw, hg]
      | false =>
        obtain ⟨c, cs, hcq⟩ := List.exists_cons_of_ne_nil fun h => hblock ⟨hg, h⟩
        simp [step, progStep, hpc, compStep, fetch, hw, hg, hcq]
  | drain =>
    right
    by_cases hw : s.writes = 0
    · exact brisk_of_isSome hprog (by simp [step, progStep, hpc, drainStep, hw])
    cases hcq : s.ring.cq with
    | cons c cs => exact brisk_of_isSome hprog (by simp [step, progStep, hpc, drainStep, hw, hcq])
    | nil =>
      refine hs.waiting (.inr hpc) hcq fun h0 => hw ?_
      have hcnt := hs.inv.counters
      rw [h0, Multiset.card_zero] at hcnt
      exact UInt64.toNat_inj.mp (by rw [UInt64.toNat_zero]; omega)

/-- **Short transfers.** For every source: every run of `copy_file` in which no call fails, every
    completion moves at least one byte, and no write is cut short when all of the source has been read,
    ends with status 0 and the source copied; and until then it is not stuck. -/
theorem copyFile_finishes_short (source : List UInt8) :
    Finishes (step source) Brisk (init source.length) fun s => s.pc = .ret 0 ∧ s.dest = source := by
  refine finishes_of_measure steadyMeasure ?_ ?_ (steady_init source)
  · exact fun s a s' hs hb h => ⟨steady_step hs hb h, steadyMeasure_step hs hb h⟩
  · intro s hs
    rcases hs.go with hpc | h
    · exact .inl ⟨hpc, hs.inv.dest_eq hs.covered hpc⟩
    · exact .inr h

end Termination

end KernelMagic.FileUring2
