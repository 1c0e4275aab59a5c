/-
  What one step of the `copy_file` machine can do, whatever the results of the requests and the
  answers of the library calls: the moves `Move`, one constructor for each branch of the source, with
  the test that leads to it and the state after it. The branches that only move control are listed in
  `Control`. `step_move` says that there are no others in an `Alive` state: one in which every request
  points to a live record, and in which an entry is left for the completion loop.

  The completion that the main loop takes up, and the calls of `free`, are read off the state before
  the step: `taken`, `freeCalls`.
-/
import KernelMagic.FileUring2.CopyFile

namespace KernelMagic.FileUring2

open KernelMagic.Lib

/-- The submits of this step (if there are any) take every queued request. -/
def Act.SubmitsAll : Act → Prop
  | .complete _ _ => True
  | .prog a => a.submit = .all

/-- The allocation of this step (if there is one) succeeds. -/
def Act.Allocates : Act → Prop
  | .complete _ _ => True
  | .prog a => a.malloc.isSome = true

/-- The completion that the main loop takes up in this step. -/
def taken (s : State) : Act → Option (Cqe Req)
  | .complete _ _ => none
  | .prog b =>
    if s.pc = .comp ∧ s.writeLeft ≠ 0 ∧ ¬ b.cqeErr < 0 then s.ring.cq.head? else none

/-- The records on which `free` is called in this step: by the main loop at the end of a write, by the
    drain loop for every completion that is no error. -/
def freeCalls (s : State) : Act → List Nat
  | .complete _ _ => []
  | .prog b =>
    match s.pc with
    | .comp =>
      match taken s (.prog b) with
      | none => []
      | some c =>
        match s.heap.cell c.req.data with
        | none => []
        | some d =>
          if 0 ≤ c.res ∧ c.res.toNat = d.iov.iovLen ∧ d.read = false then [c.req.data] else []
    | .drain =>
      if s.writes = 0 ∨ b.cqeErr < 0 then []
      else
        match s.ring.cq.head? with
        | none => []
        | some c => if c.res < 0 then [] else [c.req.data]
    | _ => []

/-- What the completion of `q` with `res` makes of its record and of the destination. -/
inductive Transfer (source dest : List UInt8) (q : Req) (d : IoData) (res : Int) :
    IoData → List UInt8 → Prop
  | failed (hres : res < 0) : Transfer source dest q d res d dest
  | loaded (h0 : 0 ≤ res) (hle : res ≤ d.iov.iovLen) (hr : q.read = true)
      (hlen : (pread source q.offset res.toNat).length = res.toNat) :
      Transfer source dest q d res (d.store (pread source q.offset res.toNat)) dest
  | written (h0 : 0 ≤ res) (hle : res ≤ d.iov.iovLen) (hr : q.read = false) :
      Transfer source dest q d res d
        (pwrite 0 dest q.offset (grab d.buf d.iov.iovBase res.toNat))

/-- Control moves on, and nothing else happens. The new values are those of `pc`, `had_reads` and
    `got_comp`. -/
inductive Control (s : State) (a : Act) : Pc → UInt64 → Bool → Prop
  | enter (hpc : s.pc = .outer) (hw : s.insize ≠ 0 ∨ s.writeLeft ≠ 0) :
      Control s a .fill s.reads s.gotComp
  | leave (hpc : s.pc = .outer) (hi : s.insize = 0) (hw : s.writeLeft = 0) :
      Control s a .drain s.hadReads s.gotComp
  | filled (hpc : s.pc = .fill) (why : s.insize = 0 ∨ s.reads + s.writes ≥ depth.toUInt64 ∨
        s.ring.entries ≤ s.ring.sq.length ∨ ¬ a.Allocates) :
      Control s a .submit s.hadReads s.gotComp
  | skipped (hpc : s.pc = .submit) (hh : s.hadReads = s.reads) : Control s a .comp s.hadReads false
  | compDone (hpc : s.pc = .comp) (hw : s.writeLeft = 0) : Control s a .outer s.hadReads s.gotComp
  | idle (hpc : s.pc = .comp) (hw : s.writeLeft ≠ 0) (hg : s.gotComp = true)
      (ht : taken s a = none) : Control s a .outer s.hadReads s.gotComp
  | waitFailed (b : Answers) (ha : a = .prog b)
      (hpc : s.pc = .comp ∧ s.writeLeft ≠ 0 ∨ s.pc = .drain ∧ s.writes ≠ 0) (herr : b.cqeErr < 0) :
      Control s a (.ret 1) s.hadReads s.gotComp
  | failed (c : Cqe Req) (hpc : s.pc = .comp) (ht : taken s a = some c) (hres : c.res < 0)
      (hne : c.res ≠ -eagain) : Control s a (.ret 1) s.hadReads true
  | drainFailed (b : Answers) (c : Cqe Req) (ha : a = .prog b) (hpc : s.pc = .drain)
      (hw : s.writes ≠ 0) (herr : ¬ b.cqeErr < 0) (hc : s.ring.cq.head? = some c)
      (hres : c.res < 0) : Control s a (.ret 1) s.hadReads s.gotComp
  | drained (hpc : s.pc = .drain) (hw : s.writes = 0) : Control s a (.ret 0) s.hadReads s.gotComp

inductive Move (source : List UInt8) (s : State) (a : Act) : State → Prop
  | completed (i : Nat) (q : Req) (d d' : IoData) (dest : List UInt8) (res : Int)
      (ha : a = .complete i res) (hq : s.ring.inflight[i]? = some q)
      (hd : s.heap.cell q.data = some d) (ht : Transfer source s.dest q d res d' dest) :
      Move source s a { s with
        ring :=
          { s.ring with inflight := s.ring.inflight.eraseIdx i, cq := s.ring.cq ++ [⟨q, res⟩] }
        heap := s.heap.put q.data d'
        dest := dest }
  | moved (pc : Pc) (had : UInt64) (g : Bool) (hc : Control s a pc had g) :
      Move source s a { s with pc := pc, hadReads := had, gotComp := g }
  | queued (junk : Nat → UInt8) (hpc : s.pc = .fill) (hi : s.insize ≠ 0)
      (hfull : ¬ s.reads + s.writes ≥ depth.toUInt64)
      (hroom : s.ring.sq.length < s.ring.entries) :
      Move source s a { s with
        insize := s.insize - thisSize s.insize
        offset := s.offset + thisSize s.insize
        reads := s.reads + 1
        heap := s.heap.alloc
          ⟨true, s.offset, s.offset, thisSize s.insize, ⟨0, thisSize s.insize⟩, junk⟩
        ring := { s.ring with sq := s.ring.sq ++ [⟨true, s.offset, s.heap.next⟩] }
        queued := s.queued ++ [(s.offset, thisSize s.insize)]
        posted := s.posted ++ [⟨true, s.offset, thisSize s.insize⟩] }
  | submitted (b : Answers) (ha : a = .prog b) (hpc : s.pc = .submit) (hh : s.hadReads ≠ s.reads)
      (hret : ¬ (s.ring.submit b.submit).2 < 0) :
      Move source s a { s with pc := .comp, gotComp := false, ring := (s.ring.submit b.submit).1 }
  | submitFailed (b : Answers) (ha : a = .prog b) (hpc : s.pc = .submit) (hh : s.hadReads ≠ s.reads)
      (hret : (s.ring.submit b.submit).2 < 0) :
      Move source s a { s with pc := .drain, ring := (s.ring.submit b.submit).1 }
  | again (b : Answers) (c : Cqe Req) (cs : List (Cqe Req)) (d : IoData) (ha : a = .prog b)
      (hpc : s.pc = .comp) (ht : taken s a = some c) (hcq : s.ring.cq = c :: cs)
      (hd : s.heap.cell c.req.data = some d) (hres : c.res = -eagain) :
      Move source s a { s with
        gotComp := true
        ring := s.ring.resend ⟨d.read, d.offset, c.req.data⟩ b.submit
        posted := s.posted ++ [⟨d.read, d.offset, d.iov.iovLen⟩] }
  | short (b : Answers) (c : Cqe Req) (cs : List (Cqe Req)) (d : IoData) (ha : a = .prog b)
      (hpc : s.pc = .comp) (ht : taken s a = some c) (hcq : s.ring.cq = c :: cs)
      (hd : s.heap.cell c.req.data = some d) (hres : 0 ≤ c.res) (hne : c.res.toNat ≠ d.iov.iovLen) :
      Move source s a { s with
        gotComp := true
        heap := s.heap.put c.req.data (d.resume c.res.toNat)
        ring := s.ring.resend ⟨d.read, d.offset + c.res.toNat, c.req.data⟩ b.submit
        posted := s.posted ++
          [⟨d.read, d.offset + c.res.toNat, d.iov.iovLen - c.res.toNat⟩] }
  | readDone (b : Answers) (c : Cqe Req) (cs : List (Cqe Req)) (d : IoData) (ha : a = .prog b)
      (hpc : s.pc = .comp) (ht : taken s a = some c) (hcq : s.ring.cq = c :: cs)
      (hd : s.heap.cell c.req.data = some d) (hres : 0 ≤ c.res) (he : c.res.toNat = d.iov.iovLen)
      (hr : d.read = true) :
      Move source s a { s with
        gotComp := true
        heap := s.heap.put c.req.data d.toWrite
        ring := s.ring.resend ⟨false, d.firstOffset, c.req.data⟩ b.submit
        posted := s.posted ++ [⟨false, d.firstOffset, d.firstLen⟩]
        writeLeft := s.writeLeft - d.firstLen
        reads := s.reads - 1
        writes := s.writes + 1 }
  | writeDone (c : Cqe Req) (cs : List (Cqe Req)) (d : IoData) (hpc : s.pc = .comp)
      (ht : taken s a = some c) (hcq : s.ring.cq = c :: cs)
      (hd : s.heap.cell c.req.data = some d) (hres : 0 ≤ c.res) (he : c.res.toNat = d.iov.iovLen)
      (hr : d.read = false) :
      Move source s a { s with
        gotComp := true
        heap := s.heap.free c.req.data
        ring := s.ring.advance 1
        writes := s.writes - 1 }
  | drainDone (b : Answers) (c : Cqe Req) (cs : List (Cqe Req)) (d : IoData) (ha : a = .prog b)
      (hpc : s.pc = .drain) (hw : s.writes ≠ 0) (herr : ¬ b.cqeErr < 0) (hcq : s.ring.cq = c :: cs)
      (hd : s.heap.cell c.req.data = some d) (hres : 0 ≤ c.res) :
      Move source s a { s with
        heap := s.heap.free c.req.data
        ring := s.ring.advance 1
        writes := s.writes - 1 }

/-- No branch can fault: the pending requests point to live records, and there are entries left for
    the completion loop. -/
structure Alive (s : State) : Prop where
  live : ∀ c ∈ s.ring.pending, ∃ d, s.heap.cell c.req.data = some d
  room : s.pc = .comp → ∀ c cs, s.ring.cq = c :: cs → s.ring.sq.length < s.ring.entries

variable {source : List UInt8} {s s' : State} {a : Answers}

theorem taken_of_ne {a : Act} (h : s.pc ≠ .comp) : taken s a = none := by
  cases a with
  | complete i res => rfl
  | prog b => exact if_neg fun hc => h hc.1

theorem taken_some {a : Act} {c : Cqe Req} (h : taken s a = some c) :
    s.writeLeft ≠ 0 ∧ s.ring.cq.head? = some c ∧ ∃ b, a = .prog b ∧ ¬ b.cqeErr < 0 := by
  cases a with
  | complete i res => cases h
  | prog b =>
    simp only [taken] at h
    split at h
    · next hc => exact ⟨hc.2.1, h, b, rfl, hc.2.2⟩
    · cases h

theorem taken_pc {a : Act} {c : Cqe Req} (h : taken s a = some c) : s.pc = .comp := by
  by_contra hne
  exact absurd ((taken_of_ne hne).symm.trans h) nofun

/-- Outside the drain loop, a step that takes up nothing frees nothing. -/
theorem freeCalls_of_taken {a : Act} (hpc : s.pc ≠ .drain) (h : taken s a = none) :
    freeCalls s a = [] := by
  cases a with
  | complete i res => rfl
  | prog b =>
    unfold freeCalls
    simp only
    split
    · rw [h]
    · next hd => exact absurd hd hpc
    · rfl

/-- Control moves on after a completion only where its error ends the copy. -/
theorem Control.of_taken {a : Act} {pc : Pc} {had : UInt64} {g : Bool} (hc : Control s a pc had g)
    {c : Cqe Req} (ht : taken s a = some c) : c.res < 0 ∧ c.res ≠ -eagain ∧ pc = .ret 1 := by
  have hpc := taken_pc ht
  obtain ⟨hw, -, b, hb, herr⟩ := taken_some ht
  cases hc with
  | failed c' _ ht' hres hne =>
    obtain rfl : c' = c := Option.some.inj (ht'.symm.trans ht)
    exact ⟨hres, hne, rfl⟩
  | compDone _ hw' => exact absurd hw' hw
  | idle _ _ _ ht' => cases ht'.symm.trans ht
  | waitFailed b' hb' _ herr' =>
    obtain rfl : b' = b := Act.prog.inj (hb'.symm.trans hb)
    exact absurd herr' herr
  | enter hpc' => cases hpc.symm.trans hpc'
  | leave hpc' => cases hpc.symm.trans hpc'
  | filled hpc' => cases hpc.symm.trans hpc'
  | skipped hpc' => cases hpc.symm.trans hpc'
  | drainFailed _ _ _ hpc' => cases hpc.symm.trans hpc'
  | drained hpc' => cases hpc.symm.trans hpc'

/-- The main loop frees the record of a write that is complete, and no other. -/
theorem freeCalls_of_taken_eq {a : Act} {c : Cqe Req} {d : IoData} (hpc : s.pc = .comp)
    (ht : taken s a = some c) (hd : s.heap.cell c.req.data = some d) :
    freeCalls s a =
      if 0 ≤ c.res ∧ c.res.toNat = d.iov.iovLen ∧ d.read = false then [c.req.data] else [] := by
  cases a with
  | complete i res => cases ht
  | prog b => simp only [freeCalls, hpc, ht, hd]

/-- It frees nothing. -/
theorem Control.freeCalls_eq {a : Act} {pc : Pc} {had : UInt64} {g : Bool}
    (hc : Control s a pc had g) : freeCalls s a = [] := by
  by_cases hpc : s.pc = .drain
  · cases hc with
    | waitFailed b ha _ herr => simp [freeCalls, ha, hpc, herr]
    | drainFailed b c ha _ hw herr hc hres => simp [freeCalls, ha, hpc, hw, herr, hc, hres]
    | drained _ hw => cases a <;> simp [freeCalls, hpc, hw]
    | enter hpc' => cases hpc.symm.trans hpc'
    | leave hpc' => cases hpc.symm.trans hpc'
    | filled hpc' => cases hpc.symm.trans hpc'
    | skipped hpc' => cases hpc.symm.trans hpc'
    | compDone hpc' => cases hpc.symm.trans hpc'
    | idle hpc' => cases hpc.symm.trans hpc'
    | failed _ hpc' => cases hpc.symm.trans hpc'
  · cases ht : taken s a with
    | none => exact freeCalls_of_taken hpc ht
    | some c =>
      have hcomp := taken_pc ht
      have hneg := (hc.of_taken ht).1
      obtain ⟨-, -, b, rfl, -⟩ := taken_some ht
      simp only [freeCalls, hcomp, ht]
      split
      · rfl
      · exact if_neg fun h => absurd h.1 (by omega)

/-- What the two retry branches do, whatever the submit does. -/
theorem requeue_resend {p : Nat} {d : IoData} (hd : s.heap.cell p = some d)
    (hroom : s.ring.sq.length < s.ring.entries) :
    requeue s p a = { s with
      ring := s.ring.resend ⟨d.read, d.offset, p⟩ a.submit
      posted := s.posted ++ [⟨d.read, d.offset, d.iov.iovLen⟩] } := by
  simp only [requeue, queuePrepped, hd, Option.bind_some, IoRing.prep_of_lt hroom, Option.map_some,
    submitRing, cqeSeen, IoRing.resend]

theorem queueWrite_submit {p : Nat} {d : IoData} (hd : s.heap.cell p = some d)
    (hroom : s.ring.sq.length < s.ring.entries) :
    queueWrite s p d a = some { s with
      heap := s.heap.put p d.toWrite
      ring := (IoRing.submit { s.ring with sq := s.ring.sq ++ [⟨false, d.firstOffset, p⟩] }
        a.submit).1
      posted := s.posted ++ [⟨false, d.firstOffset, d.firstLen⟩] } := by
  simp only [queueWrite, queuePrepped, Heap.cell_put_self _ hd, Option.bind_some,
    IoRing.prep_of_lt hroom, Option.map_some, submitRing, IoData.toWrite]

/-- A transfer changes the record and the destination, and nothing else. -/
theorem transfer_cases {q : Req} {d : IoData} {res : Int} (hd : s.heap.cell q.data = some d)
    (h : transfer source s q d res = some s') :
    ∃ d' dest', Transfer source s.dest q d res d' dest' ∧
      s' = { s with heap := s.heap.put q.data d', dest := dest' } := by
  unfold transfer at h
  split at h
  · next hneg =>
    obtain rfl := Option.some.inj h
    exact ⟨d, s.dest, .failed hneg, by rw [Heap.put_eq_self hd]⟩
  split at h
  · exact absurd h nofun
  next hneg hle =>
  split at h
  · next hr =>
    split at h
    · exact absurd h nofun
    · next hlen =>
      obtain rfl := Option.some.inj h
      exact ⟨_, s.dest, .loaded (by omega) (by omega) hr (by simpa using hlen), rfl⟩
  · next hr =>
    obtain rfl := Option.some.inj h
    exact ⟨d, _, .written (by omega) (by omega) (by simpa using hr), by rw [Heap.put_eq_self hd]⟩

theorem kernelStep_cases (hlive : ∀ c ∈ s.ring.pending, ∃ d, s.heap.cell c.req.data = some d)
    {i : Nat} {res : Int} (h : kernelStep source s i res = some s') :
    ∃ q d d' dest', s.ring.inflight[i]? = some q ∧ s.heap.cell q.data = some d ∧
      Transfer source s.dest q d res d' dest' ∧ s' = { s with
        ring :=
          { s.ring with inflight := s.ring.inflight.eraseIdx i, cq := s.ring.cq ++ [⟨q, res⟩] }
        heap := s.heap.put q.data d'
        dest := dest' } := by
  unfold kernelStep at h
  obtain ⟨q, hq, h⟩ := Option.bind_eq_some_iff.mp h
  obtain ⟨d, hd⟩ := hlive _ (IoRing.mem_pending_of_inflight (List.mem_of_getElem? hq))
  simp only at hd
  rw [hd] at h
  simp only [IoRing.complete, hq, Option.map_some] at h
  obtain ⟨t, ht, h⟩ := Option.bind_eq_some_iff.mp h
  obtain ⟨d', dest', htr, rfl⟩ := transfer_cases hd ht
  exact ⟨q, d, d', dest', hq, hd, htr, (Option.some.inj h).symm⟩

theorem fillStep_move (hpc : s.pc = .fill) : Move source s (.prog a) (fillStep s a) := by
  have hend : (s.insize = 0 ∨ s.reads + s.writes ≥ depth.toUInt64 ∨
      s.ring.entries ≤ s.ring.sq.length ∨ ¬ (Act.prog a).Allocates) →
      Move source s (.prog a) { s with pc := .submit } :=
    fun why => .moved .submit s.hadReads s.gotComp (.filled hpc why)
  unfold fillStep
  split
  · next hi => exact hend (.inl hi)
  split
  · next hfull => exact hend (.inr (.inl hfull))
  next hi hfull =>
  cases hm : a.malloc with
  | none => exact hend (.inr (.inr (.inr (by simp [Act.Allocates, hm]))))
  | some junk =>
    by_cases hroom : s.ring.sq.length < s.ring.entries
    · simp only [queueRead, Option.bind_some, IoRing.prep_of_lt hroom, Option.map_some]
      exact .queued junk hpc hi hfull hroom
    · simp only [queueRead, Option.bind_some, IoRing.prep_of_not_lt hroom, Option.map_none]
      exact hend (.inr (.inr (.inl (by omega))))

theorem submitStep_move (hpc : s.pc = .submit) : Move source s (.prog a) (submitStep s a) := by
  unfold submitStep
  split
  · next hh =>
    split
    · next hret => exact .submitFailed a rfl hpc hh hret
    · next hret => exact .submitted a rfl hpc hh hret
  · next hh => exact .moved .comp s.hadReads false (.skipped hpc (by simpa using hh))

/-- The completion at the head of the queue in the main loop. -/
theorem handle_move (hs : Alive s) (hpc : s.pc = .comp) {c : Cqe Req} {cs : List (Cqe Req)}
    (hcq : s.ring.cq = c :: cs) (ht : taken s (.prog a) = some c) :
    Move source s (.prog a) (handle { s with gotComp := true } c a) := by
  have hroom := hs.room hpc c cs hcq
  obtain ⟨d, hd⟩ := hs.live c (IoRing.head_mem_pending hcq)
  unfold handle
  split
  · next hneg =>
    split
    · next hres =>
      rw [requeue_resend (s := { s with gotComp := true }) hd hroom]
      exact .again a c cs d rfl hpc ht hcq hd hres
    · next hne => exact .moved (.ret 1) s.hadReads true (.failed c hpc ht hneg hne)
  next hneg =>
  have h0 : 0 ≤ c.res := by omega
  simp only [hd]
  split
  · next hne =>
    have hd' : (s.heap.put c.req.data (d.resume c.res.toNat)).cell c.req.data =
        some (d.resume c.res.toNat) := Heap.cell_put_self _ hd
    rw [requeue_resend (s := { s with gotComp := true, heap := s.heap.put c.req.data _ }) hd' hroom]
    exact .short a c cs d rfl hpc ht hcq hd h0 hne
  next he =>
  have he' : c.res.toNat = d.iov.iovLen := by simpa using he
  unfold finish
  split
  · next hr =>
    rw [queueWrite_submit (s := { s with gotComp := true }) hd hroom]
    exact .readDone a c cs d rfl hpc ht hcq hd h0 he' hr
  · next hr => exact .writeDone c cs d hpc ht hcq hd h0 he' (by simpa using hr)

theorem compStep_move (hs : Alive s) (hpc : s.pc = .comp) (h : compStep s a = some s') :
    Move source s (.prog a) s' := by
  unfold compStep at h
  split at h
  · next hw =>
    cases h
    exact .moved .outer s.hadReads s.gotComp (.compDone hpc hw)
  next hw =>
  obtain ⟨f, hf, h⟩ := Option.map_eq_some_iff.mp h
  subst h
  have hfail : a.cqeErr < 0 → Move source s (.prog a) { s with pc := .ret 1 } := fun herr =>
    .moved (.ret 1) s.hadReads s.gotComp (.waitFailed a rfl (.inl ⟨hpc, hw⟩) herr)
  have htake : ¬ a.cqeErr < 0 → taken s (.prog a) = s.ring.cq.head? :=
    fun herr => if_pos ⟨hpc, hw, herr⟩
  unfold fetch at hf
  split at hf
  · next hg =>
    have hidle : taken s (.prog a) = none → Move source s (.prog a) { s with pc := .outer } :=
      fun ht => .moved .outer s.hadReads s.gotComp (.idle hpc hw hg ht)
    split at hf
    · next herr => -- an error of `io_uring_peek_cqe`, `-EAGAIN` among them
      cases hf
      by_cases hagain : a.cqeErr = -eagain
      · simp only [hagain, if_true, Int.lt_irrefl, if_false]
        exact hidle (if_neg fun hc => hc.2.2 herr)
      · simp only [hagain, if_false, herr, if_true]
        exact hfail herr
    · next herr =>
      cases hf
      cases hcq : s.ring.cq with
      | nil => exact hidle (by rw [htake herr, hcq]; rfl)
      | cons c cs => exact handle_move hs hpc hcq (by rw [htake herr, hcq]; rfl)
  · split at hf
    · next herr =>
      cases hf
      simp only [herr, if_true]
      exact hfail herr
    · next herr =>
      obtain ⟨c, hc, rfl⟩ := Option.map_eq_some_iff.mp hf
      obtain ⟨cs, hcq⟩ := List.head?_eq_some_iff.mp hc
      exact handle_move hs hpc hcq (by rw [htake herr, hc])

theorem drainStep_move (hs : Alive s) (hpc : s.pc = .drain) (h : drainStep s a = some s') :
    Move source s (.prog a) s' := by
  unfold drainStep at h
  split at h
  · next hw =>
    cases h
    exact .moved (.ret 0) s.hadReads s.gotComp (.drained hpc hw)
  next hw =>
  split at h
  · next herr =>
    cases h
    exact .moved (.ret 1) s.hadReads s.gotComp (.waitFailed a rfl (.inr ⟨hpc, hw⟩) herr)
  next herr =>
  obtain ⟨c, hc, h⟩ := Option.map_eq_some_iff.mp h
  obtain ⟨cs, hcq⟩ := List.head?_eq_some_iff.mp hc
  obtain ⟨d, hd⟩ := hs.live c (IoRing.head_mem_pending hcq)
  subst h
  split
  · next hneg => exact .moved (.ret 1) s.hadReads s.gotComp (.drainFailed a c rfl hpc hw herr hc hneg)
  · next hneg =>
    simp only [hd]
    exact .drainDone a c cs d rfl hpc hw herr hcq hd (by omega)

/-- The machine makes no other moves. -/
theorem step_move (hs : Alive s) {a : Act} (h : step source s a = some s') :
    Move source s a s' := by
  cases a with
  | complete i res =>
    obtain ⟨q, d, d', dest, hq, hd, ht, rfl⟩ := kernelStep_cases hs.live h
    exact .completed i q d d' dest res rfl hq hd ht
  | prog a =>
    simp only [step, progStep] at h
    split at h
    · next hpc =>
      split at h
      · next hw =>
        cases h
        exact .moved .fill s.reads s.gotComp (.enter hpc hw)
      · next hw =>
        cases h
        exact .moved .drain s.hadReads s.gotComp (.leave hpc (by omega) (by omega))
    · next hpc =>
      cases h
      exact fillStep_move hpc
    · next hpc =>
      cases h
      exact submitStep_move hpc
    · next hpc => exact compStep_move hs hpc h
    · next hpc => exact drainStep_move hs hpc h
    · cases h
    · cases h

end KernelMagic.FileUring2
