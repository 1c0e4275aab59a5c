/-
  What one step of the batch programs can do, whatever the results of the requests and the answers of
  the library calls: the moves `Move`, one constructor for each branch of the source, with the test
  that leads to it and the state after it. `step_move` says that there are no others in an `Alive`
  state: one in which every request points to a live record, and in which `flag` is what the control
  says. Both hold in every run (`alive_run`).

  The completions that the two receive loops take up, and the calls of `free`, are read off the state
  before the step: `readTakes`, `writeTakes`, `freeCalls`.
-/
import KernelMagic.Lib.Owned
import KernelMagic.Lib.History
import KernelMagic.Batch.Main

namespace KernelMagic.Batch

open KernelMagic.Lib

/-- The completion that `read_cqe_recv` takes up in this step. -/
def readTakes (s : State) : Act → Option (Cqe Req)
  | .complete _ _ => none
  | .prog b =>
    if s.pc = .readRecv ∧ s.i < s.writes ∧ ¬ b.cqeErr < 0 then s.ring.cq.head? else none

/-- The completion that `write_cqe_recv` looks at in this step. -/
def writeTakes (s : State) : Act → Option (Cqe Req)
  | .complete _ _ => none
  | .prog b =>
    if s.pc = .writeRecv ∧ s.i < s.writes ∧ ¬ b.cqeErr < 0 then s.ring.cq.head? else none

/-- The records on which `free` is called in this step: that of a failed read in `read_cqe_recv`, and
    that of a completion that is no error in `write_cqe_recv`. -/
def freeCalls (s : State) (a : Act) : List Nat :=
  ((readTakes s a).toList.filter fun c => c.res < 0).map (fun c => c.req.data) ++
    ((writeTakes s a).toList.filter fun c => 0 ≤ c.res).map fun c => c.req.data

/-- What the completion of `q` with `res` makes of its record and of the destination. -/
inductive Transfer (source dest : List UInt8) (q : Req) (d : FileData) (res : Int) :
    FileData → List UInt8 → Prop
  | failed (hres : res < 0) : Transfer source dest q d res d dest
  | loaded (h0 : 0 ≤ res) (hle : res ≤ q.len) (hr : q.read = true)
      (hlen : (pread source q.offset res.toNat).length = res.toNat) :
      Transfer source dest q d res (d.store (pread source q.offset res.toNat)) dest
  | written (h0 : 0 ≤ res) (hle : res ≤ q.len) (hr : q.read = false) :
      Transfer source dest q d res d (pwrite 0 dest q.offset (grab d.buf 0 res.toNat))

inductive Move (prg : Program) (source : List UInt8) (s : State) (a : Act) : State → Prop
  | completed (i : Nat) (q : Req) (d d' : FileData) (dest : List UInt8) (res : Int)
      (ha : a = .complete i res) (hq : s.ring.inflight[i]? = some q)
      (hd : s.heap.cell q.data = some d) (ht : Transfer source s.dest q d res d' dest) :
      Move prg source s a { s with
        ring :=
          { s.ring with inflight := s.ring.inflight.eraseIdx i, cq := s.ring.cq ++ [⟨q, res⟩] }
        heap := s.heap.put q.data d'
        dest := dest }
  /-- The program crashes or gives up. -/
  | ended (b : Answers) (pc : Pc) (ha : a = .prog b) (hpc : pc = .fault ∨ pc = .exit 1)
      (r : IoRing Req) (hr : r = s.ring ∨ r = (s.ring.submit b.submit).1)
      (why : b.malloc = none ∨ (s.ring.submit b.submit).2 < 0 ∨ b.cqeErr < 0 ∨
        (s.pc = .top ∨ s.pc = .readRecv ∧ s.i < s.writes) ∧ s.ring.entries ≤ s.ring.sq.length)
      (hfree : freeCalls s a = []) :
      Move prg source s a { s with pc := pc, ring := r }
  | queued (b : Answers) (junk : Nat → UInt8) (ha : a = .prog b) (hpc : s.pc = .top)
      (hi : 0 < s.insize) (hopen : chunkSize s.insize ≠ s.insize) (hmore : s.reads + 1 < depth)
      (hroom : s.ring.sq.length < s.ring.entries) :
      Move prg source s a { s with
        pc := .last
        thisSize := chunkSize s.insize
        insize := s.insize - chunkSize s.insize
        offset := s.offset + (chunkSize s.insize).toNat
        reads := s.reads + 1
        heap := s.heap.alloc ⟨s.offset, (chunkSize s.insize).toNat, junk⟩
        ring := { s.ring with sq :=
          s.ring.sq ++ [⟨true, s.offset, (chunkSize s.insize).toNat, s.heap.next⟩] }
        posted := s.posted ++ [⟨true, s.offset, (chunkSize s.insize).toNat⟩] }
  | closed (b : Answers) (junk : Nat → UInt8) (ha : a = .prog b) (hpc : s.pc = .top)
      (hi : 0 < s.insize) (hlast : chunkSize s.insize = s.insize ∨ s.reads + 1 ≥ depth)
      (hroom : s.ring.sq.length < s.ring.entries) :
      Move prg source s a { s with
        pc := .submit
        thisSize := chunkSize s.insize
        reads := s.reads + 1
        heap := s.heap.alloc ⟨s.offset, (chunkSize s.insize).toNat, junk⟩
        ring := { s.ring with sq :=
          s.ring.sq ++ [⟨true, s.offset, (chunkSize s.insize).toNat, s.heap.next⟩] }
        posted := s.posted ++ [⟨true, s.offset, (chunkSize s.insize).toNat⟩] }
  | skipped (b : Answers) (ha : a = .prog b) (hpc : s.pc = .top) (hi : s.insize ≤ 0) :
      Move prg source s a { s with pc := .last, thisSize := chunkSize s.insize }
  | submitted (b : Answers) (ha : a = .prog b) (hpc : s.pc = .submit)
      (hret : ¬ (s.ring.submit b.submit).2 < 0) :
      Move prg source s a { s with
        ring := (s.ring.submit b.submit).1
        flag := 2
        writes := s.reads
        reads := 0
        i := 0
        pc := .readRecv }
  | readFailed (b : Answers) (c : Cqe Req) (cs : List (Cqe Req)) (d : FileData) (ha : a = .prog b)
      (hpc : s.pc = .readRecv) (hi : s.i < s.writes) (ht : readTakes s a = some c)
      (hcq : s.ring.cq = c :: cs) (hd : s.heap.cell c.req.data = some d) (hres : c.res < 0) :
      Move prg source s a { s with
        heap := s.heap.free c.req.data
        ring := s.ring.advance 1
        i := s.i + 1 }
  | readDone (b : Answers) (c : Cqe Req) (cs : List (Cqe Req)) (d : FileData) (ha : a = .prog b)
      (hpc : s.pc = .readRecv) (hi : s.i < s.writes) (ht : readTakes s a = some c)
      (hcq : s.ring.cq = c :: cs) (hd : s.heap.cell c.req.data = some d) (hres : 0 ≤ c.res)
      (hroom : s.ring.sq.length < s.ring.entries) :
      Move prg source s a { s with
        ring := { s.ring.advance 1 with
          sq := s.ring.sq ++ [⟨false, d.offset, prg.writeLen d c.res.toNat, c.req.data⟩] }
        i := s.i + 1
        posted := s.posted ++ [⟨false, d.offset, prg.writeLen d c.res.toNat⟩] }
  | readEnd (b : Answers) (ha : a = .prog b) (hpc : s.pc = .readRecv) (hi : s.writes ≤ s.i) :
      Move prg source s a { s with pc := .readSubmit }
  | submittedWrites (b : Answers) (ha : a = .prog b) (hpc : s.pc = .readSubmit)
      (hret : ¬ (s.ring.submit b.submit).2 < 0) :
      Move prg source s a { s with
        pc := .writeRecv
        i := 0
        insize := s.insize - s.thisSize
        offset := s.offset + s.thisSize.toNat
        ring := (s.ring.submit b.submit).1 }
  | writeDone (b : Answers) (c : Cqe Req) (cs : List (Cqe Req)) (d : FileData) (ha : a = .prog b)
      (hpc : s.pc = .writeRecv) (hi : s.i < s.writes) (ht : writeTakes s a = some c)
      (hcq : s.ring.cq = c :: cs) (hd : s.heap.cell c.req.data = some d) (hres : 0 ≤ c.res) :
      Move prg source s a { s with
        heap := s.heap.free c.req.data
        ring := s.ring.advance 1
        i := s.i + 1 }
  /-- An error makes `write_cqe_recv` return. -/
  | writeStop (b : Answers) (ha : a = .prog b) (hpc : s.pc = .writeRecv) (hi : s.i < s.writes)
      (why : b.cqeErr < 0 ∨ ∃ c ∈ s.ring.cq.head?, c.res < 0)
      (ht : ∀ c ∈ writeTakes s a, c.res < 0) :
      Move prg source s a { s with flag := 1, writes := 0, pc := .last }
  | writeEnd (b : Answers) (ha : a = .prog b) (hpc : s.pc = .writeRecv) (hi : s.writes ≤ s.i) :
      Move prg source s a { s with flag := 1, writes := 0, pc := .last }
  | stop (b : Answers) (ha : a = .prog b) (hpc : s.pc = .last) (ho : s.fileSz ≤ s.offset) :
      Move prg source s a { s with pc := .exit 0 }
  | again (b : Answers) (ha : a = .prog b) (hpc : s.pc = .last) (ho : (s.offset : Int) < s.fileSz) :
      Move prg source s a { s with pc := .top }

/-- Every request points to a live record, and `flag` goes with the control. -/
structure Alive (s : State) : Prop where
  live : ∀ c ∈ s.ring.pending, ∃ d, s.heap.cell c.req.data = some d
  flagOne : s.pc = .top ∨ s.pc = .submit ∨ s.pc = .last → s.flag = 1
  flagTwo : s.pc = .readRecv ∨ s.pc = .readSubmit ∨ s.pc = .writeRecv → s.flag = 2

/-! ## Inversion -/

section Inversion

variable {prg : Program} {source : List UInt8} {s s' : State} {a : Answers}

theorem readTakes_of_ne {a : Act} (h : s.pc ≠ .readRecv) : readTakes s a = none := by
  cases a with
  | complete i res => rfl
  | prog b => exact if_neg fun hc => h hc.1

theorem readTakes_of_le {a : Act} (h : s.writes ≤ s.i) : readTakes s a = none := by
  cases a with
  | complete i res => rfl
  | prog b => exact if_neg fun hc => absurd hc.2.1 (by omega)

theorem writeTakes_of_ne {a : Act} (h : s.pc ≠ .writeRecv) : writeTakes s a = none := by
  cases a with
  | complete i res => rfl
  | prog b => exact if_neg fun hc => h hc.1

theorem writeTakes_of_le {a : Act} (h : s.writes ≤ s.i) : writeTakes s a = none := by
  cases a with
  | complete i res => rfl
  | prog b => exact if_neg fun hc => absurd hc.2.1 (by omega)

theorem freeCalls_of_none {a : Act} (h1 : readTakes s a = none) (h2 : writeTakes s a = none) :
    freeCalls s a = [] := by
  rw [freeCalls, h1, h2]
  rfl

/-- Outside the two loops nothing is freed. -/
theorem freeCalls_of_ne {a : Act} (h1 : s.pc ≠ .readRecv) (h2 : s.pc ≠ .writeRecv) :
    freeCalls s a = [] :=
  freeCalls_of_none (readTakes_of_ne h1) (writeTakes_of_ne h2)

/-- A transfer changes the record and the destination, and nothing else. -/
theorem transfer_cases {q : Req} {d : FileData} {res : Int} (hd : s.heap.cell q.data = some d)
    (h : transfer source s q d res = some s') :
    ∃ d' dest', Transfer source s.dest q d res d' dest' ∧
      s' = { s with heap := s.heap.put q.data d', dest := dest' } := by
  unfold transfer at h
  split at h
  · next hneg =>
    obtain rfl := Option.some.inj h
    exact ⟨d, s.dest, .failed hneg, by rw [Heap.put_eq_self hd]⟩
  split at h
  · exact absurd h nofun
  next hneg hle =>
  split at h
  · next hr =>
    split at h
    · exact absurd h nofun
    · next hlen =>
      obtain rfl := Option.some.inj h
      exact ⟨_, s.dest, .loaded (by omega) (by omega) hr (by simpa using hlen), rfl⟩
  · next hr =>
    obtain rfl := Option.some.inj h
    exact ⟨d, _, .written (by omega) (by omega) (by simpa using hr), by rw [Heap.put_eq_self hd]⟩

theorem kernelStep_move (hlive : ∀ c ∈ s.ring.pending, ∃ d, s.heap.cell c.req.data = some d)
    {i : Nat} {res : Int} (h : kernelStep source s i res = some s') :
    Move prg source s (.complete i res) s' := by
  unfold kernelStep at h
  obtain ⟨q, hq, h⟩ := Option.bind_eq_some_iff.mp h
  obtain ⟨d, hd⟩ := hlive _ (IoRing.mem_pending_of_inflight (List.mem_of_getElem? hq))
  simp only at hd
  rw [hd] at h
  simp only [IoRing.complete, hq, Option.map_some] at h
  obtain ⟨t, ht, h⟩ := Option.bind_eq_some_iff.mp h
  obtain ⟨d', dest', htr, rfl⟩ := transfer_cases hd ht
  obtain rfl := Option.some.inj h
  exact .completed i q d d' dest' res rfl hq hd htr

theorem topStep_move (hs : Alive s) (hpc : s.pc = .top) :
    Move prg source s (.prog a) (topStep s a) := by
  have hflag := hs.flagOne (.inl hpc)
  have hne : ¬ s.flag = 2 := by
    rw [hflag]
    decide
  have hfree : freeCalls s (.prog a) = [] := freeCalls_of_ne (by simp [hpc]) (by simp [hpc])
  unfold topStep
  by_cases hi : 0 < s.insize
  · rw [if_pos ⟨hflag, hi⟩]
    cases hm : a.malloc with
    | none => exact .ended a .fault rfl (.inl rfl) s.ring (.inl rfl) (.inl hm) hfree
    | some junk =>
      by_cases hroom : s.ring.sq.length < s.ring.entries
      · simp only [IoRing.prep_of_lt hroom]
        split
        · next hlast => exact .closed a junk rfl hpc hi hlast hroom
        · next hopen =>
          rw [not_or] at hopen
          unfold flagTest advance
          rw [if_neg hne]
          exact .queued a junk rfl hpc hi hopen.1 (by omega) hroom
      · simp only [IoRing.prep_of_not_lt hroom]
        exact .ended a .fault rfl (.inl rfl) s.ring (.inl rfl)
          (.inr (.inr (.inr ⟨.inl hpc, by omega⟩))) hfree
  · rw [if_neg (fun h => hi h.2)]
    unfold flagTest
    rw [if_neg hne]
    exact .skipped a rfl hpc (by omega)

theorem submitStep_move (hpc : s.pc = .submit) : Move prg source s (.prog a) (submitStep s a) := by
  unfold submitStep
  split
  · next hneg =>
    exact .ended a (.exit 1) rfl (.inr rfl) _ (.inr rfl) (.inr (.inl hneg))
      (freeCalls_of_ne (by simp [hpc]) (by simp [hpc]))
  · next hneg => exact .submitted a rfl hpc hneg

theorem readRecvStep_move (hs : Alive s) (hpc : s.pc = .readRecv)
    (h : readRecvStep prg s a = some s') : Move prg source s (.prog a) s' := by
  have hnone : writeTakes s (.prog a) = none := writeTakes_of_ne (by simp [hpc])
  unfold readRecvStep at h
  split at h
  · next hi =>
    split at h
    · next herr =>
      cases h
      exact .ended a (.exit 1) rfl (.inr rfl) s.ring (.inl rfl) (.inr (.inr (.inl herr)))
        (freeCalls_of_none (if_neg fun hc => hc.2.2 herr) hnone)
    · next herr =>
      obtain ⟨c, hc, rfl⟩ := Option.map_eq_some_iff.mp h
      obtain ⟨cs, hcq⟩ := List.head?_eq_some_iff.mp hc
      obtain ⟨d, hd⟩ := hs.live c (IoRing.head_mem_pending hcq)
      have ht : readTakes s (.prog a) = some c := (if_pos ⟨hpc, hi, herr⟩).trans hc
      unfold readDone
      simp only [hd]
      split
      · next hneg => exact .readFailed a c cs d rfl hpc hi ht hcq hd hneg
      · next hneg =>
        by_cases hroom : s.ring.sq.length < s.ring.entries
        · simp only [IoRing.prep_of_lt hroom]
          exact .readDone a c cs d rfl hpc hi ht hcq hd (by omega) hroom
        · simp only [IoRing.prep_of_not_lt hroom]
          exact .ended a .fault rfl (.inl rfl) s.ring (.inl rfl)
            (.inr (.inr (.inr ⟨.inr ⟨hpc, hi⟩, by omega⟩))) (by simp [freeCalls, ht, hnone, hneg])
  · next hi =>
    cases h
    exact .readEnd a rfl hpc (by omega)

theorem readSubmitStep_move (hs : Alive s) (hpc : s.pc = .readSubmit) :
    Move prg source s (.prog a) (readSubmitStep s a) := by
  unfold readSubmitStep
  split
  · next hneg =>
    exact .ended a (.exit 1) rfl (.inr rfl) _ (.inr rfl) (.inr (.inl hneg))
      (freeCalls_of_ne (by simp [hpc]) (by simp [hpc]))
  · next hneg =>
    unfold flagTest advance
    rw [if_pos (hs.flagTwo (.inr (.inl hpc)))]
    exact .submittedWrites a rfl hpc hneg

theorem writeRecvStep_move (hs : Alive s) (hpc : s.pc = .writeRecv)
    (h : writeRecvStep s a = some s') : Move prg source s (.prog a) s' := by
  unfold writeRecvStep writeRet at h
  split at h
  · next hi =>
    split at h
    · next herr =>
      cases h
      refine .writeStop a rfl hpc hi (.inl herr) fun c hc => ?_
      rw [writeTakes, if_neg fun h => h.2.2 herr] at hc
      cases hc
    · next herr =>
      obtain ⟨c, hc, rfl⟩ := Option.map_eq_some_iff.mp h
      obtain ⟨cs, hcq⟩ := List.head?_eq_some_iff.mp hc
      obtain ⟨d, hd⟩ := hs.live c (IoRing.head_mem_pending hcq)
      have ht : writeTakes s (.prog a) = some c := (if_pos ⟨hpc, hi, herr⟩).trans hc
      split
      · next hneg =>
        refine .writeStop a rfl hpc hi (.inr ⟨c, hc, hneg⟩) fun e he => ?_
        obtain rfl : c = e := Option.some.inj (ht.symm.trans he)
        exact hneg
      · next hneg =>
        simp only [hd]
        exact .writeDone a c cs d rfl hpc hi ht hcq hd (by omega)
  · next hi =>
    cases h
    exact .writeEnd a rfl hpc (by omega)

/-- The machine makes no other moves. -/
theorem step_move (hs : Alive s) {a : Act} (h : step prg source s a = some s') :
    Move prg source s a s' := by
  cases a with
  | complete i res => exact kernelStep_move hs.live h
  | prog a =>
    simp only [step, progStep] at h
    split at h
    · next hpc =>
      cases h
      exact topStep_move hs hpc
    · next hpc =>
      cases h
      exact submitStep_move hpc
    · next hpc => exact readRecvStep_move hs hpc h
    · next hpc =>
      cases h
      exact readSubmitStep_move hs hpc
    · next hpc => exact writeRecvStep_move hs hpc h
    · next hpc =>
      cases h
      split
      · next ho => exact .stop a rfl hpc ho
      · next ho => exact .again a rfl hpc (by omega)
    · cases h
    · cases h

end Inversion

end KernelMagic.Batch
