/-
  What one step of the `copy_file` machine can do when every submit takes all queued requests.

  `Trans source s a s'` lists the transitions, one constructor for each branch of the source and one
  for each kind of completion, with the test that leads to it and the state after it. `step_trans`
  says that the machine takes no others: in a `Ready` state no branch dereferences a stale pointer
  or a NULL entry. Every invariant of such a run is proved by a case split on `Trans`.
-/
import KernelMagic.FileUring2.Moves

namespace KernelMagic.FileUring2

open KernelMagic.Lib

inductive Trans (source : List UInt8) (s : State) (a : Act) : State → Prop
  | failed (i : Nat) (q : Req) (res : Int) (ha : a = .complete i res)
      (hq : s.ring.inflight[i]? = some q) (hres : res < 0) :
      Trans source s a { s with ring :=
        { s.ring with inflight := s.ring.inflight.eraseIdx i, cq := s.ring.cq ++ [⟨q, res⟩] } }
  | loaded (i : Nat) (q : Req) (d : IoData) (res : Int) (ha : a = .complete i res)
      (hq : s.ring.inflight[i]? = some q) (hd : s.heap.cell q.data = some d) (h0 : 0 ≤ res)
      (hle : res ≤ d.iov.iovLen) (hr : q.read = true)
      (hlen : (pread source q.offset res.toNat).length = res.toNat) :
      Trans source s a { s with
        ring :=
          { s.ring with inflight := s.ring.inflight.eraseIdx i, cq := s.ring.cq ++ [⟨q, res⟩] }
        heap := s.heap.put q.data (d.store (pread source q.offset res.toNat)) }
  | written (i : Nat) (q : Req) (d : IoData) (res : Int) (ha : a = .complete i res)
      (hq : s.ring.inflight[i]? = some q) (hd : s.heap.cell q.data = some d) (h0 : 0 ≤ res)
      (hle : res ≤ d.iov.iovLen) (hr : q.read = false) :
      Trans source s a { s with
        ring :=
          { s.ring with inflight := s.ring.inflight.eraseIdx i, cq := s.ring.cq ++ [⟨q, res⟩] }
        dest := pwrite 0 s.dest q.offset (grab d.buf d.iov.iovBase res.toNat) }
  | enter (hpc : s.pc = .outer) (hw : s.insize ≠ 0 ∨ s.writeLeft ≠ 0) :
      Trans source s a { s with pc := .fill, hadReads := s.reads }
  | leave (hpc : s.pc = .outer) (hi : s.insize = 0) (hw : s.writeLeft = 0) :
      Trans source s a { s with pc := .drain }
  | filled (hpc : s.pc = .fill) (why : s.insize = 0 ∨ s.reads + s.writes ≥ depth.toUInt64 ∨
        s.ring.entries ≤ s.ring.sq.length ∨ ¬ a.Allocates) :
      Trans source s a { s with pc := .submit }
  | queued (junk : Nat → UInt8) (hpc : s.pc = .fill) (hi : s.insize ≠ 0)
      (hfull : ¬ s.reads + s.writes ≥ depth.toUInt64)
      (hroom : s.ring.sq.length < s.ring.entries) :
      Trans source s a { s with
        insize := s.insize - thisSize s.insize
        offset := s.offset + thisSize s.insize
        reads := s.reads + 1
        heap := s.heap.alloc
          ⟨true, s.offset, s.offset, thisSize s.insize, ⟨0, thisSize s.insize⟩, junk⟩
        ring := { s.ring with sq := s.ring.sq ++ [⟨true, s.offset, s.heap.next⟩] }
        queued := s.queued ++ [(s.offset, thisSize s.insize)]
        posted := s.posted ++ [⟨true, s.offset, thisSize s.insize⟩] }
  | submitted (hpc : s.pc = .submit) (hh : s.hadReads ≠ s.reads) :
      Trans source s a { s with
        pc := .comp
        gotComp := false
        ring := { s.ring with sq := [], inflight := s.ring.inflight ++ s.ring.sq } }
  | skipped (hpc : s.pc = .submit) (hh : s.hadReads = s.reads) :
      Trans source s a { s with pc := .comp, gotComp := false }
  | compDone (hpc : s.pc = .comp) (hw : s.writeLeft = 0) : Trans source s a { s with pc := .outer }
  | idle (hpc : s.pc = .comp) (hw : s.writeLeft ≠ 0) (hg : s.gotComp = true) :
      Trans source s a { s with pc := .outer }
  | error (hpc : s.pc = .comp ∨ s.pc = .drain) (g : Bool)
      (why : (∃ b, a = .prog b ∧ b.cqeErr < 0) ∨ ∃ c, s.ring.cq.head? = some c ∧ c.res < 0) :
      Trans source s a { s with pc := .ret 1, gotComp := g }
  | again (c : Cqe Req) (cs : List (Cqe Req)) (d : IoData) (hpc : s.pc = .comp)
      (hw : s.writeLeft ≠ 0) (hcq : s.ring.cq = c :: cs) (hd : s.heap.cell c.req.data = some d)
      (hres : c.res = -eagain) :
      Trans source s a { s with
        gotComp := true
        ring := s.ring.resubmit ⟨d.read, d.offset, c.req.data⟩
        posted := s.posted ++ [⟨d.read, d.offset, d.iov.iovLen⟩] }
  | short (c : Cqe Req) (cs : List (Cqe Req)) (d : IoData) (hpc : s.pc = .comp)
      (hw : s.writeLeft ≠ 0) (hcq : s.ring.cq = c :: cs) (hd : s.heap.cell c.req.data = some d)
      (hres : 0 ≤ c.res) (hne : c.res.toNat ≠ d.iov.iovLen) :
      Trans source s a { s with
        gotComp := true
        heap := s.heap.put c.req.data (d.resume c.res.toNat)
        ring := s.ring.resubmit ⟨d.read, d.offset + c.res.toNat, c.req.data⟩
        posted := s.posted ++
          [⟨d.read, d.offset + c.res.toNat, d.iov.iovLen - c.res.toNat⟩] }
  | readDone (c : Cqe Req) (cs : List (Cqe Req)) (d : IoData) (hpc : s.pc = .comp)
      (hw : s.writeLeft ≠ 0) (hcq : s.ring.cq = c :: cs) (hd : s.heap.cell c.req.data = some d)
      (hres : 0 ≤ c.res) (he : c.res.toNat = d.iov.iovLen) (hr : d.read = true) :
      Trans source s a { s with
        gotComp := true
        heap := s.heap.put c.req.data d.toWrite
        ring := s.ring.resubmit ⟨false, d.firstOffset, c.req.data⟩
        posted := s.posted ++ [⟨false, d.firstOffset, d.firstLen⟩]
        writeLeft := s.writeLeft - d.firstLen
        reads := s.reads - 1
        writes := s.writes + 1 }
  | writeDone (c : Cqe Req) (cs : List (Cqe Req)) (d : IoData) (hpc : s.pc = .comp)
      (hw : s.writeLeft ≠ 0) (hcq : s.ring.cq = c :: cs) (hd : s.heap.cell c.req.data = some d)
      (hres : 0 ≤ c.res) (he : c.res.toNat = d.iov.iovLen) (hr : d.read = false) :
      Trans source s a { s with
        gotComp := true
        heap := s.heap.free c.req.data
        ring := s.ring.advance 1
        writes := s.writes - 1 }
  | drained (hpc : s.pc = .drain) (hw : s.writes = 0) : Trans source s a { s with pc := .ret 0 }
  | drainDone (b : Answers) (c : Cqe Req) (cs : List (Cqe Req)) (d : IoData) (ha : a = .prog b)
      (hpc : s.pc = .drain) (hw : s.writes ≠ 0) (hcq : s.ring.cq = c :: cs)
      (hd : s.heap.cell c.req.data = some d) (hres : 0 ≤ c.res) :
      Trans source s a { s with
        heap := s.heap.free c.req.data
        ring := s.ring.advance 1
        writes := s.writes - 1 }

/-- No branch can fault: the pending requests point to live records, and the main loop starts a turn
    with an empty submission queue. -/
structure Ready (s : State) : Prop where
  entries : s.ring.entries = depth
  live : ∀ c ∈ s.ring.pending, ∃ d, s.heap.cell c.req.data = some d
  room : s.pc = .comp → s.ring.sq = []

variable {source : List UInt8} {s s' : State} {a : Act}

theorem Ready.alive (hs : Ready s) : Alive s where
  live := hs.live
  room := fun hpc _ _ _ => by
    rw [hs.room hpc, hs.entries]
    decide

theorem Control.trans {pc : Pc} {had : UInt64} {g : Bool} (hc : Control s a pc had g) :
    Trans source s a { s with pc := pc, hadReads := had, gotComp := g } := by
  cases hc with
  | enter hpc hw => exact .enter hpc hw
  | leave hpc hi hw => exact .leave hpc hi hw
  | filled hpc why => exact .filled hpc why
  | skipped hpc hh => exact .skipped hpc hh
  | compDone hpc hw => exact .compDone hpc hw
  | idle hpc hw hg ht => exact .idle hpc hw hg
  | waitFailed b ha hpc herr =>
    exact .error (hpc.imp And.left And.left) s.gotComp (.inl ⟨b, ha, herr⟩)
  | failed c hpc ht hres hne => exact .error (.inl hpc) true (.inr ⟨c, (taken_some ht).2.1, hres⟩)
  | drainFailed b c ha hpc hw herr hc hres => exact .error (.inr hpc) s.gotComp (.inr ⟨c, hc, hres⟩)
  | drained hpc hw => exact .drained hpc hw

/-- With a submit that takes everything a move is one of the transitions. -/
theorem Move.trans (ha : a.SubmitsAll) (hm : Move source s a s') : Trans source s a s' := by
  cases hm with
  | completed i q d d' dest res ha hq hd ht =>
    cases ht with
    | failed hres =>
      rw [Heap.put_eq_self hd]
      exact .failed i q res ha hq hres
    | loaded h0 hle hr hlen => exact .loaded i q d res ha hq hd h0 hle hr hlen
    | written h0 hle hr =>
      rw [Heap.put_eq_self hd]
      exact .written i q d res ha hq hd h0 hle hr
  | moved pc had g hc => exact hc.trans
  | queued junk hpc hi hfull hroom => exact .queued junk hpc hi hfull hroom
  | submitted b hb hpc hh hret =>
    subst hb
    rw [show b.submit = .all from ha, IoRing.submit_all]
    exact .submitted hpc hh
  | submitFailed b hb hpc hh hret =>
    subst hb
    rw [show b.submit = .all from ha, IoRing.submit_all] at hret
    simp only at hret
    omega
  | again b c cs d hb hpc ht hcq hd hres =>
    subst hb
    rw [show b.submit = .all from ha]
    exact .again c cs d hpc (taken_some ht).1 hcq hd hres
  | short b c cs d hb hpc ht hcq hd hres hne =>
    subst hb
    rw [show b.submit = .all from ha]
    exact .short c cs d hpc (taken_some ht).1 hcq hd hres hne
  | readDone b c cs d hb hpc ht hcq hd hres he hr =>
    subst hb
    rw [show b.submit = .all from ha]
    exact .readDone c cs d hpc (taken_some ht).1 hcq hd hres he hr
  | writeDone c cs d hpc ht hcq hd hres he hr =>
    exact .writeDone c cs d hpc (taken_some ht).1 hcq hd hres he hr
  | drainDone b c cs d hb hpc hw herr hcq hd hres =>
    exact .drainDone b c cs d hb hpc hw hcq hd hres

/-- The machine takes no other transitions. -/
theorem step_trans (hs : Ready s) (ha : a.SubmitsAll) (h : step source s a = some s') :
    Trans source s a s' :=
  (step_move hs.alive h).trans ha

end KernelMagic.FileUring2
