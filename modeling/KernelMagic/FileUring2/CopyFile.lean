/-
  `copy_file` of `io_uring/file_uring2.c` with `queue_prepped`, `queue_read` and `queue_write`.

  The program and the kernel are one machine. A schedule is a list of actions: `prog a` lets the
  program take its next step, with `a` the answers its library calls get there, and `complete i res`
  lets the kernel complete the `i`-th request in flight with result `res`. One program step is one
  test or one turn of a loop of the source. A turn that handles a completion is one step although
  it submits before it calls `io_uring_cqe_seen`: the kernel only appends to the completion queue,
  so a completion that falls in between could as well come after.

  Kernel. A request that completes with `res ≥ 0` has moved the first `res` bytes of its iovec at
  its offset (never more than the source file has), a request that fails has moved nothing.

  Types. `reads`, `writes` and `had_reads` are `unsigned long` (`UInt64`, so a decrement of 0 wraps),
  `write_left` is an `off_t` that might go below 0 (`Int`); `insize` and `offset` are only moved by
  `this_size ≤ insize` and are `Nat`. `iov_base` counts from `data + 1`. Memory that `malloc` returns
  holds whatever the answer says. `fault` is the state after a NULL submission entry or a stale
  pointer has been dereferenced.

  `queued` (the arguments of the `queue_read` calls) and `posted` (every request prepared, with its
  length) record the past; the program never reads them.
-/
import KernelMagic.Lib.Machine
import KernelMagic.Lib.Bytes
import KernelMagic.Lib.Heap
import KernelMagic.Lib.IoRing
import KernelMagic.Lib.Chunks

namespace KernelMagic.FileUring2

open KernelMagic.Lib

/-- `BUF_SIZE`. -/
def bufSize : Nat := 32 * 1024

/-- `DEPTH`, the number of entries of the submission queue. -/
def depth : Nat := 64

/-- `EAGAIN`. -/
def eagain : Int := 11

/-- `struct iovec`, its base counted from `data + 1`. -/
structure Iovec where
  iovBase : Nat
  iovLen : Nat
  deriving DecidableEq, Repr

/-- `struct io_data` with the `first_len` bytes allocated behind it. -/
structure IoData where
  read : Bool
  firstOffset : Nat
  offset : Nat
  firstLen : Nat
  iov : Iovec
  buf : Nat → UInt8

/-- The assignments of `queue_write` to `data`. -/
def IoData.toWrite (d : IoData) : IoData :=
  { d with read := false, offset := d.firstOffset, iov := ⟨0, d.firstLen⟩ }

/-- The assignments of the short-transfer branch to `data`. -/
def IoData.resume (d : IoData) (n : Nat) : IoData :=
  { d with iov := ⟨d.iov.iovBase + n, d.iov.iovLen - n⟩, offset := d.offset + n }

/-- The record after the kernel has stored `bs` through its iovec. -/
def IoData.store (d : IoData) (bs : List UInt8) : IoData :=
  { d with buf := blit d.buf d.iov.iovBase bs }

/-- A prepared entry: `readv` from the source or `writev` to the destination at `offset`, through
    `&data->iov`, with `data` as its user data. -/
structure Req where
  read : Bool
  offset : Nat
  data : Nat
  deriving DecidableEq, Repr

inductive Pc where
  | outer
  | fill
  | submit
  | comp
  | drain
  | ret (status : Int)
  | fault
  deriving DecidableEq, Repr

structure State where
  pc : Pc
  insize : Nat
  writeLeft : Int
  offset : Nat
  reads : UInt64
  writes : UInt64
  hadReads : UInt64
  gotComp : Bool
  heap : Heap IoData
  ring : IoRing Req
  dest : List UInt8
  queued : List (Nat × Nat)
  posted : List Io

/-- The answers of the library calls of one program step: the memory `malloc` returns (`none` for
    NULL), what `io_uring_submit` does, and the error of `io_uring_wait_cqe` or `io_uring_peek_cqe`
    (0 when there is none). -/
structure Answers where
  malloc : Option (Nat → UInt8) := some fun _ => 0
  submit : SubmitRet := .all
  cqeErr : Int := 0

inductive Act where
  | complete (i : Nat) (res : Int)
  | prog (a : Answers)

/-- `copy_file` on entry, with the destination truncated by `main`. -/
def init (insize : Nat) : State where
  pc := .outer
  insize := insize
  writeLeft := insize
  offset := 0
  reads := 0
  writes := 0
  hadReads := 0
  gotComp := false
  heap := Heap.empty
  ring := { entries := depth }
  dest := []
  queued := []
  posted := []

/-! ## Queueing -/

/-- `queue_prepped`; `none` when it dereferences a stale `data` or a NULL entry. -/
def queuePrepped (s : State) (p : Nat) : Option State :=
  (s.heap.cell p).bind fun d =>
    (s.ring.prep ⟨d.read, d.offset, p⟩).map fun r =>
      { s with ring := r, posted := s.posted ++ [⟨d.read, d.offset, d.iov.iovLen⟩] }

/-- `queue_read`; `none` when it returns 1. -/
def queueRead (s : State) (size offset : Nat) (malloc : Option (Nat → UInt8)) : Option State :=
  malloc.bind fun junk =>
    (s.ring.prep ⟨true, offset, s.heap.next⟩).map fun r =>
      { s with
        heap := s.heap.alloc ⟨true, offset, offset, size, ⟨0, size⟩, junk⟩
        ring := r
        queued := s.queued ++ [(offset, size)]
        posted := s.posted ++ [⟨true, offset, size⟩] }

/-- `io_uring_submit` where the caller does not look at the result. -/
def submitRing (s : State) (a : Answers) : State :=
  { s with ring := (s.ring.submit a.submit).1 }

/-- `io_uring_cqe_seen`. -/
def cqeSeen (s : State) : State := { s with ring := s.ring.advance 1 }

/-- `queue_write`. -/
def queueWrite (s : State) (p : Nat) (d : IoData) (a : Answers) : Option State :=
  (queuePrepped { s with heap := s.heap.put p d.toWrite } p).map fun s' => submitRing s' a

/-- Queue the request of `p` again: the common end of the two retry branches. -/
def requeue (s : State) (p : Nat) (a : Answers) : State :=
  match queuePrepped s p with
  | none => { s with pc := .fault }
  | some s' => cqeSeen (submitRing s' a)

/-! ## One turn of each loop -/

/-- `this_size`. -/
def thisSize (insize : Nat) : Nat := if insize > bufSize then bufSize else insize

/-- One turn of `while (insize)`. -/
def fillStep (s : State) (a : Answers) : State :=
  if s.insize = 0 then { s with pc := .submit }
  else if s.reads + s.writes ≥ depth.toUInt64 then { s with pc := .submit }
  else
    match queueRead s (thisSize s.insize) s.offset a.malloc with
    | none => { s with pc := .submit }
    | some s' =>
      { s' with
        insize := s.insize - thisSize s.insize
        offset := s.offset + thisSize s.insize
        reads := s.reads + 1 }

/-- The submit behind the fill loop; a failed one leaves the main loop. -/
def submitStep (s : State) (a : Answers) : State :=
  if s.hadReads ≠ s.reads then
    if (s.ring.submit a.submit).2 < 0 then { submitRing s a with pc := .drain }
    else { submitRing s a with pc := .comp, gotComp := false }
  else { s with pc := .comp, gotComp := false }

/-- `io_uring_wait_cqe` or `io_uring_peek_cqe`, as in the completion loop: the value of `ret` and
    the completion; `none` while the wait blocks. -/
def fetch (s : State) (a : Answers) : Option (Int × Option (Cqe Req)) :=
  if s.gotComp then
    if a.cqeErr < 0 then some (if a.cqeErr = -eagain then 0 else a.cqeErr, none)
    else some (0, s.ring.cq.head?)
  else if a.cqeErr < 0 then some (a.cqeErr, none)
  else s.ring.cq.head?.map fun c => (0, some c)

/-- A completion of the main loop with the full length. -/
def finish (s : State) (p : Nat) (d : IoData) (a : Answers) : State :=
  if d.read then
    match queueWrite s p d a with
    | none => { s with pc := .fault }
    | some s' =>
      cqeSeen { s' with
        writeLeft := s.writeLeft - d.firstLen
        reads := s.reads - 1
        writes := s.writes + 1 }
  else cqeSeen { s with heap := s.heap.free p, writes := s.writes - 1 }

/-- The completion `c` in the main loop. -/
def handle (s : State) (c : Cqe Req) (a : Answers) : State :=
  if c.res < 0 then
    if c.res = -eagain then requeue s c.req.data a
    else { s with pc := .ret 1 }
  else
    match s.heap.cell c.req.data with
    | none => { s with pc := .fault }
    | some d =>
      if c.res.toNat ≠ d.iov.iovLen then
        requeue { s with heap := s.heap.put c.req.data (d.resume c.res.toNat) } c.req.data a
      else finish s c.req.data d a

/-- One turn of `while (write_left)`. -/
def compStep (s : State) (a : Answers) : Option State :=
  if s.writeLeft = 0 then some { s with pc := .outer }
  else
    (fetch s a).map fun f =>
      if f.1 < 0 then { s with pc := .ret 1 }
      else
        match f.2 with
        | none => { s with pc := .outer }
        | some c => handle { s with gotComp := true } c a

/-- One turn of `while (writes)`. -/
def drainStep (s : State) (a : Answers) : Option State :=
  if s.writes = 0 then some { s with pc := .ret 0 }
  else if a.cqeErr < 0 then some { s with pc := .ret 1 }
  else
    s.ring.cq.head?.map fun c : Cqe Req =>
      if c.res < 0 then { s with pc := .ret 1 }
      else
        match s.heap.cell c.req.data with
        | none => { s with pc := .fault }
        | some _ => cqeSeen { s with heap := s.heap.free c.req.data, writes := s.writes - 1 }

/-- The next step of the program. -/
def progStep (s : State) (a : Answers) : Option State :=
  match s.pc with
  | .outer =>
    if s.insize ≠ 0 ∨ s.writeLeft ≠ 0 then some { s with pc := .fill, hadReads := s.reads }
    else some { s with pc := .drain }
  | .fill => some (fillStep s a)
  | .submit => some (submitStep s a)
  | .comp => compStep s a
  | .drain => drainStep s a
  | .ret _ => none
  | .fault => none

/-! ## The kernel -/

/-- The transfer of request `q` on `d` with result `res`; `none` for a result the kernel never
    gives: more than the iovec asks for, or more than the source has. -/
def transfer (source : List UInt8) (s : State) (q : Req) (d : IoData) (res : Int) :
    Option State :=
  if res < 0 then some s
  else if (d.iov.iovLen : Int) < res then none
  else if q.read then
    if (pread source q.offset res.toNat).length ≠ res.toNat then none
    else
      some { s with heap := s.heap.put q.data (d.store (pread source q.offset res.toNat)) }
  else some { s with dest := pwrite 0 s.dest q.offset (grab d.buf d.iov.iovBase res.toNat) }

/-- The kernel completes the `i`-th request in flight. -/
def kernelStep (source : List UInt8) (s : State) (i : Nat) (res : Int) : Option State :=
  s.ring.inflight[i]?.bind fun q =>
    match s.heap.cell q.data with
    | none => some { s with pc := .fault }
    | some d =>
      (transfer source s q d res).bind fun s' =>
        (s.ring.complete i res).map fun r => { s' with ring := r }

def step (source : List UInt8) (s : State) : Act → Option State
  | .complete i res => kernelStep source s i res
  | .prog a => progStep s a

end KernelMagic.FileUring2
