/-
  `main`, `read_cqe_recv` and `write_cqe_recv` of `io_uring/file_uring_single_buffer.c` and
  `io_uring/file_uring_multi_buffer.c`, from the return of `get_file_size` on.

  The two programs differ in the length of the write that follows a read: the first writes the
  `bytes_read` of the completion, the second the iovec of the read request, whatever the read has
  returned (`Program.writeLen`). Everything else is one text.

  A schedule is a list of actions as for `copy_file` (`FileUring2.CopyFile`): `prog a` is the next
  step of the program, one turn of a loop, and `complete i res` a completion by the kernel. In
  `read_cqe_recv` the program first peeks and then waits while there is nothing to peek at; both
  calls give the head of the completion queue, so one turn is enabled as soon as there is one.

  `malloc` is not checked, and neither is `io_uring_get_sqe`: a NULL of either is dereferenced
  (`fault`). `exit status` is the end of the process. `posted` records every request prepared.
-/
import KernelMagic.Lib.Machine
import KernelMagic.Lib.Bytes
import KernelMagic.Lib.Heap
import KernelMagic.Lib.IoRing
import KernelMagic.Lib.Chunks
import KernelMagic.FileSize

namespace KernelMagic.Batch

open KernelMagic.Lib

/-- `BUF_SIZE`. -/
def bufSize : Nat := 32 * 1024

/-- `DEPTH`. -/
def depth : Nat := 64

/-- `struct file_data` with its buffer. `iovLen` is `iov.iov_len`; the single-buffer program has no
    iovec and never reads it. -/
structure FileData where
  offset : Nat
  iovLen : Nat
  buf : Nat → UInt8

/-- The record after the kernel has stored `bs` in its buffer. -/
def FileData.store (d : FileData) (bs : List UInt8) : FileData := { d with buf := blit d.buf 0 bs }

/-- A prepared entry: a read of the source or a write of the destination, `len` bytes at `offset`,
    with the buffer of `data`, which is also its user data. -/
structure Req where
  read : Bool
  offset : Nat
  len : Nat
  data : Nat
  deriving DecidableEq, Repr

/-- What distinguishes the two programs: the length of the write after a read of `bytesRead`. -/
structure Program where
  writeLen : FileData → Nat → Nat

/-- `file_uring_single_buffer.c`: `io_uring_prep_write` of `bytes_read` bytes. -/
def singleBuffer : Program := ⟨fun _ bytesRead => bytesRead⟩

/-- `file_uring_multi_buffer.c`: `io_uring_prep_writev` of the iovec. -/
def multiBuffer : Program := ⟨fun d _ => d.iovLen⟩

inductive Pc where
  | top
  | submit
  | readRecv
  | readSubmit
  | writeRecv
  | last
  | exit (status : Int)
  | fault
  deriving DecidableEq, Repr

structure State where
  pc : Pc
  fileSz : Int
  insize : Int
  offset : Nat
  thisSize : Int
  reads : Nat
  writes : Nat
  flag : Nat
  i : Nat
  heap : Heap FileData
  ring : IoRing Req
  dest : List UInt8
  posted : List Io

/-- The answers of the library calls of one program step (`FileUring2.Answers`). -/
structure Answers where
  malloc : Option (Nat → UInt8) := some fun _ => 0
  submit : SubmitRet := .all
  cqeErr : Int := 0

inductive Act where
  | complete (i : Nat) (res : Int)
  | prog (a : Answers)

/-- The loop of `main` on entry, for a source of which `fstat` says `st`. -/
def init (st : Stat) : State where
  pc := .top
  fileSz := getFileSize st
  insize := getFileSize st
  offset := 0
  thisSize := 0
  reads := 0
  writes := 0
  flag := 1
  i := 0
  heap := Heap.empty
  ring := { entries := depth }
  dest := []
  posted := []

/-- `insize -= this_size; offset += this_size;`. -/
def advance (s : State) : State :=
  { s with insize := s.insize - s.thisSize, offset := s.offset + s.thisSize.toNat }

/-- `if (flag == 2)`: on to `write_cqe_recv`, or to the end of the loop body. -/
def flagTest (s : State) : State :=
  if s.flag = 2 then { s with pc := .writeRecv, i := 0 } else { s with pc := .last }

/-- `this_size`. -/
def chunkSize (insize : Int) : Int := if (bufSize : Int) > insize then insize else bufSize

/-- The top of the loop body: queue the next read. -/
def topStep (s : State) (a : Answers) : State :=
  if s.flag = 1 ∧ s.insize > 0 then
    match a.malloc with
    | none => { s with pc := .fault }
    | some junk =>
      match s.ring.prep ⟨true, s.offset, (chunkSize s.insize).toNat, s.heap.next⟩ with
      | none => { s with pc := .fault }
      | some r =>
        let s' := { s with
          thisSize := chunkSize s.insize
          heap := s.heap.alloc ⟨s.offset, (chunkSize s.insize).toNat, junk⟩
          ring := r
          reads := s.reads + 1
          posted := s.posted ++ [⟨true, s.offset, (chunkSize s.insize).toNat⟩] }
        if chunkSize s.insize = s.insize ∨ s.reads + 1 ≥ depth then { s' with pc := .submit }
        else flagTest (advance s')
  else flagTest { s with thisSize := chunkSize s.insize }

/-- The batch is complete: submit it and call `read_cqe_recv`. -/
def submitStep (s : State) (a : Answers) : State :=
  if (s.ring.submit a.submit).2 < 0 then { s with ring := (s.ring.submit a.submit).1, pc := .exit 1 }
  else
    { s with
      ring := (s.ring.submit a.submit).1
      flag := 2
      writes := s.reads
      reads := 0
      i := 0
      pc := .readRecv }

/-- The completion `c` in `read_cqe_recv`: queue the write of the data, or give it up. -/
def readDone (prg : Program) (s : State) (c : Cqe Req) : State :=
  match s.heap.cell c.req.data with
  | none => { s with pc := .fault }
  | some d =>
    if c.res < 0 then
      { s with heap := s.heap.free c.req.data, ring := s.ring.advance 1, i := s.i + 1 }
    else
      match s.ring.prep ⟨false, d.offset, prg.writeLen d c.res.toNat, c.req.data⟩ with
      | none => { s with pc := .fault }
      | some r =>
        { s with
          ring := r.advance 1
          i := s.i + 1
          posted := s.posted ++ [⟨false, d.offset, prg.writeLen d c.res.toNat⟩] }

/-- One turn of the loop of `read_cqe_recv`. -/
def readRecvStep (prg : Program) (s : State) (a : Answers) : Option State :=
  if s.i < s.writes then
    if a.cqeErr < 0 then some { s with pc := .exit 1 }
    else s.ring.cq.head?.map (readDone prg s)
  else some { s with pc := .readSubmit }

/-- The submit at the end of `read_cqe_recv`, and the rest of the loop body. -/
def readSubmitStep (s : State) (a : Answers) : State :=
  if (s.ring.submit a.submit).2 < 0 then { s with ring := (s.ring.submit a.submit).1, pc := .exit 1 }
  else flagTest (advance { s with ring := (s.ring.submit a.submit).1 })

/-- `write_cqe_recv` returns. -/
def writeRet (s : State) : State := { s with flag := 1, writes := 0, pc := .last }

/-- One turn of the loop of `write_cqe_recv`; an error makes it return, the completion unseen. -/
def writeRecvStep (s : State) (a : Answers) : Option State :=
  if s.i < s.writes then
    if a.cqeErr < 0 then some (writeRet s)
    else s.ring.cq.head?.map fun c : Cqe Req =>
      if c.res < 0 then writeRet s
      else
        match s.heap.cell c.req.data with
        | none => { s with pc := .fault }
        | some _ => { s with
            heap := s.heap.free c.req.data, ring := s.ring.advance 1, i := s.i + 1 }
  else some (writeRet s)

/-- The next step of the program. -/
def progStep (prg : Program) (s : State) (a : Answers) : Option State :=
  match s.pc with
  | .top => some (topStep s a)
  | .submit => some (submitStep s a)
  | .readRecv => readRecvStep prg s a
  | .readSubmit => some (readSubmitStep s a)
  | .writeRecv => writeRecvStep s a
  | .last => some { s with pc := if (s.offset : Int) ≥ s.fileSz then .exit 0 else .top }
  | .exit _ => none
  | .fault => none

/-! ## The kernel -/

/-- The transfer of request `q` on `d` with result `res` (`FileUring2.transfer`). -/
def transfer (source : List UInt8) (s : State) (q : Req) (d : FileData) (res : Int) :
    Option State :=
  if res < 0 then some s
  else if (q.len : Int) < res then none
  else if q.read then
    if (pread source q.offset res.toNat).length ≠ res.toNat then none
    else
      some { s with heap := s.heap.put q.data (d.store (pread source q.offset res.toNat)) }
  else some { s with dest := pwrite 0 s.dest q.offset (grab d.buf 0 res.toNat) }

def kernelStep (source : List UInt8) (s : State) (i : Nat) (res : Int) : Option State :=
  s.ring.inflight[i]?.bind fun q =>
    match s.heap.cell q.data with
    | none => some { s with pc := .fault }
    | some d =>
      (transfer source s q d res).bind fun s' =>
        (s.ring.complete i res).map fun r => { s' with ring := r }

def step (prg : Program) (source : List UInt8) (s : State) : Act → Option State
  | .complete i res => kernelStep source s i res
  | .prog a => progStep prg s a

end KernelMagic.Batch
