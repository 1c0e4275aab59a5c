/-
  `main` of `io_uring/file_uring.c`, from the return of `get_file_size` on.

  Schedules are as for `copy_file` (`FileUring2.CopyFile`): `prog a` is the next step of the program,
  one turn of a loop, and `complete i res` a completion by the kernel. All reads are queued before the
  one submit; the second loop takes as many completions as the submit has returned, in the order in
  which they arrive, and appends the data of each to the destination with `write`.

  `malloc` and `io_uring_get_sqe` are not checked, a NULL of either is dereferenced (`fault`). The
  buffers are never freed, `free` gives back the `File_data` only. `posted` records every request
  prepared and `arrived` the offsets of the reads in the order of their completions.
-/
import KernelMagic.Lib.Machine
import KernelMagic.Lib.Bytes
import KernelMagic.Lib.Heap
import KernelMagic.Lib.IoRing
import KernelMagic.Lib.Chunks
import KernelMagic.FileSize

namespace KernelMagic.FileUring

open KernelMagic.Lib

/-- `BUF_SIZE`. -/
def bufSize : Nat := 4096

/-- `DEPTH`. -/
def depth : Nat := 1024

/-- `struct File_data` with the buffer `data` points to. -/
structure FileData where
  index : Nat
  offset : Nat
  data : Nat → UInt8

/-- The record after the kernel has stored `bs` in its buffer. -/
def FileData.store (d : FileData) (bs : List UInt8) : FileData :=
  { d with data := blit d.data 0 bs }

/-- A prepared read of `BUF_SIZE` bytes at `offset`; `data` is the user data. -/
structure Req where
  offset : Nat
  data : Nat
  deriving DecidableEq, Repr

inductive Pc where
  | queue
  | submit
  | recv
  | exit (status : Int)
  | fault
  deriving DecidableEq, Repr

structure State where
  pc : Pc
  fileSz : Int
  offset : Nat
  i : Nat
  ret : Int
  j : Nat
  heap : Heap FileData
  ring : IoRing Req
  dest : List UInt8
  posted : List Io
  arrived : List Nat

/-- The answers of the library calls of one program step: whether the two `malloc` succeed, what
    `io_uring_submit` does, the error of `io_uring_wait_cqe` (0 when there is none), and the result of
    `write` when it does not write everything. -/
structure Answers where
  malloc : Bool := true
  submit : SubmitRet := .all
  cqeErr : Int := 0
  written : Option Int := none

inductive Act where
  | complete (i : Nat) (res : Int)
  | prog (a : Answers)

def init (st : Stat) : State where
  pc := .queue
  fileSz := getFileSize st
  offset := 0
  i := 0
  ret := 0
  j := 0
  heap := Heap.empty
  ring := { entries := depth }
  dest := []
  posted := []
  arrived := []

/-- One turn of `while (1)`: queue the read at `offset`, with a zeroed buffer. -/
def queueStep (s : State) (a : Answers) : State :=
  if a.malloc then
    match s.ring.prep ⟨s.offset, s.heap.next⟩ with
    | none => { s with pc := .fault }
    | some r =>
      { s with
        heap := s.heap.alloc ⟨s.i, s.offset, fun _ => 0⟩
        ring := r
        posted := s.posted ++ [⟨true, s.offset, bufSize⟩]
        offset := s.offset + bufSize
        i := s.i + 1
        pc := if ((s.offset + bufSize : Nat) : Int) > s.fileSz then .submit else .queue }
  else { s with pc := .fault }

def submitStep (s : State) (a : Answers) : State :=
  { s with
    ring := (s.ring.submit a.submit).1
    ret := (s.ring.submit a.submit).2
    j := 0
    pc := if (s.ring.submit a.submit).2 < 0 then .exit (-1) else .recv }

/-- `write(dest_fd, data, res)`: its result, which is an error for a negative count. -/
def writeRet (res : Int) (a : Answers) : Int := if res < 0 then -1 else a.written.getD res

/-- The completion `c` in the second loop. -/
def recvDone (s : State) (c : Cqe Req) (a : Answers) : State :=
  match s.heap.cell c.req.data with
  | none => { s with pc := .fault }
  | some d =>
    if writeRet c.res a < 0 then { s with pc := .exit (-1) }
    else
      { s with
        dest := s.dest ++ grab d.data 0 (min c.res.toNat (writeRet c.res a).toNat)
        ring := s.ring.advance 1
        heap := s.heap.free c.req.data
        j := s.j + 1 }

/-- One turn of `for (j = 0; j < ret; j++)`; `none` while `io_uring_wait_cqe` blocks. -/
def recvStep (s : State) (a : Answers) : Option State :=
  if (s.j : Int) < s.ret then
    if a.cqeErr < 0 then some { s with pc := .exit (-1) }
    else s.ring.cq.head?.map fun c => recvDone s c a
  else some { s with pc := .exit 0 }

/-- The next step of the program. -/
def progStep (s : State) (a : Answers) : Option State :=
  match s.pc with
  | .queue => some (queueStep s a)
  | .submit => some (submitStep s a)
  | .recv => recvStep s a
  | .exit _ => none
  | .fault => none

/-- The kernel completes the `i`-th request in flight; a result that it never gives is not enabled
    (`FileUring2.transfer`). -/
def kernelStep (source : List UInt8) (s : State) (i : Nat) (res : Int) : Option State :=
  s.ring.inflight[i]?.bind fun q =>
    match s.heap.cell q.data with
    | none => some { s with pc := .fault }
    | some d =>
      if (bufSize : Int) < res ∨ (pread source q.offset res.toNat).length ≠ res.toNat then none
      else
        (s.ring.complete i res).map fun r =>
          { s with
            heap := s.heap.put q.data (d.store (pread source q.offset res.toNat))
            ring := r
            arrived := s.arrived ++ [q.offset] }

def step (source : List UInt8) (s : State) : Act → Option State
  | .complete i res => kernelStep source s i res
  | .prog a => progStep s a

end KernelMagic.FileUring
