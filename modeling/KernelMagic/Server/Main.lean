/-
  The event loop of `io_uring/socket_uring_server.c`, with the descriptors and connections it serves.

  Schedules: `prog a` is the next step of the program (the submit, the wait together with the batch
  peek, or one turn of the `for` loop; the turn behind the last one is `io_uring_cq_advance`), and
  `complete i res bs` the completion of the `i`-th request in flight with result `res`, for a recv
  with the bytes `bs`. `malloc` and `io_uring_get_sqe` are not checked before their result is used:
  a NULL of either, or the use of a freed `ConnInfo`, is a `fault`.

  The kernel side: `table` gives for each open descriptor of an accepted connection the number of
  the connection, in the order of acceptance, so that a descriptor that is closed and returned by a
  later accept refers to another connection. A request is resolved to its connection when it
  completes; the program is shown to keep the descriptor open until then, so the moment does not
  matter. `Env.reserved` are the descriptors that are open before the loop starts.

  `conns` keeps the history of each connection: the completions on it (`log`), how many of them the
  loop has processed (`handled`), and what the loop has done in answer (`out`). `closes` has an entry
  for each call of `close`, with the connection it has hit. No step looks at these.
-/
import KernelMagic.Lib.Machine
import KernelMagic.Lib.Bytes
import KernelMagic.Lib.Heap
import KernelMagic.Lib.IoRing

namespace KernelMagic.Server

open KernelMagic.Lib

/-- `MAXLINE`. -/
def maxline : Nat := 4096

/-- `RING_LEN`. -/
def ringLen : Nat := 1024

/-- `CQE_LEN`. -/
def cqeLen : Nat := 10

inductive Event where
  | accept
  | read
  | write
  deriving DecidableEq, Repr

/-- `struct ConnInfo`. -/
structure ConnInfo where
  connfd : Nat
  event : Event
  buffer : Nat → UInt8
  bufferLength : Nat

/-- What `memset(info, 0, sizeof(struct ConnInfo))` leaves. -/
def ConnInfo.zero : ConnInfo := ⟨0, .accept, fun _ => 0, 0⟩

/-- The operation of an entry; one that is taken and not prepared is a no-op. -/
inductive Op where
  | nop
  | accept
  | recv (len : Nat)
  | send (len : Nat)
  deriving DecidableEq, Repr

/-- `data` is the user data, `none` for NULL; it is also the `ConnInfo` with the buffer. -/
structure Req where
  op : Op
  fd : Nat
  data : Option Nat
  deriving DecidableEq, Repr

/-- A completion on a connection: its result and the bytes it has moved. -/
inductive Ev where
  | recv (res : Int) (bs : List UInt8)
  | send (res : Int) (bs : List UInt8)
  deriving DecidableEq, Repr

/-- What the program does on a connection: post a send of `len` bytes that are `payload`, close it. -/
inductive Out where
  | send (len : Nat) (payload : List UInt8)
  | close
  deriving DecidableEq, Repr

structure Conn where
  log : List Ev := []
  handled : Nat := 0
  out : List Out := []

inductive Pc where
  | submit
  | peek
  | loop
  | fault
  deriving DecidableEq, Repr

/-- The listening socket and the descriptors that are open from the start, itself among them. -/
structure Env where
  sockfd : Nat
  reserved : Nat → Bool
  listening : reserved sockfd = true

/-- The listening socket is 3, descriptors up to 4 are taken. -/
def env₀ : Env := ⟨3, fun n => decide (n ≤ 4), rfl⟩

structure State where
  pc : Pc
  heap : Heap ConnInfo
  ring : IoRing Req
  i : Nat
  cqecount : Nat
  table : Nat → Option Nat
  next : Nat
  conns : Nat → Conn
  closes : List (Option Nat)

/-- The answers of the library calls of one program step: whether its `malloc`s succeed, what
    `io_uring_submit` does, and whether `io_uring_wait_cqe` returns early. -/
structure Answers where
  malloc : Bool := true
  submit : SubmitRet := .all
  waitErr : Bool := false

inductive Act where
  | complete (i : Nat) (res : Int) (bs : List UInt8)
  | prog (a : Answers)

/-- The entry of the loop: one entry taken and not prepared, one accept. -/
def init (env : Env) : State where
  pc := .submit
  heap := Heap.empty.alloc { ConnInfo.zero with connfd := env.sockfd, event := .accept }
  ring := { entries := ringLen, sq := [⟨.nop, 0, none⟩, ⟨.accept, env.sockfd, some 0⟩] }
  i := 0
  cqecount := 0
  table := fun _ => none
  next := 0
  conns := fun _ => {}
  closes := []

/-- Add to the history of the connection of `fd`. -/
def record (s : State) (fd : Nat) (f : Conn → Conn) : State :=
  match s.table fd with
  | none => s
  | some c => { s with conns := Function.update s.conns c (f (s.conns c)) }

def Conn.logged (e : Ev) (c : Conn) : Conn := { c with log := c.log ++ [e] }

def Conn.processed (c : Conn) : Conn := { c with handled := c.handled + 1 }

def Conn.did (o : Out) (c : Conn) : Conn := { c with out := c.out ++ [o] }

/-! ## Posting -/

/-- `set_accept_event`. -/
def setAcceptEvent (s : State) (sfd : Nat) : Option State :=
  (s.ring.prep ⟨.accept, sfd, some s.heap.next⟩).map fun r =>
    { s with
      ring := r
      heap := s.heap.alloc { ConnInfo.zero with connfd := sfd, event := .accept } }

/-- `set_recv_event`. -/
def setRecvEvent (s : State) (sfd p : Nat) : Option State :=
  (s.heap.cell p).bind fun info =>
    (s.ring.prep ⟨.recv info.bufferLength, sfd, some p⟩).map fun r =>
      { s with ring := r, heap := s.heap.put p { info with connfd := sfd, event := .read } }

/-- `set_send_event`. -/
def setSendEvent (s : State) (sfd p length : Nat) : Option State :=
  (s.heap.cell p).bind fun info =>
    (s.ring.prep ⟨.send length, sfd, some p⟩).map fun r =>
      record
        { s with ring := r, heap := s.heap.put p { info with connfd := sfd, event := .write } }
        sfd (Conn.did (.send length (grab info.buffer 0 length)))

/-- `close(fd)`. -/
def closeFd (s : State) (fd : Nat) : State :=
  let s' := record s fd (Conn.did .close)
  { s' with table := Function.update s.table fd none, closes := s.closes ++ [s.table fd] }

/-- `close(ci->connfd); free(ci);`. -/
def drop (s : State) (p : Nat) (ci : ConnInfo) : State :=
  let s' := closeFd s ci.connfd
  { s' with heap := s'.heap.free p }

/-! ## One completion -/

/-- `EVENT_ACCEPT`; `none` is a crash, here and below. -/
def handleAccept (s : State) (p : Nat) (ci : ConnInfo) (res : Int) (a : Answers) : Option State :=
  if res < 0 then some { s with heap := s.heap.free p }
  else if a.malloc then
    (setRecvEvent { s with heap := s.heap.alloc { ConnInfo.zero with bufferLength := maxline } }
      res.toNat s.heap.next).bind fun s₁ =>
      (setAcceptEvent s₁ ci.connfd).map fun s₂ => { s₂ with heap := s₂.heap.free p }
  else none

/-- `EVENT_READ`. -/
def handleRead (s : State) (p : Nat) (ci : ConnInfo) (res : Int) : Option State :=
  if res = 0 then some (drop s p ci)
  else if res < 0 then some (drop s p ci)
  else
    setSendEvent { s with heap := s.heap.put p { ci with bufferLength := res.toNat } } ci.connfd p
      res.toNat

/-- `EVENT_WRITE`. -/
def handleWrite (s : State) (p : Nat) (ci : ConnInfo) (res : Int) : Option State :=
  if res ≤ 0 then some (drop s p ci)
  else setRecvEvent s ci.connfd p

/-- The body of the `for` loop on completion `x`. -/
def handle (s : State) (x : Cqe Req) (a : Answers) : Option State :=
  match x.req.data with
  | none => some s
  | some p =>
    (s.heap.cell p).bind fun ci =>
      match ci.event with
      | .accept => handleAccept s p ci x.res a
      | .read => handleRead (record s ci.connfd Conn.processed) p ci x.res
      | .write => handleWrite (record s ci.connfd Conn.processed) p ci x.res

/-! ## The loop -/

/-- `io_uring_wait_cqe` and `io_uring_peek_batch_cqe`; `none` while the wait blocks. -/
def peekStep (s : State) (a : Answers) : Option State :=
  if s.ring.cq.isEmpty && !a.waitErr then none
  else some { s with i := 0, cqecount := min cqeLen s.ring.cq.length, pc := .loop }

/-- One turn of the `for` loop, or `io_uring_cq_advance` behind it. -/
def loopStep (s : State) (a : Answers) : State :=
  if s.i < s.cqecount then
    match s.ring.cq[s.i]?.bind fun x => handle s x a with
    | none => { s with pc := .fault }
    | some s' => { s' with i := s.i + 1 }
  else { s with ring := s.ring.advance s.cqecount, i := 0, cqecount := 0, pc := .submit }

/-- The next step of the program. -/
def progStep (s : State) (a : Answers) : Option State :=
  match s.pc with
  | .submit => some { s with ring := (s.ring.submit a.submit).1, pc := .peek }
  | .peek => peekStep s a
  | .loop => some (loopStep s a)
  | .fault => none

/-! ## The kernel -/

/-- The effect of request `q` completing with `res`, apart from the ring; `none` for a result that
    the kernel never gives. -/
def transfer (env : Env) (s : State) (q : Req) (res : Int) (bs : List UInt8) : Option State :=
  match q.op with
  | .nop => some s
  | .accept =>
    if res < 0 then some s
    else if env.reserved res.toNat || (s.table res.toNat).isSome then none
    else
      some { s with
        table := Function.update s.table res.toNat (some s.next), next := s.next + 1 }
  | .recv len =>
    if res < 0 then some (record s q.fd (Conn.logged (.recv res [])))
    else if (len : Int) < res ∨ bs.length ≠ res.toNat then none
    else
      match q.data.bind fun p => (s.heap.cell p).map fun ci => (p, ci) with
      | none => some { s with pc := .fault }
      | some (p, ci) =>
        some (record
          { s with heap := s.heap.put p { ci with buffer := blit ci.buffer 0 bs } }
          q.fd (Conn.logged (.recv res bs)))
  | .send len =>
    if res < 0 then some (record s q.fd (Conn.logged (.send res [])))
    else if (len : Int) < res then none
    else
      match q.data.bind fun p => s.heap.cell p with
      | none => some { s with pc := .fault }
      | some ci => some (record s q.fd (Conn.logged (.send res (grab ci.buffer 0 res.toNat))))

def kernelStep (env : Env) (s : State) (i : Nat) (res : Int) (bs : List UInt8) : Option State :=
  s.ring.inflight[i]?.bind fun q =>
    (transfer env s q res bs).bind fun s' =>
      (s.ring.complete i res).map fun r => { s' with ring := r }

def step (env : Env) (s : State) : Act → Option State
  | .complete i res bs => kernelStep env s i res bs
  | .prog a => progStep s a

end KernelMagic.Server
