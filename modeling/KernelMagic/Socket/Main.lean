/-
  The event loop that `io_uring/socket_uring_normal.c` and `io_uring/socket_uring.c` share. The two
  differ in what they do with the completion of a recv or a send (`Program`); everything else, down to
  the one `buffer` in `main` that every recv writes and every send reads, is the same text.

  The user data of a request is a `ConnInfo` by value, and the loop goes by it alone. The entry that
  is taken before the loop and never prepared is submitted as it stands in the zeroed ring: a no-op
  on descriptor 0 with user data 0, which completes with the result 0.

  Schedules are those of `Server.Main`: `prog a` is the next step of the program, `complete i res bs`
  the completion of the `i`-th request in flight. A NULL of `io_uring_get_sqe` is written to without a
  check, so it is a `fault`, as is a read past the end of the buffer.

  The world around the ring is in `World`. The kernel side of it: `table` says of each open descriptor
  whom it belongs to, a connection (numbered as accepted) or the process itself, for those that are
  open from the start. An accept returns any descriptor that is not open; only the listening socket
  listens, so on any other one it fails. The histories that the properties are about are kept beside
  it: the requests posted and the descriptors closed, each with whom the descriptor belonged to at
  that moment (`hit`) and on whose account it was done (`owner`); the results of the accepts; what
  each send has transmitted; the paths given to `fopen` and the messages sent by `render`. A request
  carries a `Tag` that says on whose account it is and which bytes are its cause. No step looks at
  the histories or the tags.
-/
import KernelMagic.Lib.Machine
import KernelMagic.Lib.IoRing

namespace KernelMagic.Socket

open KernelMagic.Lib

/-- `MAXLINE`. -/
def maxline : Nat := 4096

/-- `RING_LEN`. -/
def ringLen : Nat := 1024

/-- `CQE_LEN`. -/
def cqeLen : Nat := 10

inductive Event where
  | accept
  | read
  | write
  deriving DecidableEq, Repr

/-- `struct ConnInfo`. -/
structure ConnInfo where
  connfd : Nat
  event : Event
  deriving DecidableEq, Repr

inductive Op where
  | nop
  | accept
  | recv (len : Nat)
  | send (len : Nat)
  deriving DecidableEq, Repr

/-- Whom an open descriptor belongs to. -/
inductive Owner where
  | own
  | conn (c : Nat)
  deriving DecidableEq, Repr

/-- `owner`: whose descriptor the request is about (for an accept that has succeeded, the new one).
    `bytes`: what the recv has delivered, `origin` whom its descriptor belonged to then; of a send,
    those of the recv that caused it, on the descriptor `source`. -/
structure Tag where
  owner : Owner
  source : Nat
  origin : Option Owner
  bytes : List UInt8
  deriving DecidableEq, Repr

structure Req where
  op : Op
  fd : Nat
  data : ConnInfo
  tag : Tag
  deriving DecidableEq, Repr

/-- A posted request; `given` tells whether an accept had returned the descriptor before. -/
structure Post where
  op : Op
  fd : Nat
  owner : Owner
  hit : Option Owner
  given : Bool
  deriving DecidableEq, Repr

structure Close where
  fd : Nat
  owner : Owner
  hit : Option Owner
  deriving DecidableEq, Repr

/-- A completed send: its descriptor and length, on whose account it was posted and whom the
    descriptor belonged to when the bytes went out (`owner`, `hit`), the recv that caused it, with whom
    its descriptor belonged to when it delivered its bytes (`source`, `origin`, `cause`), and the bytes
    that went out. -/
structure Sent where
  fd : Nat
  len : Nat
  owner : Owner
  hit : Option Owner
  source : Nat
  origin : Option Owner
  cause : List UInt8
  payload : List UInt8
  deriving DecidableEq, Repr

structure World where
  buffer : List UInt8
  table : Nat → Option Owner
  next : Nat
  accepted : List Nat
  posts : List Post
  closes : List Close
  sent : List Sent
  opens : List (List UInt8)
  replies : List (Nat × List UInt8)

inductive Pc where
  | submit
  | peek
  | loop
  | fault
  deriving DecidableEq, Repr

structure State where
  pc : Pc
  ring : IoRing Req
  i : Nat
  cqecount : Nat
  world : World

/-- The listening socket and the descriptors that are open from the start, itself among them. -/
structure Env where
  sockfd : Nat
  reserved : Nat → Bool
  listening : reserved sockfd = true

/-- The listening socket is 3, descriptors up to 4 are taken. -/
def env₀ : Env := ⟨3, fun n => decide (n ≤ 4), Eq.refl true⟩

/-- The answers of the library calls of one program step: what `io_uring_submit` does, whether
    `io_uring_wait_cqe` returns early, and the content of the file that `fopen` opens, if it does. -/
structure Answers where
  submit : SubmitRet := .all
  waitErr : Bool := false
  file : Option (List UInt8) := none

inductive Act where
  | complete (i : Nat) (res : Int) (bs : List UInt8)
  | prog (a : Answers)

/-- What the loop does with a completion of a recv and of a send; `none` is a crash. -/
structure Program where
  onRead : State → Cqe Req → Answers → Option State
  onWrite : State → Cqe Req → Answers → Option State

/-! ## Posting and closing -/

def ownTag : Tag := ⟨.own, 0, none, []⟩

/-- The entry that is taken and not prepared. -/
def unprepared : Req := ⟨.nop, 0, ⟨0, .accept⟩, ownTag⟩

def acceptReq (sfd : Nat) : Req := ⟨.accept, sfd, ⟨sfd, .accept⟩, ownTag⟩

def recvReq (sfd len : Nat) (o : Owner) : Req := ⟨.recv len, sfd, ⟨sfd, .read⟩, ⟨o, 0, none, []⟩⟩

def sendReq (sfd len : Nat) (t : Tag) : Req := ⟨.send len, sfd, ⟨sfd, .write⟩, t⟩

def World.posted (w : World) (q : Req) : World :=
  { w with
    posts := w.posts ++ [⟨q.op, q.fd, q.tag.owner, w.table q.fd, w.accepted.contains q.fd⟩] }

/-- `close(fd)`. -/
def World.close (w : World) (fd : Nat) (o : Owner) : World :=
  { w with
    table := Function.update w.table fd none
    closes := w.closes ++ [⟨fd, o, w.table fd⟩] }

/-- Take an entry and fill it. -/
def post (s : State) (q : Req) : Option State :=
  (s.ring.prep q).map fun r => { s with ring := r, world := s.world.posted q }

/-- `set_accept_event`. -/
def setAcceptEvent (s : State) (sfd : Nat) : Option State := post s (acceptReq sfd)

/-- `set_recv_event`. -/
def setRecvEvent (s : State) (sfd len : Nat) (o : Owner) : Option State :=
  post s (recvReq sfd len o)

/-- `set_send_event`. -/
def setSendEvent (s : State) (sfd len : Nat) (t : Tag) : Option State := post s (sendReq sfd len t)

def closeFd (s : State) (fd : Nat) (o : Owner) : State := { s with world := s.world.close fd o }

/-! ## The loop -/

/-- `EVENT_ACCEPT`. -/
def handleAccept (s : State) (x : Cqe Req) : Option State :=
  if x.res < 0 then some s
  else
    (setRecvEvent s x.res.toNat maxline x.req.tag.owner).bind fun s' =>
      setAcceptEvent s' x.req.data.connfd

/-- The body of the `for` loop on completion `x`. -/
def handle (p : Program) (s : State) (x : Cqe Req) (a : Answers) : Option State :=
  match x.req.data.event with
  | .accept => handleAccept s x
  | .read => p.onRead s x a
  | .write => p.onWrite s x a

/-- `io_uring_wait_cqe` and `io_uring_peek_batch_cqe`; `none` while the wait blocks. -/
def peekStep (s : State) (a : Answers) : Option State :=
  if s.ring.cq.isEmpty && !a.waitErr then none
  else some { s with i := 0, cqecount := min cqeLen s.ring.cq.length, pc := .loop }

/-- One turn of the `for` loop, or `io_uring_cq_advance` behind it. -/
def loopStep (p : Program) (s : State) (a : Answers) : State :=
  if s.i < s.cqecount then
    match s.ring.cq[s.i]?.bind fun x => handle p s x a with
    | none => { s with pc := .fault }
    | some s' => { s' with i := s.i + 1 }
  else { s with ring := s.ring.advance s.cqecount, i := 0, cqecount := 0, pc := .submit }

def progStep (p : Program) (s : State) (a : Answers) : Option State :=
  match s.pc with
  | .submit => some { s with ring := (s.ring.submit a.submit).1, pc := .peek }
  | .peek => peekStep s a
  | .loop => some (loopStep p s a)
  | .fault => none

/-! ## The kernel -/

/-- Store `bs` at the start of the buffer. -/
def store (buf bs : List UInt8) : List UInt8 := bs ++ buf.drop bs.length

/-- A new connection on descriptor `fd`. -/
def World.accept (w : World) (fd : Nat) : World :=
  { w with
    table := Function.update w.table fd (some (.conn w.next))
    next := w.next + 1
    accepted := w.accepted ++ [fd] }

def World.receive (w : World) (bs : List UInt8) : World := { w with buffer := store w.buffer bs }

/-- The first `n` bytes of the buffer go out on behalf of `q`, a send of `len` bytes. -/
def World.transmit (w : World) (q : Req) (len n : Nat) : World :=
  { w with
    sent := w.sent ++ [⟨q.fd, len, q.tag.owner, w.table q.fd, q.tag.source, q.tag.origin, q.tag.bytes,
      w.buffer.take n⟩] }

def Req.owned (q : Req) (c : Nat) : Req := { q with tag := { q.tag with owner := .conn c } }

/-- The recv has delivered `bs` from the descriptor of `o`. -/
def Req.filled (q : Req) (o : Option Owner) (bs : List UInt8) : Req :=
  { q with tag := { q.tag with origin := o, bytes := bs } }

/-- The effect of request `q` completing with `res`, and the request with its tag brought up to date;
    `none` for a result that the kernel never gives. -/
def transfer (env : Env) (w : World) (q : Req) (res : Int) (bs : List UInt8) :
    Option (Req × World) :=
  match q.op with
  | .nop => if res = 0 then some (q, w) else none
  | .accept =>
    if res < 0 then some (q, w)
    else if q.fd ≠ env.sockfd ∨ (w.table res.toNat).isSome then none
    else some (q.owned w.next, w.accept res.toNat)
  | .recv len =>
    if res < 0 then some (q, w)
    else if (len : Int) < res ∨ bs.length ≠ res.toNat then none
    else some (q.filled (w.table q.fd) bs, w.receive bs)
  | .send len => if (len : Int) < res then none else some (q, w.transmit q len res.toNat)

def kernelStep (env : Env) (s : State) (i : Nat) (res : Int) (bs : List UInt8) : Option State :=
  s.ring.inflight[i]?.bind fun q =>
    (transfer env s.world q res bs).map fun r =>
      { s with
        ring := { s.ring with
          inflight := s.ring.inflight.eraseIdx i
          cq := s.ring.cq ++ [⟨r.1, res⟩] }
        world := r.2 }

def step (env : Env) (p : Program) (s : State) : Act → Option State
  | .complete i res bs => kernelStep env s i res bs
  | .prog a => progStep p s a

/-! ## Start -/

/-- Before anything is posted. -/
def World.start (env : Env) : World where
  buffer := List.replicate maxline 0
  table := fun fd => if env.reserved fd then some .own else none
  next := 0
  accepted := []
  posts := []
  closes := []
  sent := []
  opens := []
  replies := []

/-- The entry of the loop: one entry taken and not prepared, one accept. -/
def init (env : Env) : State where
  pc := .submit
  ring := { entries := ringLen, sq := [unprepared, acceptReq env.sockfd] }
  i := 0
  cqecount := 0
  world := (World.start env).posted (acceptReq env.sockfd)

end KernelMagic.Socket
