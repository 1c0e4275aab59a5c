/-
  The two programs of `mqueue/` and the message queue between them.

  A queue is an object of its own, with a number; `name` is the object that `QUEUE_NAME` stands for, if
  any. `mq_unlink` takes the name away and leaves the object to those who have it open; `mq_open` with
  `O_CREAT` opens the object of the name, or makes a new one for it.

  Schedules: `sender ok` and `receiver ok` are the next call of the one and the other program, with
  the local steps behind it; `ok` says whether the call succeeds. `mq_send` on a full queue and
  `mq_receive` on an empty one are not enabled: they block.

  A buffer is the list of the bytes of the array. `printed` are the strings that the receiver has
  printed, `sendStop` and `recvStop` the ones on which the two programs have left their loops.
-/
import KernelMagic.Lib.Machine
import KernelMagic.Lib.Stdio

namespace KernelMagic.Mqueue

open KernelMagic.Lib

/-- `MAX_SIZE`, which is also `mq_msgsize`. -/
def maxSize : Nat := 1024

/-- `mq_maxmsg`. -/
def maxMsg : Nat := 10

/-- `!strncmp(buffer, MSG_STOP, strlen(MSG_STOP))`. -/
def isStop (str : List UInt8) : Bool := (ascii "exit").isPrefixOf str

inductive SenderPc where
  | unlink
  | opening
  | read
  | send
  | close
  | done
  | fault
  deriving DecidableEq, Repr

inductive ReceiverPc where
  | opening
  | receive
  | close
  | unlink
  | done
  | fault
  deriving DecidableEq, Repr

structure State where
  name : Option Nat
  queues : Nat → List (List UInt8)
  fresh : Nat
  sender : SenderPc
  sendMq : Nat
  stdin : List UInt8
  buffer : List UInt8
  sendStop : Option (List UInt8)
  receiver : ReceiverPc
  recvMq : Nat
  printed : List (List UInt8)
  recvStop : Option (List UInt8)

inductive Act where
  | sender (ok : Bool)
  | receiver (ok : Bool)
  deriving DecidableEq, Repr

/-- Both programs are about to start; `old` is the queue that an earlier run has left behind. The
    sender's buffer is not initialised. -/
def init (old : Option (List (List UInt8))) (junk stdin : List UInt8) : State where
  name := old.map fun _ => 0
  queues := fun _ => old.getD []
  fresh := 1
  sender := .unlink
  sendMq := 0
  stdin := stdin
  buffer := junk
  sendStop := none
  receiver := .opening
  recvMq := 0
  printed := []
  recvStop := none

/-! ## The queue -/

/-- `mq_open(QUEUE_NAME, O_CREAT | …)`: the queue that is opened, made if there is none. -/
def mqOpen (s : State) : Nat × State :=
  match s.name with
  | some q => (q, s)
  | none =>
    (s.fresh,
      { s with
        name := some s.fresh
        queues := Function.update s.queues s.fresh []
        fresh := s.fresh + 1 })

/-- `mq_send`; `none` while the queue is full. -/
def mqSend (s : State) (q : Nat) (m : List UInt8) : Option State :=
  if (s.queues q).length < maxMsg then
    some { s with queues := Function.update s.queues q (s.queues q ++ [m]) }
  else none

/-- `mq_receive`; `none` while the queue is empty. -/
def mqReceive (s : State) (q : Nat) : Option (List UInt8 × State) :=
  match s.queues q with
  | [] => none
  | m :: ms => some (m, { s with queues := Function.update s.queues q ms })

/-! ## The sender -/

/-- `fgets(buffer, MAX_SIZE, stdin)`: the buffer, which stays as it is at the end of the input, and the
    rest of the input. -/
def fgetsInto (buf stdin : List UInt8) : List UInt8 × List UInt8 :=
  match fgets maxSize stdin with
  | none => (buf, stdin)
  | some (line, rest) => (line ++ 0 :: buf.drop (line.length + 1), rest)

/-- `buffer[strcspn(buffer, "\n")] = '\0'`; `none` when the scan leaves the buffer. -/
def chomp (buf : List UInt8) : Option (List UInt8) :=
  let k := (buf.takeWhile fun b => b != newline && b != 0).length
  if k < buf.length then some (buf.set k 0) else none

/-- The message that is sent: the string with its NUL, `strlen(buffer) + 1` bytes. -/
def message (str : List UInt8) : List UInt8 := str ++ [0]

def readStep (s : State) : State :=
  let r := fgetsInto s.buffer s.stdin
  match chomp r.1 with
  | none => { s with stdin := r.2, sender := .fault }
  | some buf => { s with stdin := r.2, buffer := buf, sender := .send }

/-- `mq_send` and the stop test; a message that cannot be sent is given up. -/
def sendStep (s : State) (ok : Bool) : Option State :=
  if ok then
    (mqSend s s.sendMq (message (cstr s.buffer))).map fun s' =>
      if isStop (cstr s.buffer) then
        { s' with sendStop := some (cstr s.buffer), sender := .close }
      else { s' with sender := .read }
  else some { s with sender := .read }

def senderStep (s : State) (ok : Bool) : Option State :=
  match s.sender with
  | .unlink => some { s with name := if ok then none else s.name, sender := .opening }
  | .opening =>
    if ok then some { (mqOpen s).2 with sendMq := (mqOpen s).1, sender := .read }
    else some { s with sender := .done }
  | .read => some (readStep s)
  | .send => sendStep s ok
  | .close => some { s with sender := .done }
  | .done => none
  | .fault => none

/-! ## The receiver -/

/-- `mq_receive`, and what is done with the message. The NUL that is stored behind it lies outside the
    buffer when the message fills it. -/
def receiveStep (s : State) (ok : Bool) : Option State :=
  if ok then
    (mqReceive s s.recvMq).map fun r =>
      if r.1.length < maxSize then
        if isStop (cstr r.1) then { r.2 with recvStop := some (cstr r.1), receiver := .close }
        else { r.2 with printed := r.2.printed ++ [cstr r.1] }
      else { r.2 with receiver := .fault }
  else some s

def receiverStep (s : State) (ok : Bool) : Option State :=
  match s.receiver with
  | .opening =>
    if ok then some { (mqOpen s).2 with recvMq := (mqOpen s).1, receiver := .receive }
    else some { s with receiver := .done }
  | .receive => receiveStep s ok
  | .close => some { s with receiver := if ok then .unlink else .done }
  | .unlink => some { s with name := if ok then none else s.name, receiver := .done }
  | .done => none
  | .fault => none

def step (s : State) : Act → Option State
  | .sender ok => senderStep s ok
  | .receiver ok => receiverStep s ok

end KernelMagic.Mqueue
