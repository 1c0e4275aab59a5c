/-
  What one call of either program can do.

  The calls that the two programs cannot do without are `mq_open`, `mq_send` and `mq_receive`; `Works`
  says that they succeed. The results of the others decide only whether the receiver unlinks the name
  at its end.

  A message is printed if it is no stop message and leaves room for the NUL in the receiver's buffer
  (`prints`); `heard` are the strings that a receiver prints that finds the messages in its queue, up to
  its stop or to where it leaves the buffer (`overruns`).
-/
import KernelMagic.Mqueue.Main

namespace KernelMagic.Mqueue

open KernelMagic.Lib

/-- `mq_open`, `mq_send` and `mq_receive` succeed, and so does the sender's `mq_unlink` if there is
    something to unlink. -/
def Works (s : State) : Act → Prop
  | .sender ok => (s.sender = .unlink → s.name = none ∨ ok = true) ∧
      (s.sender = .opening ∨ s.sender = .send → ok = true)
  | .receiver ok => s.receiver = .opening ∨ s.receiver = .receive → ok = true

instance (s : State) : (a : Act) → Decidable (Works s a)
  | .sender _ => inferInstanceAs (Decidable (_ ∧ _))
  | .receiver _ => inferInstanceAs (Decidable (_ → _))

theorem works_sender (s : State) : Works s (.sender true) := ⟨fun _ => .inr rfl, fun _ => rfl⟩

theorem works_receiver (s : State) : Works s (.receiver true) := fun _ => rfl

variable {s s' : State} {ok : Bool} {m l : List UInt8} {ms ls : List (List UInt8)}

theorem mqOpen_snd (s : State) :
    ∃ n qs f, (mqOpen s).2 = { s with name := n, queues := qs, fresh := f } := by
  unfold mqOpen
  split
  · exact ⟨s.name, s.queues, s.fresh, rfl⟩
  · exact ⟨_, _, _, rfl⟩

/-! ## The sender -/

/-- What the sender is about to send. -/
def outgoing (s : State) : List (List UInt8) := if s.sender = .send then [cstr s.buffer] else []

/-- The message of the buffer is in the queue. -/
def posted (s : State) : State :=
  { s with
    queues := Function.update s.queues s.sendMq
      (s.queues s.sendMq ++ [message (cstr s.buffer)]) }

theorem mqSend_eq {q : Nat} (h : mqSend s q m = some s') :
    s' = { s with queues := Function.update s.queues q (s.queues q ++ [m]) } := by
  unfold mqSend at h
  split at h
  · exact (Option.some.inj h).symm
  · cases h

theorem senderStep_cases (hok : Works s (.sender ok)) (hstep : senderStep s ok = some s') :
    (s.sender = .unlink ∧ s' = { s with name := none, sender := .opening }) ∨
    (s.sender = .opening ∧ s' = { (mqOpen s).2 with sendMq := (mqOpen s).1, sender := .read }) ∨
    (s.sender = .read ∧ s' = readStep s) ∨
    (s.sender = .send ∧ isStop (cstr s.buffer) = true ∧
      s' = { posted s with sendStop := some (cstr s.buffer), sender := .close }) ∨
    (s.sender = .send ∧ isStop (cstr s.buffer) = false ∧ s' = { posted s with sender := .read }) ∨
    (s.sender = .close ∧ s' = { s with sender := .done }) := by
  cases hpc : s.sender with
  | unlink =>
    have hname : (if ok = true then none else s.name) = none := by
      rcases hok.1 hpc with hn | hn <;> simp [hn]
    simp only [senderStep, hpc, hname, Option.some.injEq] at hstep
    exact .inl ⟨rfl, hstep.symm⟩
  | opening =>
    simp only [senderStep, hpc, hok.2 (.inl hpc), if_true, Option.some.injEq] at hstep
    exact .inr (.inl ⟨rfl, hstep.symm⟩)
  | read =>
    simp only [senderStep, hpc, Option.some.injEq] at hstep
    exact .inr (.inr (.inl ⟨rfl, hstep.symm⟩))
  | send =>
    have hsend : sendStep s true = some s' := by
      simpa only [senderStep, hpc, hok.2 (.inr hpc)] using hstep
    rw [sendStep, if_pos rfl] at hsend
    obtain ⟨s₁, hm, rfl⟩ := Option.map_eq_some_iff.mp hsend
    obtain rfl := mqSend_eq hm
    by_cases hstop : isStop (cstr s.buffer) = true
    · rw [if_pos hstop]
      exact .inr (.inr (.inr (.inl ⟨rfl, hstop, rfl⟩)))
    · rw [if_neg hstop]
      exact .inr (.inr (.inr (.inr (.inl ⟨rfl, by simpa using hstop, rfl⟩))))
  | close =>
    simp only [senderStep, hpc, Option.some.injEq] at hstep
    exact .inr (.inr (.inr (.inr (.inr ⟨rfl, hstep.symm⟩))))
  | done => simp [senderStep, hpc] at hstep
  | fault => simp [senderStep, hpc] at hstep

/-- The part of the state that the sender does not touch. -/
theorem senderStep_frame (hok : Works s (.sender ok)) (hstep : senderStep s ok = some s') :
    s'.receiver = s.receiver ∧ s'.recvMq = s.recvMq ∧ s'.printed = s.printed ∧
      s'.recvStop = s.recvStop := by
  obtain ⟨-, rfl⟩ | ⟨-, rfl⟩ | ⟨-, rfl⟩ | ⟨-, -, rfl⟩ | ⟨-, -, rfl⟩ | ⟨-, rfl⟩ :=
    senderStep_cases hok hstep
  · exact ⟨rfl, rfl, rfl, rfl⟩
  · obtain ⟨n, qs, f, hopened⟩ := mqOpen_snd s
    simp only [hopened, and_self]
  · unfold readStep
    dsimp only
    split <;> exact ⟨rfl, rfl, rfl, rfl⟩
  · exact ⟨rfl, rfl, rfl, rfl⟩
  · exact ⟨rfl, rfl, rfl, rfl⟩
  · exact ⟨rfl, rfl, rfl, rfl⟩

/-- The sender waits only for room in the queue. -/
theorem senderStep_isSome (hroom : s.sender = .send → (s.queues s.sendMq).length < maxMsg)
    (hd : s.sender ≠ .done) (hf : s.sender ≠ .fault) : (senderStep s true).isSome = true := by
  cases hpc : s.sender with
  | unlink => simp [senderStep, hpc]
  | opening => simp [senderStep, hpc]
  | read => simp [senderStep, hpc]
  | send => simp [senderStep, hpc, sendStep, mqSend, hroom hpc]
  | close => simp [senderStep, hpc]
  | done => exact absurd hpc hd
  | fault => exact absurd hpc hf

/-! ## The receiver -/

/-- The receiver prints the message. -/
def prints (m : List UInt8) : Bool := decide (m.length < maxSize) && !isStop (cstr m)

/-- What the receiver prints of these messages while it stays in its buffer. -/
def heard (ms : List (List UInt8)) : List (List UInt8) := (ms.takeWhile prints).map cstr

/-- One of these messages takes the receiver out of its buffer: the first that it does not print. -/
def overruns (ms : List (List UInt8)) : Bool :=
  (ms.find? fun m => !prints m).any fun m => !decide (m.length < maxSize)

theorem heard_nil : heard [] = [] := rfl

theorem heard_printed (h : prints m = true) : heard (m :: ms) = cstr m :: heard ms := by
  simp [heard, h]

theorem heard_last (h : prints m = false) : heard (m :: ms) = [] := by
  simp [heard, h]

theorem overruns_nil : overruns [] = false := rfl

theorem overruns_printed (h : prints m = true) : overruns (m :: ms) = overruns ms := by
  simp [overruns, h]

theorem overruns_last (h : prints m = false) :
    overruns (m :: ms) = !decide (m.length < maxSize) := by
  simp [overruns, h]

theorem cstr_message (hl : (0 : UInt8) ∉ l) : cstr (message l) = l :=
  cstr_append_zero fun _ hb h => hl (h ▸ hb)

theorem heard_messages (hnul : ∀ l ∈ ls, (0 : UInt8) ∉ l)
    (hls : ∀ l ∈ ls, prints (message l) = true) (h : prints m = false) :
    heard (ls.map message ++ m :: ms) = ls ∧
      overruns (ls.map message ++ m :: ms) = !decide (m.length < maxSize) := by
  induction ls with
  | nil => exact ⟨heard_last h, overruns_last h⟩
  | cons l ls ih =>
    rw [List.forall_mem_cons] at hnul hls
    have hrest := ih hnul.2 hls.2
    rw [List.map_cons, List.cons_append, heard_printed hls.1, overruns_printed hls.1,
      cstr_message hnul.1, hrest.1]
    exact ⟨rfl, hrest.2⟩

/-- The first message is out of the queue. -/
def taken (s : State) (ms : List (List UInt8)) : State :=
  { s with queues := Function.update s.queues s.recvMq ms }

theorem receiveStep_cases (hstep : receiveStep s true = some s') :
    ∃ m ms, s.queues s.recvMq = m :: ms ∧
      ((prints m = true ∧ s' = { taken s ms with printed := s.printed ++ [cstr m] }) ∨
        (prints m = false ∧ isStop (cstr m) = true ∧ m.length < maxSize ∧
          s' = { taken s ms with recvStop := some (cstr m), receiver := .close }) ∨
        (prints m = false ∧ ¬ m.length < maxSize ∧ s' = { taken s ms with receiver := .fault })) := by
  rw [receiveStep, if_pos rfl] at hstep
  obtain ⟨⟨m, s₁⟩, hm, rfl⟩ := Option.map_eq_some_iff.mp hstep
  unfold mqReceive at hm
  match hq : s.queues s.recvMq with
  | [] =>
    rw [hq] at hm
    cases hm
  | m₁ :: ms =>
    rw [hq] at hm
    obtain ⟨rfl, rfl⟩ := Prod.mk.inj (Option.some.inj hm)
    refine ⟨m₁, ms, rfl, ?_⟩
    by_cases hlen : m₁.length < maxSize
    · by_cases hstop : isStop (cstr m₁) = true
      · exact .inr (.inl ⟨by simp [prints, hstop], hstop, hlen, by simp only [hlen, hstop, if_true]; rfl⟩)
      · refine .inl ⟨by simp [prints, hlen, hstop], ?_⟩
        simp only [hlen, hstop, if_true]
        rfl
    · exact .inr (.inr ⟨by simp [prints, hlen], hlen, by simp only [hlen, if_false]; rfl⟩)

theorem receiverStep_cases (hok : Works s (.receiver ok)) (hstep : receiverStep s ok = some s') :
    (s.receiver = .opening ∧
      s' = { (mqOpen s).2 with recvMq := (mqOpen s).1, receiver := .receive }) ∨
    (s.receiver = .receive ∧ receiveStep s true = some s') ∨
    (s.receiver = .close ∧ (s' = { s with receiver := .unlink } ∨ s' = { s with receiver := .done })) ∨
    (s.receiver = .unlink ∧ ∃ n, (n = none ∨ n = s.name) ∧
      s' = { s with name := n, receiver := .done }) := by
  cases hpc : s.receiver with
  | opening =>
    simp only [receiverStep, hpc, hok (.inl hpc), if_true, Option.some.injEq] at hstep
    exact .inl ⟨rfl, hstep.symm⟩
  | receive =>
    simp only [receiverStep, hpc, hok (.inr hpc)] at hstep
    exact .inr (.inl ⟨rfl, hstep⟩)
  | close =>
    simp only [receiverStep, hpc, Option.some.injEq] at hstep
    refine .inr (.inr (.inl ⟨rfl, ?_⟩))
    match ok with
    | true => exact .inl hstep.symm
    | false => exact .inr hstep.symm
  | unlink =>
    simp only [receiverStep, hpc, Option.some.injEq] at hstep
    refine .inr (.inr (.inr ⟨rfl, _, ?_, hstep.symm⟩))
    match ok with
    | true => exact .inl rfl
    | false => exact .inr rfl
  | done => simp [receiverStep, hpc] at hstep
  | fault => simp [receiverStep, hpc] at hstep

/-- The part of the state that the receiver does not touch. -/
theorem receiverStep_frame (hok : Works s (.receiver ok)) (hstep : receiverStep s ok = some s') :
    s'.sender = s.sender ∧ s'.stdin = s.stdin ∧ s'.buffer = s.buffer ∧ s'.sendStop = s.sendStop := by
  obtain ⟨-, rfl⟩ | ⟨-, hrecv⟩ | ⟨-, rfl | rfl⟩ | ⟨-, n, -, rfl⟩ := receiverStep_cases hok hstep
  · obtain ⟨n, qs, f, hopened⟩ := mqOpen_snd s
    simp only [hopened, and_self]
  · obtain ⟨m, ms, -, ⟨-, rfl⟩ | ⟨-, -, -, rfl⟩ | ⟨-, -, rfl⟩⟩ := receiveStep_cases hrecv
    · exact ⟨rfl, rfl, rfl, rfl⟩
    · exact ⟨rfl, rfl, rfl, rfl⟩
    · exact ⟨rfl, rfl, rfl, rfl⟩
  · exact ⟨rfl, rfl, rfl, rfl⟩
  · exact ⟨rfl, rfl, rfl, rfl⟩
  · exact ⟨rfl, rfl, rfl, rfl⟩

/-- The receiver waits only for a message. -/
theorem receiverStep_isSome (hq : s.receiver = .receive → s.queues s.recvMq ≠ [])
    (hd : s.receiver ≠ .done) (hf : s.receiver ≠ .fault) : (receiverStep s true).isSome = true := by
  cases hpc : s.receiver with
  | opening => simp [receiverStep, hpc]
  | receive =>
    obtain ⟨m, ms, hcons⟩ := List.exists_cons_of_ne_nil (hq hpc)
    simp [receiverStep, hpc, receiveStep, mqReceive, hcons]
  | close => simp [receiverStep, hpc]
  | unlink => simp [receiverStep, hpc]
  | done => exact absurd hpc hd
  | fault => exact absurd hpc hf

end KernelMagic.Mqueue
