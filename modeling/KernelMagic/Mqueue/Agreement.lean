/-
  What the sender reads is what the receiver prints.

  The strings of the input are `pre`, then `e`, the first that stops, then anything. At every moment the
  strings up to `e` are, in this order: those the receiver has got, those in the queue, and those the
  sender still has to send (`Inv`). The equation alone tells that nothing is lost, doubled or overtaken;
  a string is the stop string for the receiver exactly when it is the last of them, so both programs
  leave their loops on `e`.

  The two programs meet at the name of the queue. `Link` says how: until the sender has opened its
  queue there is none, or the one that the receiver has just made under the name; afterwards there is
  one for both. All this needs is that the receiver does not open the queue before the sender has
  unlinked the old one (`UnlinkFirst`). That the sender has even made the new one (`CreatedFirst`)
  leaves fewer schedules, and still enough to go on: no state is stuck before both programs are done,
  unless a string is too long for the receiver's buffer.
-/
import KernelMagic.Mqueue.Sender

namespace KernelMagic.Mqueue

open KernelMagic.Lib

/-- The step is not the one in which the receiver opens the queue. -/
def KeepsClosed (s : State) : Act → Prop
  | .sender _ => True
  | .receiver _ => s.receiver ≠ .opening

instance (s : State) : (a : Act) → Decidable (KeepsClosed s a)
  | .sender _ => isTrue trivial
  | .receiver _ => inferInstanceAs (Decidable (_ ≠ _))

/-- The receiver opens the queue when the sender has unlinked the old one. -/
def UnlinkFirst (s : State) (a : Act) : Prop :=
  Works s a ∧ (KeepsClosed s a ∨ s.sender ≠ .unlink)

/-- The receiver opens the queue when the sender has opened it. -/
def CreatedFirst (s : State) (a : Act) : Prop :=
  Works s a ∧ (KeepsClosed s a ∨ s.sender ≠ .unlink ∧ s.sender ≠ .opening)

instance (s : State) (a : Act) : Decidable (UnlinkFirst s a) := inferInstanceAs (Decidable (_ ∧ _))

instance (s : State) (a : Act) : Decidable (CreatedFirst s a) := inferInstanceAs (Decidable (_ ∧ _))

/-- Where the receiver is when it has got `G`. -/
def ReceiverAt (e : List UInt8) (s : State) (G : List (List UInt8)) : Prop :=
  match s.receiver with
  | .opening => G = s.printed ∧ s.printed = []
  | .receive => G = s.printed
  | .close => G = s.printed ++ [e] ∧ s.recvStop = some e ∧ (message e).length < maxSize
  | .unlink => G = s.printed ++ [e] ∧ s.recvStop = some e ∧ (message e).length < maxSize
  | .done => G = s.printed ++ [e] ∧ s.recvStop = some e ∧ (message e).length < maxSize
  | .fault => ∃ l, G = s.printed ++ [l] ∧ ¬ (message l).length < maxSize

/-- The sender has opened its queue, with the messages `M`; so does the receiver, or has. -/
structure Shared (s : State) (M : List (List UInt8)) : Prop where
  queue : s.queues s.sendMq = M
  named : s.receiver = .opening → s.name = some s.sendMq
  same : s.receiver ≠ .opening → s.recvMq = s.sendMq

/-- The messages `M` are in the queue between the two. -/
def Link (s : State) (M : List (List UInt8)) : Prop :=
  match s.sender with
  | .unlink => s.receiver = .opening ∧ M = []
  | .opening => M = [] ∧ (s.receiver = .opening ∧ s.name = none ∨
      s.receiver = .receive ∧ s.name = some s.recvMq ∧ s.queues s.recvMq = [])
  | _ => Shared s M

structure Talk (pre : List (List UInt8)) (e : List UInt8) (after : List (List UInt8)) (s : State)
    (G Q R : List (List UInt8)) : Prop where
  link : Link s (Q.map message)
  sender : SenderAt e after s R
  receiver : ReceiverAt e s G
  shown : ∀ l ∈ s.printed, prints (message l) = true
  all : G ++ (Q ++ R) = pre ++ [e]

def Inv (pre : List (List UInt8)) (e : List UInt8) (after : List (List UInt8)) (s : State) : Prop :=
  ∃ G Q R, Talk pre e after s G Q R

/-- The calls the receiver has before it, at most, when `n` more strings can come. -/
def receiverWork : ReceiverPc → Nat → Nat
  | .opening, n => n + 4
  | .receive, n => n + 3
  | .close, _ => 2
  | .unlink, _ => 1
  | .done, _ => 0
  | .fault, _ => 0

def work (pre : List (List UInt8)) (s : State) : Nat :=
  senderWork s + receiverWork s.receiver (pre.length - s.printed.length)

variable {pre after G Q R M : List (List UInt8)} {e l : List UInt8} {s s' : State} {ok : Bool}

/-! ## The queue between the two -/

theorem link_iff (hu : s.sender ≠ .unlink) (ho : s.sender ≠ .opening) :
    Link s M ↔ Shared s M := by
  unfold Link
  split
  · next hp => exact absurd hp hu
  · next hp => exact absurd hp ho
  · exact Iff.rfl

theorem Shared.link (h : Shared s M) (hu : s.sender ≠ .unlink) (ho : s.sender ≠ .opening) :
    Link s M := (link_iff hu ho).mpr h

/-- A receiver that has got something shares the queue with the sender. -/
theorem Link.shared (h : Link s M) (hr : s.receiver ≠ .opening)
    (hq : s.receiver = .receive → s.queues s.recvMq ≠ []) :
    s.sender ≠ .unlink ∧ s.sender ≠ .opening ∧ Shared s M := by
  have hu : s.sender ≠ .unlink := by
    intro hu
    simp only [Link, hu] at h
    exact hr h.1
  have ho : s.sender ≠ .opening := by
    intro ho
    simp only [Link, ho] at h
    obtain ⟨-, ⟨hop, -⟩ | ⟨hrecv, -, hnil⟩⟩ := h
    · exact hr hop
    · exact hq hrecv hnil
  exact ⟨hu, ho, (link_iff hu ho).mp h⟩

theorem Link.sender_step (h : Link s M) (hok : Works s (.sender ok))
    (hstep : senderStep s ok = some s') : Link s' (M ++ (outgoing s).map message) := by
  unfold outgoing
  obtain ⟨hpc, rfl⟩ | ⟨hpc, rfl⟩ | ⟨hpc, rfl⟩ | ⟨hpc, -, rfl⟩ | ⟨hpc, -, rfl⟩ | ⟨hpc, rfl⟩ :=
    senderStep_cases hok hstep
  all_goals simp only [hpc, reduceCtorEq, if_true, if_false, List.map_nil, List.append_nil]
  · simp only [Link, hpc] at h
    exact ⟨h.2, .inl ⟨h.1, rfl⟩⟩
  · simp only [Link, hpc] at h
    obtain ⟨hM, ⟨hr, hname⟩ | ⟨hr, hname, hq⟩⟩ := h
    · -- the sender makes the queue
      simp only [mqOpen, hname]
      refine ⟨?_, fun _ => rfl, fun hne => absurd hr hne⟩
      rw [hM]
      exact Function.update_self _ _ _
    · -- the receiver has made it
      simp only [mqOpen, hname]
      refine ⟨?_, fun _ => rfl, fun _ => rfl⟩
      rw [hM]
      exact hq
  all_goals
    rw [link_iff (by simp [hpc]) (by simp [hpc])] at h
  · unfold readStep
    dsimp only
    split <;> exact ⟨h.queue, h.named, h.same⟩
  · exact ⟨by rw [← h.queue]; exact Function.update_self _ _ _, h.named, h.same⟩
  · exact ⟨by rw [← h.queue]; exact Function.update_self _ _ _, h.named, h.same⟩
  · exact ⟨h.queue, h.named, h.same⟩

theorem Inv.sender_step (hs : Script pre e) (h : Inv pre e after s) (hok : Works s (.sender ok))
    (hstep : senderStep s ok = some s') : Inv pre e after s' ∧ work pre s' < work pre s := by
  obtain ⟨G, Q, R, h⟩ := h
  obtain ⟨hr, -, hp, hstop⟩ := senderStep_frame hok hstep
  have hall : (G ++ Q) ++ R = pre ++ [e] := by rw [List.append_assoc, h.all]
  obtain ⟨R', rfl, hsend, hless⟩ := h.sender.step hs hall hok hstep
  refine ⟨⟨G, Q ++ outgoing s, R', ?_, hsend, ?_, ?_, ?_⟩, ?_⟩
  · rw [List.map_append]
    exact h.link.sender_step hok hstep
  · have hrecv := h.receiver
    simp only [ReceiverAt] at hrecv ⊢
    rw [hr, hp, hstop]
    exact hrecv
  · rw [hp]
    exact h.shown
  · rw [List.append_assoc, h.all]
  · unfold work
    rw [hr, hp]
    omega

/-! ## The receiver -/

theorem Script.not_prints (hs : Script pre e) : prints (message e) = false := by
  have hnul := hs.noNul e (by simp)
  simp [prints, cstr_message hnul, hs.stop]

/-- Strings that are printed are strings before `e`. -/
theorem Script.length_le (hs : Script pre e) {T : List (List UInt8)}
    (h : G ++ T = pre ++ [e]) (hG : ∀ l ∈ G, prints (message l) = true) :
    G.length ≤ pre.length := by
  by_contra hlt
  have hlen := congrArg List.length h
  simp only [List.length_append, List.length_singleton] at hlen
  have hT : T = [] := List.length_eq_zero_iff.mp (by omega)
  rw [hT, List.append_nil] at h
  have := hG e (by rw [h]; simp)
  rw [hs.not_prints] at this
  cases this

theorem Talk.joined (h : Talk pre e after s G Q R) (hpc : s.receiver = .opening)
    (hu : s.sender ≠ .unlink) :
    Talk pre e after { (mqOpen s).2 with recvMq := (mqOpen s).1, receiver := .receive } G Q R := by
  have hlink := h.link
  have hrecv := h.receiver
  simp only [ReceiverAt, hpc] at hrecv
  by_cases hop : s.sender = .opening
  · -- the receiver makes the queue that the sender is going to open
    simp only [Link, hop, hpc] at hlink
    obtain ⟨hM, ⟨-, hname⟩ | ⟨hr, -⟩⟩ := hlink
    · simp only [mqOpen, hname]
      refine ⟨?_, h.sender, hrecv.1, h.shown, h.all⟩
      simp only [Link, hop, Function.update_self]
      exact ⟨hM, .inr ⟨trivial, trivial, trivial⟩⟩
    · cases hr
  · rw [link_iff hu hop] at hlink
    have hname := hlink.named hpc
    simp only [mqOpen, hname]
    refine ⟨Shared.link ⟨hlink.queue, ?_, fun _ => rfl⟩ hu hop, h.sender, hrecv.1, h.shown, h.all⟩
    intro hr
    cases hr

theorem Talk.received (hs : Script pre e) (h : Talk pre e after s G Q R)
    (hpc : s.receiver = .receive) (hstep : receiveStep s true = some s') :
    Inv pre e after s' ∧ work pre s' < work pre s := by
  have hrecv := h.receiver
  simp only [ReceiverAt, hpc] at hrecv
  obtain ⟨m, ms, hq, hcases⟩ := receiveStep_cases hstep
  obtain ⟨hu, ho, hsh⟩ := h.link.shared (by simp [hpc]) (by simp [hq])
  have hsame := hsh.same (by simp [hpc])
  rw [hsame, hsh.queue] at hq
  obtain ⟨l, Q', rfl, rfl, rfl⟩ := List.map_eq_cons_iff.mp hq
  have hnul : (0 : UInt8) ∉ l := hs.noNul l (by rw [← h.all]; simp)
  have hall : (G ++ [l]) ++ (Q' ++ R) = pre ++ [e] := by
    rw [← h.all]
    simp
  have hqueue : Function.update s.queues s.recvMq (Q'.map message) s.sendMq = Q'.map message := by
    rw [hsame]
    exact Function.update_self _ _ _
  rw [cstr_message hnul] at hcases
  obtain ⟨hpr, rfl⟩ | ⟨-, hstop, hlen, rfl⟩ | ⟨-, hlong, rfl⟩ := hcases
  · have hshown : ∀ l' ∈ s.printed ++ [l], prints (message l') = true := by
      intro l' hl'
      rcases List.mem_append.mp hl' with hl' | hl'
      · exact h.shown l' hl'
      · rw [List.mem_singleton.mp hl']
        exact hpr
    -- so there is room for one more
    have hroom := hs.length_le hall (hrecv ▸ hshown)
    rw [hrecv, List.length_append, List.length_singleton] at hroom
    refine ⟨⟨G ++ [l], Q', R, Shared.link ⟨hqueue, ?_, fun _ => hsame⟩ hu ho, h.sender, ?_, hshown,
      hall⟩, ?_⟩
    · intro hr
      cases hpc.symm.trans hr
    · simp only [ReceiverAt, taken, hpc]
      rw [hrecv]
    · simp only [work, receiverWork, hpc, taken, senderWork, List.length_append,
        List.length_singleton]
      omega
  · have hsplit : G ++ l :: (Q' ++ R) = pre ++ [e] := by
      rw [← h.all]
      simp
    obtain ⟨-, hle, -⟩ := hs.at_stop hsplit hstop
    refine ⟨⟨G ++ [l], Q', R, Shared.link ⟨hqueue, ?_, fun _ => hsame⟩ hu ho, h.sender, ?_, h.shown,
      hall⟩, ?_⟩
    · intro hr
      cases hr
    · simp only [ReceiverAt]
      exact ⟨by rw [hrecv, hle]; rfl, by rw [hle], hle ▸ hlen⟩
    · simp only [work, receiverWork, hpc, taken, senderWork]
      omega
  · refine ⟨⟨G ++ [l], Q', R, Shared.link ⟨hqueue, ?_, fun _ => hsame⟩ hu ho, h.sender, ?_, h.shown,
      hall⟩, ?_⟩
    · intro hr
      cases hr
    · simp only [ReceiverAt]
      exact ⟨l, by rw [hrecv]; rfl, hlong⟩
    · simp only [work, receiverWork, hpc, taken, senderWork]
      omega

/-- The receiver leaves only after a message, so the sender has opened the queue by then. -/
theorem Talk.left (h : Talk pre e after s G Q R) (hpc : s.receiver = .close ∨ s.receiver = .unlink)
    (n : Option Nat) {r : ReceiverPc} (hr : r = .unlink ∨ r = .done) :
    Talk pre e after { s with name := n, receiver := r } G Q R := by
  have hrecv := h.receiver
  have hne : s.receiver ≠ .opening ∧ s.receiver ≠ .receive := by
    rcases hpc with hpc | hpc <;> simp [hpc]
  obtain ⟨hu, ho, hsh⟩ := h.link.shared hne.1 fun hr => absurd hr hne.2
  have hgot : G = s.printed ++ [e] ∧ s.recvStop = some e ∧ (message e).length < maxSize := by
    rcases hpc with hpc | hpc <;> simpa only [ReceiverAt, hpc] using hrecv
  refine ⟨Shared.link ⟨hsh.queue, ?_, fun _ => hsh.same hne.1⟩ hu ho, h.sender, ?_, h.shown, h.all⟩
  · rcases hr with rfl | rfl <;> simp
  · rcases hr with rfl | rfl <;> exact hgot

theorem Inv.receiver_step (hs : Script pre e) (h : Inv pre e after s) (hok : Works s (.receiver ok))
    (hopen : s.receiver = .opening → s.sender ≠ .unlink) (hstep : receiverStep s ok = some s') :
    Inv pre e after s' ∧ work pre s' < work pre s := by
  obtain ⟨G, Q, R, h⟩ := h
  obtain ⟨hpc, rfl⟩ | ⟨hpc, hrecv⟩ | ⟨hpc, rfl | rfl⟩ | ⟨hpc, n, -, rfl⟩ :=
    receiverStep_cases hok hstep
  · refine ⟨⟨G, Q, R, h.joined hpc (hopen hpc)⟩, ?_⟩
    obtain ⟨n, qs, f, hopened⟩ := mqOpen_snd s
    simp only [work, receiverWork, senderWork, hpc, hopened]
    omega
  · exact h.received hs hpc hrecv
  · exact ⟨⟨G, Q, R, h.left (.inl hpc) s.name (.inl rfl)⟩,
      by simp [work, receiverWork, hpc, senderWork]⟩
  · exact ⟨⟨G, Q, R, h.left (.inl hpc) s.name (.inr rfl)⟩,
      by simp [work, receiverWork, hpc, senderWork]⟩
  · exact ⟨⟨G, Q, R, h.left (.inr hpc) n (.inr rfl)⟩,
      by simp [work, receiverWork, hpc, senderWork]⟩

/-! ## Whole runs -/

theorem inv_step (hs : Script pre e) {a : Act} (h : Inv pre e after s) (hP : UnlinkFirst s a)
    (hstep : step s a = some s') : Inv pre e after s' ∧ work pre s' < work pre s := by
  match a with
  | .sender ok => exact h.sender_step hs hP.1 hstep
  | .receiver ok =>
    refine h.receiver_step hs hP.1 (fun hpc => ?_) hstep
    rcases hP.2 with hclosed | hu
    · exact absurd hpc hclosed
    · exact hu

theorem inv_init {stdin : List UInt8} (htyped : typed stdin = pre ++ [e] ++ after)
    (old : Option (List (List UInt8))) (junk : List UInt8) :
    Inv pre e after (init old junk stdin) :=
  ⟨[], [], pre ++ [e], ⟨rfl, rfl⟩, ⟨by simp, htyped⟩, ⟨rfl, rfl⟩, by simp [init], rfl⟩

/-- While the receiver is in its loop, something is still to come. -/
theorem Talk.pending (hs : Script pre e) (h : Talk pre e after s G Q R) (hG : G = s.printed) :
    Q ++ R ≠ [] := by
  intro hnil
  have hall := h.all
  rw [hnil, List.append_nil, hG] at hall
  have := h.shown e (by rw [hall]; simp)
  rw [hs.not_prints] at this
  cases this

/-- When it has left its loop, nothing is. -/
theorem Talk.drained (hs : Script pre e) (h : Talk pre e after s G Q R)
    (hG : G = s.printed ++ [e]) : s.printed = pre ∧ Q = [] ∧ R = [] := by
  have hall := h.all
  rw [hG, List.append_assoc, List.singleton_append] at hall
  obtain ⟨hp, -, hnil⟩ := hs.at_stop hall hs.stop
  exact ⟨hp, List.append_eq_nil_iff.mp hnil⟩

/-- Both programs are done, and agree. -/
def Agreed (pre : List (List UInt8)) (e : List UInt8) (t : State) : Prop :=
  t.sender = .done ∧ t.receiver = .done ∧ t.printed = pre ∧ t.sendStop = some e ∧ t.recvStop = some e

theorem Talk.agreed (hs : Script pre e) (h : Talk pre e after s G Q R) (hsend : s.sender = .done)
    (hrecv : s.receiver = .done) : Agreed pre e s := by
  have hat := h.sender
  have hgot := h.receiver
  simp only [SenderAt, hsend] at hat
  simp only [ReceiverAt, hrecv] at hgot
  exact ⟨hsend, hrecv, (h.drained hs hgot.1).1, hat.2, hgot.2.1⟩

/-- A receiver that cannot go on waits for the sender. -/
theorem Talk.receiver_goes (hs : Script pre e) (h : Talk pre e after s G Q R)
    (hu : s.sender ≠ .unlink) (ho : s.sender ≠ .opening) (hd : s.receiver ≠ .done)
    (hf : s.receiver ≠ .fault) (hQ : Q = [] → R = []) : (receiverStep s true).isSome = true := by
  refine receiverStep_isSome (fun hpc => ?_) hd hf
  have hrecv := h.receiver
  simp only [ReceiverAt, hpc] at hrecv
  have hsh := (link_iff hu ho).mp h.link
  rw [hsh.same (by simp [hpc]), hsh.queue, Ne, List.map_eq_nil_iff]
  rintro rfl
  exact h.pending hs hrecv (hQ rfl)

theorem goes_of_isSome (h : (senderStep s true).isSome = true ∨
    (s.sender ≠ .unlink ∧ s.sender ≠ .opening) ∧ (receiverStep s true).isSome = true) :
    ∃ a s', CreatedFirst s a ∧ step s a = some s' := by
  obtain hgo | ⟨hopen, hgo⟩ := h
  · obtain ⟨s', hs'⟩ := Option.isSome_iff_exists.mp hgo
    exact ⟨.sender true, s', ⟨works_sender s, .inl trivial⟩, hs'⟩
  · obtain ⟨s', hs'⟩ := Option.isSome_iff_exists.mp hgo
    exact ⟨.receiver true, s', ⟨works_receiver s, .inr hopen⟩, hs'⟩

theorem Inv.goes (hs : Script pre e) (h : Inv pre e after s) (hf : s.receiver ≠ .fault) :
    Agreed pre e s ∨ ∃ a s', CreatedFirst s a ∧ step s a = some s' := by
  obtain ⟨G, Q, R, h⟩ := h
  have hsend := h.sender
  by_cases hwait : s.sender = .done ∨ (s.sender = .send ∧ ¬ (s.queues s.sendMq).length < maxMsg)
  · have hu : s.sender ≠ .unlink := by rcases hwait with hpc | ⟨hpc, -⟩ <;> simp [hpc]
    have ho : s.sender ≠ .opening := by rcases hwait with hpc | ⟨hpc, -⟩ <;> simp [hpc]
    have hQ : Q = [] → R = [] := by
      rintro rfl
      rcases hwait with hpc | ⟨hpc, hfull⟩
      · simp only [SenderAt, hpc] at hsend
        exact hsend.1
      · -- the queue is full
        rw [((link_iff hu ho).mp h.link).queue] at hfull
        simp [maxMsg] at hfull
    by_cases hd : s.receiver = .done
    · rcases hwait with hpc | ⟨hpc, -⟩
      · exact .inl (h.agreed hs hpc hd)
      · have hrecv := h.receiver
        simp only [ReceiverAt, hd] at hrecv
        simp only [SenderAt, hpc] at hsend
        obtain ⟨R', rfl, -⟩ := hsend
        exact absurd (h.drained hs hrecv.1).2.2 (List.cons_ne_nil _ _)
    · exact .inr (goes_of_isSome (.inr ⟨⟨hu, ho⟩, h.receiver_goes hs hu ho hd hf hQ⟩))
  · rw [not_or, not_and, not_not] at hwait
    refine .inr (goes_of_isSome (.inl (senderStep_isSome hwait.2 hwait.1 ?_)))
    intro hpc
    simp [SenderAt, hpc] at hsend

theorem CreatedFirst.unlinkFirst {a : Act} (h : CreatedFirst s a) : UnlinkFirst s a :=
  ⟨h.1, h.2.imp_right And.left⟩

theorem Line.fits (hl : Line l) : (message l).length < maxSize := by
  have := hl.length
  simp only [message, List.length_append, List.length_singleton, maxSize]
  omega

theorem Inv.no_fault (h : Inv pre e after s) (hline : ∀ l ∈ pre ++ [e], Line l) :
    s.receiver ≠ .fault := by
  intro hpc
  obtain ⟨G, Q, R, h⟩ := h
  have hrecv := h.receiver
  simp only [ReceiverAt, hpc] at hrecv
  obtain ⟨l, rfl, hlong⟩ := hrecv
  exact hlong (hline l (by rw [← h.all]; simp)).fits

/-- If the sender has made the queue before the receiver opens it, both programs come to their end,
    the receiver has printed the lines before the first that stops, and this is the line on which both
    have left their loops. -/
theorem lines_received (old : Option (List (List UInt8))) (junk : List UInt8)
    (lines : List (List UInt8)) (hline : ∀ l ∈ lines, Line l)
    (hstop : ∃ l ∈ lines, isStop l = true) :
    Finishes step CreatedFirst (init old junk (unlines lines)) fun t =>
      t.sender = .done ∧ t.receiver = .done ∧
        t.printed = lines.takeWhile (fun l => !isStop l) ∧
        t.sendStop = lines.find? isStop ∧ t.recvStop = lines.find? isStop := by
  have htyped := typed_unlines hline
  obtain ⟨pre, e, after, hsplit, hs, htake, hfind⟩ := exists_script (htyped.symm ▸ hstop)
  rw [htyped] at htake hfind
  have hline' : ∀ l ∈ pre ++ [e], Line l := by
    intro l hl
    refine hline l ?_
    rw [← htyped, hsplit]
    exact List.mem_append_left _ hl
  rw [htake, hfind]
  refine finishes_of_measure (work pre) ?_ ?_ (inv_init hsplit old junk)
  · exact fun s a s' h hP hstep => inv_step hs h hP.unlinkFirst hstep
  · exact fun s h => h.goes hs (h.no_fault hline')

def twoLines : List (List UInt8) := [ascii "a", ascii "exit"]

/-- The receiver opens the queue that the sender has made, and both go on in turn. -/
def inTurn : List Act :=
  [.sender true, .sender true, .receiver true, .sender true, .sender true, .receiver true,
    .sender true, .sender true, .sender true, .receiver true, .receiver true, .receiver true]

theorem lines_received_twoLines :
    ∃ t, run step (init none [] (unlines twoLines)) inTurn = some t ∧ t.printed = [ascii "a"] ∧
      t.sendStop = some (ascii "exit") ∧ t.recvStop = some (ascii "exit") := by
  have hdone : (run step (init none [] (unlines twoLines)) inTurn).map
      (fun t => (t.sender, t.receiver)) = some (.done, .done) := by decide +kernel
  obtain ⟨t, hr, hpcs⟩ := Option.map_eq_some_iff.mp hdone
  obtain ⟨hsend, hrecv⟩ := Prod.mk.inj hpcs
  have hfin := lines_received none [] twoLines (by decide) (by decide)
  rcases hfin.ends inTurn t (by decide +kernel) hr with ⟨-, -, h⟩ | ⟨a, t', -, hstep⟩
  · exact ⟨t, hr, h⟩
  · match a with
    | .sender _ => simp [step, senderStep, hsend] at hstep
    | .receiver _ => simp [step, receiverStep, hrecv] at hstep

end KernelMagic.Mqueue
