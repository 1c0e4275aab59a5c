/-
  What the sender passes to `mq_send`, whether or not the calls succeed. A message that cannot be sent is
  given up and the next one read, so nothing here depends on the receiver or on the room in the queue;
  only the call for the stop message has to succeed (`StopSent`), for otherwise the loop goes on behind
  it.

  The loop has no test for the end of the input. `fgets` then leaves the buffer as it is, and the last
  string is sent again, and again (`Endless`).
-/
import KernelMagic.Lib.History
import KernelMagic.Mqueue.Input

namespace KernelMagic.Mqueue

open KernelMagic.Lib

/-- The call of `mq_send` for a stop message succeeds. -/
def StopSent (s : State) : Act → Prop
  | .sender ok => s.sender = .send → isStop (cstr s.buffer) = true → ok = true
  | .receiver _ => True

instance (s : State) : (a : Act) → Decidable (StopSent s a)
  | .sender _ => inferInstanceAs (Decidable (_ → _ → _))
  | .receiver _ => isTrue trivial

/-- The string that a call passes to `mq_send`. -/
def passing (s : State) : Act → List (List UInt8)
  | .sender _ => outgoing s
  | .receiver _ => []

/-- The strings passed to `mq_send` on a schedule. -/
def passed (s : State) (acts : List Act) : List (List UInt8) :=
  record step (fun g s a => g ++ passing s a) [] s acts

variable {pre after D R T : List (List UInt8)} {e l b rest : List UInt8} {s s' : State} {ok : Bool}

/-! ## Calls that fail -/

/-- A call of the sender works, or it is one that may fail and has. -/
theorem senderStep_fails (hstep : senderStep s ok = some s') :
    Works s (.sender ok) ∨ ok = false ∧
      ((s.sender = .unlink ∧ s' = { s with sender := .opening }) ∨
        (s.sender = .opening ∧ s' = { s with sender := .done }) ∨
        (s.sender = .send ∧ s' = { s with sender := .read })) := by
  cases ok with
  | true => exact .inl (works_sender s)
  | false =>
    cases hpc : s.sender with
    | unlink =>
      simp only [senderStep, hpc] at hstep
      exact .inr ⟨rfl, .inl ⟨rfl, (Option.some.inj hstep).symm⟩⟩
    | opening =>
      simp only [senderStep, hpc] at hstep
      exact .inr ⟨rfl, .inr (.inl ⟨rfl, (Option.some.inj hstep).symm⟩)⟩
    | send =>
      simp only [senderStep, hpc, sendStep] at hstep
      exact .inr ⟨rfl, .inr (.inr ⟨rfl, (Option.some.inj hstep).symm⟩)⟩
    | read => exact .inl ⟨by simp [hpc], by simp [hpc]⟩
    | close => exact .inl ⟨by simp [hpc], by simp [hpc]⟩
    | done => exact .inl ⟨by simp [hpc], by simp [hpc]⟩
    | fault => exact .inl ⟨by simp [hpc], by simp [hpc]⟩

/-- The receiver tries again or gives up. -/
theorem receiverStep_false (hstep : receiverStep s false = some s') :
    s' = s ∨ ∃ pc, pc ≠ .fault ∧ s' = { s with receiver := pc } := by
  cases hpc : s.receiver with
  | opening =>
    simp only [receiverStep, hpc, Bool.false_eq_true, if_false, Option.some.injEq] at hstep
    exact .inr ⟨.done, by decide, hstep.symm⟩
  | receive =>
    simp only [receiverStep, hpc, receiveStep, Bool.false_eq_true, if_false, Option.some.injEq] at hstep
    exact .inl hstep.symm
  | close =>
    simp only [receiverStep, hpc, Bool.false_eq_true, if_false, Option.some.injEq] at hstep
    exact .inr ⟨.done, by decide, hstep.symm⟩
  | unlink =>
    simp only [receiverStep, hpc, Bool.false_eq_true, if_false, Option.some.injEq] at hstep
    exact .inr ⟨.done, by decide, hstep.symm⟩
  | done =>
    simp only [receiverStep, hpc] at hstep
    cases hstep
  | fault =>
    simp only [receiverStep, hpc] at hstep
    cases hstep

/-- A call of the sender goes on with what it has to send, or gives up before the loop. -/
theorem SenderAt.call (hs : Script pre e) (h : SenderAt e after s R) (hall : D ++ R = pre ++ [e])
    (hok : StopSent s (.sender ok)) (hstep : senderStep s ok = some s') :
    (∃ R', R = outgoing s ++ R' ∧ SenderAt e after s' R') ∨
      (s.sender = .opening ∧ s' = { s with sender := .done }) := by
  obtain hw | ⟨rfl, ⟨hpc, rfl⟩ | ⟨hpc, rfl⟩ | ⟨hpc, rfl⟩⟩ := senderStep_fails hstep
  · obtain ⟨R', hR, hat, -⟩ := h.step hs hall hw hstep
    exact .inl ⟨R', hR, hat⟩
  · simp only [SenderAt, hpc] at h
    exact .inl ⟨R, by simp [outgoing, hpc], h⟩
  · exact .inr ⟨hpc, rfl⟩
  · simp only [SenderAt, hpc] at h
    obtain ⟨R', rfl, hin⟩ := h
    have hplain : isStop (cstr s.buffer) = false := by
      by_contra hn
      cases hok hpc (by simpa using hn)
    exact .inl ⟨R', by simp [outgoing, hpc], hs.before_stop hall hplain, hin⟩

/-- The loop is left by way of `mq_close`. -/
theorem leaves_by_close (hstep : senderStep s ok = some s') :
    s'.sendStop = s.sendStop ∧ (s.sender = .close → s'.sender = .done) ∨ s'.sender = .close := by
  obtain hw | ⟨rfl, ⟨hpc, rfl⟩ | ⟨hpc, rfl⟩ | ⟨hpc, rfl⟩⟩ := senderStep_fails hstep
  · obtain ⟨hpc, rfl⟩ | ⟨hpc, rfl⟩ | ⟨hpc, rfl⟩ | ⟨hpc, -, rfl⟩ | ⟨hpc, -, rfl⟩ | ⟨-, rfl⟩ :=
      senderStep_cases hw hstep
    · exact .inl ⟨rfl, by simp [hpc]⟩
    · obtain ⟨n, qs, f, hopened⟩ := mqOpen_snd s
      exact .inl ⟨by rw [hopened], by simp [hpc]⟩
    · refine .inl ⟨?_, by simp [hpc]⟩
      unfold readStep
      dsimp only
      split <;> rfl
    · exact .inr rfl
    · exact .inl ⟨rfl, by simp [hpc]⟩
    · exact .inl ⟨rfl, fun _ => rfl⟩
  · exact .inl ⟨rfl, by simp [hpc]⟩
  · exact .inl ⟨rfl, by simp [hpc]⟩
  · exact .inl ⟨rfl, by simp [hpc]⟩

/-- No call of the receiver touches the sender. -/
theorem receiver_frame (hstep : receiverStep s ok = some s') :
    s'.sender = s.sender ∧ s'.stdin = s.stdin ∧ s'.buffer = s.buffer ∧ s'.sendStop = s.sendStop := by
  match ok with
  | true => exact receiverStep_frame (works_receiver s) hstep
  | false =>
    obtain rfl | ⟨pc, -, rfl⟩ := receiverStep_false hstep
    · exact ⟨rfl, rfl, rfl, rfl⟩
    · exact ⟨rfl, rfl, rfl, rfl⟩

/-! ## An input with a stop string -/

/-- `g` has been passed, and the rest of the script is to come, unless the queue could not be opened. -/
structure Told (pre : List (List UInt8)) (e : List UInt8) (after g : List (List UInt8)) (s : State) :
    Prop where
  left : s.sendStop ≠ none → s.sender = .close ∨ s.sender = .done
  script : (∃ R, g ++ R = pre ++ [e] ∧ SenderAt e after s R) ∨
    (g <+: pre ++ [e] ∧ s.sender = .done ∧ s.sendStop = none)

theorem told_step (hs : Script pre e) {g : List (List UInt8)} (h : Told pre e after g s) {a : Act}
    (hok : StopSent s a) (hstep : step s a = some s') : Told pre e after (g ++ passing s a) s' := by
  match a with
  | .receiver ok =>
    obtain ⟨hpc, hin, hbuf, hstop⟩ := receiver_frame hstep
    rw [passing, List.append_nil]
    refine ⟨by rw [hpc, hstop]; exact h.left, ?_⟩
    unfold SenderAt
    rw [hpc, hin, hbuf, hstop]
    exact h.script
  | .sender ok =>
    obtain ⟨R, hall, hat⟩ | ⟨-, hpc, -⟩ := h.script
    · obtain ⟨R', rfl, hat'⟩ | ⟨hpc, rfl⟩ := hat.call hs hall hok hstep
      · refine ⟨fun hstop => ?_, .inl ⟨R', by rw [List.append_assoc]; exact hall, hat'⟩⟩
        obtain ⟨hsame, hdone⟩ | hclose := leaves_by_close hstep
        · rw [hsame] at hstop
          rcases h.left hstop with hpc | hpc
          · exact .inr (hdone hpc)
          · simp only [step, senderStep, hpc] at hstep
            cases hstep
        · exact .inl hclose
      · have hnone : s.sendStop = none := by
          by_contra hn
          rcases h.left hn with hc | hc <;> rw [hpc] at hc <;> cases hc
        refine ⟨fun hn => absurd hnone hn, .inr ⟨?_, rfl, hnone⟩⟩
        simp only [passing, outgoing, hpc, reduceCtorEq, if_false, List.append_nil]
        exact ⟨R, hall⟩
    · simp only [step, senderStep, hpc] at hstep
      cases hstep

/-- What the input law asks of a state: the buffer has not been left, nothing but the lines of
    the input up to the first that stops has been passed, and all of them when the loop has been left. -/
structure Obeys (stdin : List UInt8) (acts : List Act) (s₀ s : State) : Prop where
  inside : s.sender ≠ .fault
  order : passed s₀ acts <+: upTo (lines stdin)
  all : s.sendStop ≠ none → passed s₀ acts = upTo (lines stdin)

theorem upTo_script (hs : Script pre e) (after : List (List UInt8)) :
    upTo (pre ++ [e] ++ after) = pre ++ [e] := by
  have hplain := hs.plain
  have hstop := hs.stop
  clear hs
  induction pre with
  | nil => exact upTo_stop hstop
  | cons l pre ih =>
    rw [List.forall_mem_cons] at hplain
    rw [List.cons_append, List.cons_append, upTo_plain hplain.1, ih hplain.2]

theorem told_run (hs : Script pre e) {stdin : List UInt8} (hsplit : typed stdin = pre ++ [e] ++ after)
    (old : Option (List (List UInt8))) (junk : List UInt8) {acts : List Act}
    (hok : Along step StopSent (init old junk stdin) acts)
    (hr : run step (init old junk stdin) acts = some s) :
    Told pre e after (passed (init old junk stdin) acts) s := by
  refine record_inv hr hok ⟨by simp [init], .inl ⟨pre ++ [e], rfl, ?_⟩⟩ ?_
  · exact ⟨by simp, hsplit⟩
  · exact fun g s a s' h hP hstep => told_step hs h hP hstep

theorem obeys_of_agrees {stdin : List UInt8} (h : Agrees (typed stdin) (lines stdin))
    (old : Option (List (List UInt8))) (junk : List UInt8) {acts : List Act}
    (hok : Along step StopSent (init old junk stdin) acts)
    (hr : run step (init old junk stdin) acts = some s) :
    Obeys stdin acts (init old junk stdin) s := by
  obtain ⟨pre, e, after, hsplit, hs, -, -⟩ := exists_script h.1
  have htold := told_run hs hsplit old junk hok hr
  have hlines : upTo (lines stdin) = pre ++ [e] := by
    rw [← h.2, hsplit, upTo_script hs]
  obtain ⟨R, hall, hat⟩ | ⟨hpre, hpc, hnone⟩ := htold.script
  · refine ⟨fun hf => ?_, by rw [hlines]; exact ⟨R, hall⟩, fun hstop => ?_⟩
    · simp only [SenderAt, hf] at hat
    · have hR : R = [] := by
        unfold SenderAt at hat
        rcases htold.left hstop with hpc | hpc <;> rw [hpc] at hat <;> exact hat.1
      rw [hR, List.append_nil] at hall
      rw [hlines, hall]
  · exact ⟨by rw [hpc]; decide, by rw [hlines]; exact hpre, fun hstop => absurd hnone hstop⟩

end KernelMagic.Mqueue
