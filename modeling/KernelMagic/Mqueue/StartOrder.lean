/-
  Which of the two programs comes first.

  If the sender unlinks the name before the receiver opens it, the two share a queue, and the receiver
  prints what the sender reads, up to the stop string, unless a string is too long for its buffer
  (`sender_first`). If the receiver opens it before, it holds the old queue, which the sender then takes
  the name of: the sender makes another one (`Apart`), nothing comes into the old one any more, and the
  receiver prints what an earlier run has left in it (`receiver_first`). Then it waits forever, if there
  is no stop message among this.

  So the order makes no difference exactly when the old queue repeats the input (`Repeats`).
-/
import KernelMagic.Mqueue.Agreement

namespace KernelMagic.Mqueue

open KernelMagic.Lib

/-- The sender starts when the receiver has opened the queue. -/
def Joined (s : State) : Act → Prop
  | .sender _ => s.receiver ≠ .opening
  | .receiver _ => True

instance (s : State) : (a : Act) → Decidable (Joined s a)
  | .sender _ => inferInstanceAs (Decidable (_ ≠ _))
  | .receiver _ => isTrue trivial

def ReceiverFirst (s : State) (a : Act) : Prop := Works s a ∧ Joined s a

instance (s : State) (a : Act) : Decidable (ReceiverFirst s a) :=
  inferInstanceAs (Decidable (_ ∧ _))

variable {pre after G Q R M : List (List UInt8)} {e l : List UInt8} {s s' : State} {ok : Bool}
  {stdin : List UInt8}

/-- The receiver has printed what it can of these messages, and has left its buffer if one of them
    takes it out. -/
structure Heard (M : List (List UInt8)) (s : State) : Prop where
  printed : s.printed = heard M
  fault : s.receiver = .fault ↔ overruns M = true

/-! ## The sender first -/

/-- A message that the receiver does not print is the last that it gets. -/
theorem Talk.heard_eq (hs : Script pre e) (h : Talk pre e after s G Q R) (hG : G = s.printed ++ [l])
    (hl : prints (message l) = false)
    (hpc : s.receiver = .fault ↔ ¬ (message l).length < maxSize) :
    Heard ((pre ++ [e] ++ after).map message) s := by
  have hnul : ∀ l ∈ s.printed, (0 : UInt8) ∉ l := by
    intro l' hl'
    refine hs.noNul l' ?_
    rw [← h.all, hG]
    exact List.mem_append_left _ (List.mem_append_left _ hl')
  have hsplit : pre ++ [e] ++ after = s.printed ++ l :: (Q ++ R ++ after) := by
    rw [← h.all, hG]
    simp
  rw [hsplit, List.map_append, List.map_cons]
  refine ⟨(heard_messages hnul h.shown hl).1.symm, ?_⟩
  rw [(heard_messages hnul h.shown hl).2, hpc, Bool.not_eq_true', decide_eq_false_iff_not]

theorem Inv.heard_of_end (hs : Script pre e) (h : Inv pre e after s)
    (hend : s.receiver = .done ∨ s.receiver = .fault) :
    Heard ((pre ++ [e] ++ after).map message) s := by
  obtain ⟨G, Q, R, h⟩ := h
  have hrecv := h.receiver
  rcases hend with hpc | hpc
  · simp only [ReceiverAt, hpc] at hrecv
    exact h.heard_eq hs hrecv.1 hs.not_prints (by simp [hpc, hrecv.2.2])
  · simp only [ReceiverAt, hpc] at hrecv
    obtain ⟨l, hG, hlong⟩ := hrecv
    exact h.heard_eq hs hG (by simp [prints, hlong]) (by simp [hpc, hlong])

theorem sender_first (hstop : ∃ l ∈ typed stdin, isStop l = true)
    (old : Option (List (List UInt8))) (junk : List UInt8) :
    Finishes step UnlinkFirst (init old junk stdin) (Heard ((typed stdin).map message)) := by
  obtain ⟨pre, e, after, hsplit, hs, -, -⟩ := exists_script hstop
  rw [hsplit]
  refine finishes_of_measure (work pre) ?_ ?_ (inv_init hsplit old junk)
  · exact fun s a s' h hP hstep => inv_step hs h hP hstep
  · intro s h
    by_cases hf : s.receiver = .fault
    · exact .inl (h.heard_of_end hs (.inr hf))
    · obtain ⟨-, hd, -⟩ | ⟨a, s', hP, hstep⟩ := h.goes hs hf
      · exact .inl (h.heard_of_end hs (.inl hd))
      · exact .inr ⟨a, s', hP.unlinkFirst, hstep⟩

/-! ## The receiver first -/

/-- Nothing has happened; `M` is what the receiver will find. -/
structure Unopened (M : List (List UInt8)) (s : State) : Prop where
  receiver : s.receiver = .opening
  sender : s.sender = .unlink
  printed : s.printed = []
  name : (s.name = none ∧ M = []) ∨ ∃ q, s.name = some q ∧ q < s.fresh ∧ s.queues q = M

/-- The receiver has the queue that `M` was in; the sender has another, or will make one. -/
structure Apart (M : List (List UInt8)) (s : State) : Prop where
  opened : s.receiver ≠ .opening
  old : s.recvMq < s.fresh
  unnamed : s.sender = .opening → s.name = none
  other : s.sender ≠ .unlink → s.sender ≠ .opening → s.sendMq ≠ s.recvMq
  hearing : s.receiver = .receive → s.printed ++ heard (s.queues s.recvMq) = heard M ∧
    overruns (s.queues s.recvMq) = overruns M
  finished : s.receiver ≠ .receive → Heard M s

/-- The two sides, and what the sender still has to send, to nobody. -/
structure Deaf (pre : List (List UInt8)) (e : List UInt8) (after M : List (List UInt8)) (s : State) :
    Prop where
  sides : Unopened M s ∨ Apart M s
  sender : ∃ D R, SenderAt e after s R ∧ D ++ R = pre ++ [e]

def deafWork (M : List (List UInt8)) (s : State) : Nat :=
  senderWork s + receiverWork s.receiver
    (if s.receiver = .opening then M.length else (s.queues s.recvMq).length)

/-- What the sender does is not done in the old queue. -/
theorem Apart.sender_parts (h : Apart M s) (hok : Works s (.sender ok))
    (hstep : senderStep s ok = some s') :
    s.recvMq < s'.fresh ∧ (s'.sender = .opening → s'.name = none) ∧
      (s'.sender ≠ .unlink → s'.sender ≠ .opening → s'.sendMq ≠ s.recvMq) ∧
      s'.queues s.recvMq = s.queues s.recvMq := by
  obtain ⟨hpc, rfl⟩ | ⟨hpc, rfl⟩ | ⟨hpc, rfl⟩ | ⟨hpc, -, rfl⟩ | ⟨hpc, -, rfl⟩ | ⟨hpc, rfl⟩ :=
    senderStep_cases hok hstep
  · exact ⟨h.old, fun _ => rfl, fun _ ho => absurd rfl ho, rfl⟩
  · -- the name is free, so the queue is a new one
    have hne : s.fresh ≠ s.recvMq := Nat.ne_of_gt h.old
    simp only [mqOpen, h.unnamed hpc]
    exact ⟨Nat.lt_succ_of_lt h.old, by simp, fun _ _ => hne, Function.update_of_ne hne.symm _ _⟩
  all_goals have hne : s.sendMq ≠ s.recvMq := h.other (by simp [hpc]) (by simp [hpc])
  · unfold readStep
    dsimp only
    split <;> exact ⟨h.old, by simp, fun _ _ => hne, rfl⟩
  · exact ⟨h.old, by simp, fun _ _ => hne, Function.update_of_ne hne.symm _ _⟩
  · exact ⟨h.old, by simp, fun _ _ => hne, Function.update_of_ne hne.symm _ _⟩
  · exact ⟨h.old, by simp, fun _ _ => hne, rfl⟩

theorem Deaf.sender_step (hs : Script pre e) (h : Deaf pre e after M s)
    (hok : Works s (.sender ok)) (hopen : s.receiver ≠ .opening)
    (hstep : senderStep s ok = some s') :
    Deaf pre e after M s' ∧ deafWork M s' < deafWork M s := by
  have hapart : Apart M s := h.sides.resolve_left fun hun => hopen hun.receiver
  obtain ⟨hr, hmq, hp, -⟩ := senderStep_frame hok hstep
  obtain ⟨hold, hname, hother, hqueue⟩ := hapart.sender_parts hok hstep
  obtain ⟨D, R, hat, hall⟩ := h.sender
  obtain ⟨R', rfl, hat', hless⟩ := hat.step hs hall hok hstep
  rw [← hmq] at hold hother
  refine ⟨⟨.inr ⟨by rwa [hr], hold, hname, hother, ?_, ?_⟩, D ++ outgoing s, R', hat', ?_⟩, ?_⟩
  · rw [hr, hp, hmq, hqueue]
    exact hapart.hearing
  · rw [hr]
    intro hne
    have hheard := hapart.finished hne
    exact ⟨by rw [hp]; exact hheard.printed, by rw [hr]; exact hheard.fault⟩
  · rw [List.append_assoc, hall]
  · unfold deafWork
    rw [hr, hmq, hqueue]
    omega

/-- The receiver opens the old queue, or makes one that will soon be without a name. -/
theorem Unopened.opened (h : Unopened M s) :
    Apart M { (mqOpen s).2 with recvMq := (mqOpen s).1, receiver := .receive } ∧
      (mqOpen s).2.queues (mqOpen s).1 = M := by
  obtain ⟨hname, rfl⟩ | ⟨q, hname, hlt, hq⟩ := h.name
  · simp only [mqOpen, hname]
    have hqueue : Function.update s.queues s.fresh [] s.fresh = [] := Function.update_self _ _ _
    refine ⟨⟨by simp, Nat.lt_succ_self _, ?_, ?_, fun _ => ?_, by simp⟩, hqueue⟩
    · intro ho
      cases h.sender.symm.trans ho
    · exact fun hu _ => absurd h.sender hu
    · simp only [h.printed, hqueue, List.nil_append, and_self]
  · simp only [mqOpen, hname]
    refine ⟨⟨by simp, hlt, ?_, ?_, fun _ => ?_, by simp⟩, hq⟩
    · intro ho
      cases h.sender.symm.trans ho
    · exact fun hu _ => absurd h.sender hu
    · simp only [h.printed, hq, List.nil_append, and_self]

theorem Apart.received (h : Apart M s) (hpc : s.receiver = .receive)
    (hstep : receiveStep s true = some s') :
    Apart M s' ∧
      receiverWork s'.receiver (s'.queues s'.recvMq).length <
        receiverWork s.receiver (s.queues s.recvMq).length := by
  obtain ⟨hhear, hover⟩ := h.hearing hpc
  obtain ⟨m, ms, hq, hcases⟩ := receiveStep_cases hstep
  rw [hq] at hhear hover
  have hqueue : (taken s ms).queues s.recvMq = ms := Function.update_self _ _ _
  obtain ⟨hpr, rfl⟩ | ⟨hpr, -, hlen, rfl⟩ | ⟨hpr, hlong, rfl⟩ := hcases
  · rw [heard_printed hpr] at hhear
    rw [overruns_printed hpr] at hover
    refine ⟨⟨h.opened, h.old, h.unnamed, h.other, fun _ => ⟨?_, ?_⟩, fun hr => absurd hpc hr⟩, ?_⟩
    · show (s.printed ++ [cstr m]) ++ heard ((taken s ms).queues s.recvMq) = heard M
      rw [hqueue, ← hhear, List.append_assoc, List.singleton_append]
    · show overruns ((taken s ms).queues s.recvMq) = overruns M
      rw [hqueue, hover]
    · show receiverWork s.receiver ((taken s ms).queues s.recvMq).length < _
      rw [hqueue, hq, hpc]
      simp [receiverWork]
  all_goals
    rw [heard_last hpr, List.append_nil] at hhear
    rw [overruns_last hpr] at hover
    refine ⟨⟨by simp, h.old, h.unnamed, h.other, by simp, fun _ => ⟨hhear, ?_⟩⟩, ?_⟩
    rotate_left
    · rw [hpc]
      simp only [receiverWork]
      omega
  · simp [← hover, hlen]
  · simp [← hover, hlong]

/-- The receiver's last calls. -/
theorem Apart.left (h : Apart M s) (hpc : s.receiver = .close ∨ s.receiver = .unlink)
    {n : Option Nat} (hn : n = none ∨ n = s.name) {r : ReceiverPc} (hr : r = .unlink ∨ r = .done) :
    Apart M { s with name := n, receiver := r } := by
  have hheard : Heard M s := h.finished (by rcases hpc with hpc | hpc <;> simp [hpc])
  have hfault : overruns M = false := by
    rw [← Bool.not_eq_true, ← hheard.fault]
    rcases hpc with hpc | hpc <;> simp [hpc]
  refine ⟨?_, h.old, fun ho => ?_, h.other, ?_, fun _ => ⟨hheard.printed, ?_⟩⟩
  · rcases hr with rfl | rfl <;> simp
  · rcases hn with rfl | rfl
    · rfl
    · exact h.unnamed ho
  · rcases hr with rfl | rfl <;> simp
  · rw [hfault]
    rcases hr with rfl | rfl <;> simp

theorem Deaf.receiver_step (h : Deaf pre e after M s) (hok : Works s (.receiver ok))
    (hstep : receiverStep s ok = some s') :
    Deaf pre e after M s' ∧ deafWork M s' < deafWork M s := by
  obtain ⟨D, R, hat, hall⟩ := h.sender
  obtain ⟨hat', hsend⟩ := hat.receiver_step hok hstep
  suffices hsides : Apart M s' ∧ receiverWork s'.receiver (s'.queues s'.recvMq).length <
      receiverWork s.receiver
        (if s.receiver = .opening then M.length else (s.queues s.recvMq).length) by
    refine ⟨⟨.inr hsides.1, D, R, hat', hall⟩, ?_⟩
    unfold deafWork
    rw [hsend, if_neg hsides.1.opened]
    exact Nat.add_lt_add_left hsides.2 _
  obtain ⟨hpc, rfl⟩ | ⟨hpc, hrecv⟩ | ⟨hpc, rfl | rfl⟩ | ⟨hpc, n, hn, rfl⟩ :=
    receiverStep_cases hok hstep
  · have hun : Unopened M s := h.sides.resolve_right fun hap => hap.opened hpc
    obtain ⟨hap, hM⟩ := hun.opened
    refine ⟨hap, ?_⟩
    simp only [hM, hpc, if_true, receiverWork]
    omega
  all_goals
    have hap : Apart M s := by
      refine h.sides.resolve_left fun hun => ?_
      cases hpc.symm.trans hun.receiver
    rw [if_neg hap.opened]
  · exact hap.received hpc hrecv
  · exact ⟨hap.left (.inl hpc) (.inr rfl) (.inl rfl), by simp [receiverWork, hpc]⟩
  · exact ⟨hap.left (.inl hpc) (.inr rfl) (.inr rfl), by simp [receiverWork, hpc]⟩
  · exact ⟨hap.left (.inr hpc) hn (.inr rfl), by simp [receiverWork, hpc]⟩

theorem deaf_step (hs : Script pre e) {a : Act} (h : Deaf pre e after M s) (hP : ReceiverFirst s a)
    (hstep : step s a = some s') : Deaf pre e after M s' ∧ deafWork M s' < deafWork M s := by
  match a with
  | .sender ok => exact h.sender_step hs hP.1 hP.2 hstep
  | .receiver ok => exact h.receiver_step hP.1 hstep

theorem Deaf.goes (h : Deaf pre e after M s) :
    Heard M s ∨ ∃ a s', ReceiverFirst s a ∧ step s a = some s' := by
  have hgo : (receiverStep s true).isSome = true → ∃ a s', ReceiverFirst s a ∧ step s a = some s' := by
    intro hgo
    obtain ⟨s', hs'⟩ := Option.isSome_iff_exists.mp hgo
    exact ⟨.receiver true, s', ⟨works_receiver s, trivial⟩, hs'⟩
  rcases h.sides with hun | hap
  · exact .inr (hgo (by simp [receiverStep, hun.receiver]))
  · by_cases hpc : s.receiver = .receive
    · by_cases hq : s.queues s.recvMq = []
      · obtain ⟨hhear, hover⟩ := hap.hearing hpc
        rw [hq, heard_nil, List.append_nil] at hhear
        rw [hq, overruns_nil] at hover
        exact .inl ⟨hhear, by simp [hpc, ← hover]⟩
      · exact .inr (hgo (receiverStep_isSome (fun _ => hq) (by simp [hpc]) (by simp [hpc])))
    · exact .inl (hap.finished hpc)

theorem unopened_init (old : Option (List (List UInt8))) (junk stdin : List UInt8) :
    Unopened (old.getD []) (init old junk stdin) := by
  refine ⟨rfl, rfl, rfl, ?_⟩
  match old with
  | none => exact .inl ⟨rfl, rfl⟩
  | some ms => exact .inr ⟨0, rfl, Nat.zero_lt_one, rfl⟩

theorem receiver_first (hstop : ∃ l ∈ typed stdin, isStop l = true)
    (old : Option (List (List UInt8))) (junk : List UInt8) :
    Finishes step ReceiverFirst (init old junk stdin) (Heard (old.getD [])) := by
  obtain ⟨pre, e, after, hsplit, hs, -, -⟩ := exists_script hstop
  have h0 : Deaf pre e after (old.getD []) (init old junk stdin) :=
    ⟨.inl (unopened_init old junk stdin), [], pre ++ [e], ⟨by simp, hsplit⟩, rfl⟩
  refine finishes_of_measure (deafWork (old.getD [])) ?_ (fun s h => h.goes) h0
  exact fun s a s' h hP hstep => deaf_step hs h hP hstep

/-! ## Both orders -/

/-- The old queue begins with the strings of the input before the first that stops; it has nothing
    behind them, or a stop message next. All of these fit into the receiver's buffer, and so does the
    stop string of the input. -/
def Repeats (strings old : List (List UInt8)) : Prop :=
  ∃ pre e after seen rest, strings = pre ++ e :: after ∧ (∀ l ∈ pre, isStop l = false) ∧
    isStop e = true ∧ (∀ l ∈ pre ++ [e], l.length ≤ 1022) ∧ old = seen ++ rest ∧
    seen.map cstr = pre ∧ (∀ m ∈ seen, m.length < maxSize) ∧
    ∀ m ∈ rest.head?, isStop (cstr m) = true ∧ m.length < maxSize

/-- What is heard of messages that keep the receiver in its buffer. -/
theorem heard_eq_iff {ms ls : List (List UInt8)} : heard ms = ls ∧ overruns ms = false ↔
    ∃ seen rest, ms = seen ++ rest ∧ seen.map cstr = ls ∧ (∀ m ∈ seen, prints m = true) ∧
      ∀ m ∈ rest.head?, isStop (cstr m) = true ∧ m.length < maxSize := by
  constructor
  · induction ms generalizing ls with
    | nil =>
      rintro ⟨rfl, -⟩
      exact ⟨[], [], rfl, rfl, by simp, by simp⟩
    | cons m ms ih =>
      intro h
      cases hpr : prints m with
      | true =>
        rw [heard_printed hpr, overruns_printed hpr] at h
        obtain ⟨seen, rest, rfl, hseen, hall, hrest⟩ := ih ⟨rfl, h.2⟩
        refine ⟨m :: seen, rest, rfl, ?_, List.forall_mem_cons.mpr ⟨hpr, hall⟩, hrest⟩
        rw [List.map_cons, hseen, h.1]
      | false =>
        rw [heard_last hpr, overruns_last hpr] at h
        have hlen : m.length < maxSize := by simpa using h.2
        have hstop : isStop (cstr m) = true := by simpa [prints, hlen] using hpr
        exact ⟨[], m :: ms, rfl, h.1, by simp, by simp [hstop, hlen]⟩
  · rintro ⟨seen, rest, rfl, rfl, hall, hrest⟩
    induction seen with
    | nil =>
      cases rest with
      | nil => exact ⟨rfl, rfl⟩
      | cons m rest =>
        obtain ⟨hstop, hlen⟩ := hrest m rfl
        have hpr : prints m = false := by simp [prints, hstop]
        exact ⟨heard_last hpr, by simp [overruns_last hpr, hlen]⟩
    | cons m seen ih =>
      rw [List.forall_mem_cons] at hall
      rw [List.cons_append, heard_printed hall.1, overruns_printed hall.1, (ih hall.2).1]
      exact ⟨rfl, (ih hall.2).2⟩

theorem prints_message (h0 : (0 : UInt8) ∉ l) :
    prints (message l) = true ↔ l.length ≤ 1022 ∧ isStop l = false := by
  rw [prints, cstr_message h0, Bool.and_eq_true, decide_eq_true_iff, Bool.not_eq_true', message,
    List.length_append, List.length_singleton]
  refine and_congr_left fun _ => ?_
  simp only [maxSize]
  omega

/-- The messages of the input keep the receiver in its buffer when the strings up to the first that
    stops fit; then the receiver hears all that come before it. -/
theorem heard_input (hs : Script pre e) (after : List (List UInt8)) :
    (overruns ((pre ++ e :: after).map message) = false ↔ ∀ l ∈ pre ++ [e], l.length ≤ 1022) ∧
      (overruns ((pre ++ e :: after).map message) = false →
        heard ((pre ++ e :: after).map message) = pre) := by
  have hnul := hs.noNul
  have hplain := hs.plain
  induction pre with
  | nil =>
    have hpr := hs.not_prints
    rw [List.nil_append, List.map_cons, overruns_last hpr, heard_last hpr]
    simp only [message, maxSize, List.length_append, List.length_singleton, List.nil_append,
      List.mem_singleton, forall_eq, Bool.not_eq_false', decide_eq_true_iff]
    exact ⟨by omega, fun _ => trivial⟩
  | cons l pre ih =>
    rw [List.cons_append, List.forall_mem_cons] at hnul
    rw [List.forall_mem_cons] at hplain
    obtain ⟨hfits, hheard⟩ := ih ⟨hnul.2, hplain.2, hs.stop⟩ hnul.2 hplain.2
    rw [List.cons_append, List.cons_append, List.map_cons, List.forall_mem_cons]
    by_cases hlen : l.length ≤ 1022
    · have hpr := (prints_message hnul.1).mpr ⟨hlen, hplain.1⟩
      rw [overruns_printed hpr, heard_printed hpr, cstr_message hnul.1]
      refine ⟨by rw [hfits, and_iff_right hlen], fun h => ?_⟩
      rw [hheard h]
    · have hpr : prints (message l) = false := by
        rw [← Bool.not_eq_true, prints_message hnul.1]
        exact fun h => hlen h.1
      have hover : overruns (message l :: (pre ++ e :: after).map message) = true := by
        rw [overruns_last hpr]
        simp [message, maxSize]
        omega
      rw [hover]
      exact ⟨iff_of_false (by simp) fun h => hlen h.1, by simp⟩

theorem repeats_iff {strings old : List (List UInt8)} (hnul : ∀ l ∈ strings, (0 : UInt8) ∉ l)
    (hstop : ∃ l ∈ strings, isStop l = true) :
    Repeats strings old ↔ overruns (strings.map message) = false ∧ overruns old = false ∧
      heard (strings.map message) = heard old := by
  constructor
  · rintro ⟨pre, e, after, seen, rest, rfl, hplain, he, hlen, rfl, hseen, hfit, hrest⟩
    have hs : Script pre e := ⟨fun l hl => hnul l (by simp at hl ⊢; tauto), hplain, he⟩
    obtain ⟨hfits, hheard⟩ := heard_input hs after
    have hold : heard (seen ++ rest) = pre ∧ overruns (seen ++ rest) = false := by
      refine heard_eq_iff.mpr ⟨seen, rest, rfl, hseen, fun m hm => ?_, hrest⟩
      have := hplain (cstr m) (hseen ▸ List.mem_map_of_mem hm)
      simp [prints, this, hfit m hm]
    exact ⟨hfits.mpr hlen, hold.2, (hheard (hfits.mpr hlen)).trans hold.1.symm⟩
  · rintro ⟨hover, hold, heq⟩
    obtain ⟨e, he⟩ := Option.isSome_iff_exists.mp (List.find?_isSome.mpr hstop)
    obtain ⟨hse, pre, after, rfl, hpre⟩ := List.find?_eq_some_iff_append.mp he
    have hplain : ∀ l ∈ pre, isStop l = false := fun l hl => by simpa using hpre l hl
    have hs : Script pre e := ⟨fun l hl => hnul l (by simp at hl ⊢; tauto), hplain, hse⟩
    obtain ⟨hfits, hheard⟩ := heard_input hs after
    rw [hheard hover] at heq
    obtain ⟨seen, rest, rfl, hseen, hall, hrest⟩ := heard_eq_iff.mp ⟨heq.symm, hold⟩
    refine ⟨pre, e, after, seen, rest, rfl, hplain, hse, hfits.mp hover, rfl, hseen, ?_, hrest⟩
    intro m hm
    have := hall m hm
    simp only [prints, Bool.and_eq_true, decide_eq_true_iff] at this
    exact this.1

/-- Both orders keep the receiver in its buffer and make it print the same if and only if the old
    queue repeats the input. -/
theorem start_order_iff (old : Option (List (List UInt8))) (junk : List UInt8)
    (lines : List (List UInt8)) (hstop : ∃ l ∈ lines, isStop l = true) :
    (∀ t₁ t₂, EndsIn step UnlinkFirst (init old junk (unlines lines)) t₁ →
      EndsIn step ReceiverFirst (init old junk (unlines lines)) t₂ →
      t₁.receiver ≠ .fault ∧ t₂.receiver ≠ .fault ∧ t₁.printed = t₂.printed) ↔
    Repeats (typed (unlines lines)) (old.getD []) := by
  have hsender := sender_first (typed_stop hstop) old junk
  have hreceiver := receiver_first (typed_stop hstop) old junk
  rw [repeats_iff (fun _ => zero_not_mem_typed) (typed_stop hstop)]
  constructor
  · intro h
    obtain ⟨t₁, h₁⟩ := hsender.exists_end
    obtain ⟨t₂, h₂⟩ := hreceiver.exists_end
    have hheard₁ := hsender.at_end h₁
    have hheard₂ := hreceiver.at_end h₂
    obtain ⟨hf₁, hf₂, heq⟩ := h t₁ t₂ h₁ h₂
    rw [Ne, hheard₁.fault, Bool.not_eq_true] at hf₁
    rw [Ne, hheard₂.fault, Bool.not_eq_true] at hf₂
    rw [← hheard₁.printed, ← hheard₂.printed]
    exact ⟨hf₁, hf₂, heq⟩
  · rintro ⟨hf₁, hf₂, heq⟩ t₁ t₂ h₁ h₂
    have hheard₁ := hsender.at_end h₁
    have hheard₂ := hreceiver.at_end h₂
    rw [Ne, Ne, hheard₁.fault, hheard₂.fault, hf₁, hf₂, hheard₁.printed, hheard₂.printed]
    exact ⟨by simp, by simp, heq⟩

/-- The old queue holds the lines of the input. -/
theorem start_order_iff_again :
    ∃ t₁ t₂,
      EndsIn step UnlinkFirst (init (some (twoLines.map message)) [] (unlines twoLines)) t₁ ∧
      EndsIn step ReceiverFirst (init (some (twoLines.map message)) [] (unlines twoLines)) t₂ ∧
      t₁.receiver ≠ .fault ∧ t₂.receiver ≠ .fault ∧ t₁.printed = t₂.printed := by
  have hstop : ∃ l ∈ twoLines, isStop l = true := by decide
  have hrepeats : Repeats (typed (unlines twoLines)) (twoLines.map message) :=
    ⟨[ascii "a"], ascii "exit", [], [message (ascii "a")], [message (ascii "exit")], by decide +kernel⟩
  obtain ⟨t₁, h₁⟩ := (sender_first (typed_stop hstop) (some (twoLines.map message)) []).exists_end
  obtain ⟨t₂, h₂⟩ := (receiver_first (typed_stop hstop) (some (twoLines.map message)) []).exists_end
  have hsame := (start_order_iff (some (twoLines.map message)) [] twoLines hstop).mpr hrepeats
  exact ⟨t₁, t₂, h₁, h₂, hsame t₁ t₂ h₁ h₂⟩

/-- A sender that is done, and a receiver that is done or waits at an empty queue. -/
theorem no_step (hsend : s.sender = .done)
    (hrecv : s.receiver = .done ∨ (s.receiver = .receive ∧ s.queues s.recvMq = [])) {a : Act}
    (hok : Works s a) : step s a = none := by
  match a with
  | .sender ok => simp [step, senderStep, hsend]
  | .receiver ok =>
    rcases hrecv with hpc | ⟨hpc, hq⟩
    · simp [step, receiverStep, hpc]
    · simp [step, receiverStep, hpc, hok (.inr hpc), receiveStep, mqReceive, hq]

/-- The receiver opens the queue, then the sender runs to its end. -/
def receiverUp : List Act :=
  [.receiver true, .sender true, .sender true, .sender true, .sender true, .sender true,
    .sender true, .sender true]

theorem start_order_matters :
    ∃ t₁ t₂, EndsIn step UnlinkFirst (init none [] (unlines twoLines)) t₁ ∧
      EndsIn step ReceiverFirst (init none [] (unlines twoLines)) t₂ ∧
      t₁.printed = [ascii "a"] ∧ t₂.printed = [] ∧ t₂.receiver = .receive := by
  have h₁ : (run step (init none [] (unlines twoLines)) inTurn).map
      (fun t => (t.sender, t.receiver, t.printed)) = some (.done, .done, [ascii "a"]) := by
    decide +kernel
  have h₂ : (run step (init none [] (unlines twoLines)) receiverUp).map
      (fun t => (t.sender, t.receiver, t.queues t.recvMq, t.printed)) =
        some (.done, .receive, [], []) := by
    decide +kernel
  obtain ⟨t₁, hr₁, he₁⟩ := Option.map_eq_some_iff.mp h₁
  obtain ⟨t₂, hr₂, he₂⟩ := Option.map_eq_some_iff.mp h₂
  simp only [Prod.mk.injEq] at he₁ he₂
  obtain ⟨hs₁, hd₁, hp₁⟩ := he₁
  obtain ⟨hs₂, hd₂, hq₂, hp₂⟩ := he₂
  refine ⟨t₁, t₂, ⟨inTurn, by decide +kernel, hr₁, fun a ha => ?_⟩,
    ⟨receiverUp, by decide +kernel, hr₂, fun a ha => ?_⟩, hp₁, hp₂, hd₂⟩
  · exact no_step hs₁ (.inl hd₁) ha.1
  · exact no_step hs₂ (.inr ⟨hd₂, hq₂⟩) ha.1

end KernelMagic.Mqueue
