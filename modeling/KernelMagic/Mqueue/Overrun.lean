/-
  The NUL behind a message. The receiver stores it at the index `bytes_read`, which for a message of 1024
  bytes is one past the end of its buffer; `mq_msgsize` lets such a message through.

  The sender makes one of every piece of 1023 bytes that `fgets` returns without a newline and without a
  NUL. So the index is in the buffer in every run if and only if each full piece of a line has a NUL
  (`nul_inside_iff`): for text without NULs, if no line has more than 1022 bytes.
-/
import KernelMagic.Mqueue.Turns

namespace KernelMagic.Mqueue

open KernelMagic.Lib

/-- Each of the full pieces of the line has a NUL in it. -/
def Cut (l : List UInt8) : Prop :=
  ∀ k, 1023 * (k + 1) ≤ l.length → 0 ∈ (l.drop (1023 * k)).take 1023

/-- The strings that the sender makes of what it finds in the buffer when there is no input. -/
def Small (b : List UInt8) : Prop := ∀ b' ∈ chomp b, (cstr b').length ≤ 1022

/-- The lines are cut, and if there is none, what is in the buffer is short. -/
def Fits (junk stdin : List UInt8) : Prop :=
  (∀ l ∈ lines stdin, Cut l) ∧ (stdin = [] → Small junk)

/-- In every run: no message in a queue is longer than the receiver's buffer has room for, with the NUL
    at the index that is its length, and the receiver has stored none outside. -/
def NulInside (junk stdin : List UInt8) : Prop :=
  ∀ acts s, run step (init none junk stdin) acts = some s →
    (∀ q, ∀ m ∈ s.queues q, m.length < maxSize) ∧ s.receiver ≠ .fault

variable {l b stdin junk : List UInt8} {s s' : State} {ok : Bool}

/-! ## The lengths of the strings -/

theorem cut_short (h : l.length ≤ 1022) : Cut l := by
  intro k hk
  omega

theorem cut_long (h : 1023 ≤ l.length) : Cut l ↔ 0 ∈ l.take 1023 ∧ Cut (l.drop 1023) := by
  constructor
  · intro hc
    refine ⟨hc 0 h, fun k hk => ?_⟩
    rw [List.length_drop] at hk
    have := hc (k + 1) (by omega)
    rwa [Nat.mul_succ, Nat.add_comm, ← List.drop_drop] at this
  · rintro ⟨h0, hc⟩ k hk
    match k with
    | 0 => exact h0
    | k + 1 =>
      have := hc k (by rw [List.length_drop]; omega)
      rwa [List.drop_drop, Nat.add_comm, ← Nat.mul_succ] at this

/-- A full piece makes a string that is too long, or has a NUL. -/
theorem length_piece (h : 1023 ≤ l.length) :
    (cstr (l.take 1023)).length ≤ 1022 ↔ 0 ∈ l.take 1023 := by
  have hlen : (l.take 1023).length = 1023 := by
    rw [List.length_take]
    omega
  have hself := cstr_eq_self_iff (l := l.take 1023)
  constructor
  · intro hle
    by_contra h0
    rw [hself.mpr h0, hlen] at hle
    omega
  · intro h0
    by_contra hgt
    have heq := (List.takeWhile_prefix _).eq_of_length_le
      (show (l.take 1023).length ≤ (cstr (l.take 1023)).length by omega)
    exact hself.mp heq h0

theorem lines_rest (hl : newline ∉ l) : (∀ l' ∈ lines l, Cut l') ↔ Cut l := by
  by_cases hne : l = []
  · subst hne
    exact iff_of_true (fun _ h => by cases h) (cut_short (by simp))
  · rw [lines_last hl hne, List.forall_mem_singleton]

/-- By induction on the text, a piece at a time. -/
theorem typed_lengths (stdin : List UInt8) :
    (∀ x ∈ typed stdin, x.length ≤ 1022) ↔ ∀ l ∈ lines stdin, Cut l := by
  induction hn : stdin.length using Nat.strong_induction_on generalizing stdin with
  | _ n ih =>
    obtain rfl | ⟨l, R, hl, rfl⟩ | ⟨hl, hne⟩ := text_cases stdin
    · exact iff_of_true (fun _ h => by cases h) (fun _ h => by cases h)
    · rw [lines_line hl, List.forall_mem_cons]
      by_cases hlen : 1023 ≤ l.length
      · have hdrop : newline ∉ l.drop 1023 := fun h => hl (List.mem_of_mem_drop h)
        have hrest := ih (l.drop 1023 ++ newline :: R).length (by simp at hn ⊢; omega) _ rfl
        rw [lines_line hdrop, List.forall_mem_cons] at hrest
        rw [typed_long hl hlen, List.forall_mem_cons, length_piece hlen, hrest, cut_long hlen,
          and_assoc]
      · have hR := ih R.length (by simp at hn; omega) R rfl
        have hle := length_cstr_le l
        rw [typed_short hl (by omega), List.forall_mem_cons, hR]
        exact and_congr_left fun _ => iff_of_true (by omega) (cut_short (by omega))
    · rw [lines_rest hl]
      by_cases hlen : 1023 ≤ stdin.length
      · have hdrop : newline ∉ stdin.drop 1023 := fun h => hl (List.mem_of_mem_drop h)
        have hrest := ih (stdin.drop 1023).length (by simp at hn ⊢; omega) _ rfl
        have htyped := typed_long hl hlen []
        rw [List.append_nil, List.append_nil] at htyped
        rw [htyped, List.forall_mem_cons, length_piece hlen, hrest, lines_rest hdrop, cut_long hlen]
      · have hle := length_cstr_le stdin
        rw [typed_last hl hne (by omega), List.forall_mem_singleton]
        exact iff_of_true (by omega) (cut_short (by omega))

/-! ## The messages -/

/-- Everything in the queues is short, and so is everything that can still come. -/
structure Short (s : State) : Prop where
  queues : ∀ q, ∀ m ∈ s.queues q, m.length < maxSize
  receiver : s.receiver ≠ .fault
  input : ∀ x ∈ typed s.stdin, x.length ≤ 1022
  send : s.sender = .send → (cstr s.buffer).length ≤ 1022
  again : s.stdin = [] → Small s.buffer

theorem Filled.small (h : Filled b l) (hl : l.length ≤ 1022) : Small b := by
  obtain ⟨r, rfl, hc⟩ := h
  intro b' hb'
  have hf := filled_of_chomp hb'
  rw [hf.cstr_eq]
  refine Nat.le_trans (Nat.le_of_eq ?_) hl
  have hstop : chomped (l ++ 0 :: r) = chomped l := takeWhile_stop (by simp) l r
  rw [hstop, hc]

theorem mem_mqOpen {q : Nat} {m : List UInt8} (h : m ∈ (mqOpen s).2.queues q) : m ∈ s.queues q := by
  unfold mqOpen at h
  split at h
  · exact h
  · by_cases hq : q = s.fresh
    · subst hq
      simp only [Function.update_self, List.not_mem_nil] at h
    · simpa only [Function.update_of_ne hq] using h

theorem Short.opened (h : Short s) (q : Nat) :
    ∀ m ∈ (mqOpen s).2.queues q, m.length < maxSize := fun m hm => h.queues q m (mem_mqOpen hm)

theorem Short.readStep (h : Short s) : Short (readStep s) := by
  cases hin : typed s.stdin with
  | cons l T =>
    have hall := h.input
    rw [hin, List.forall_mem_cons] at hall
    obtain ⟨b, rest, hread, hb, hrest, -⟩ := readStep_typed hin
    rw [hread]
    exact ⟨h.queues, h.receiver, by rw [← hrest] at hall; exact hall.2,
      fun _ => by rw [hb.cstr_eq]; exact hall.1, fun _ => hb.small hall.1⟩
  | nil =>
    have hnil : s.stdin = [] := by
      by_contra hne
      obtain ⟨l, T, hcons⟩ := exists_typed hne
      rw [hin] at hcons
      cases hcons
    cases hc : chomp s.buffer with
    | none =>
      have hread : Mqueue.readStep s = { s with sender := .fault } := by
        simp only [Mqueue.readStep, fgetsInto, hnil, fgets, List.isEmpty_nil, if_true, hc]
      rw [hread]
      exact ⟨h.queues, h.receiver, h.input, by simp, h.again⟩
    | some b =>
      have hle : (cstr b).length ≤ 1022 := h.again hnil b hc
      have hb := filled_of_chomp hc
      rw [readStep_junk hnil hc]
      exact ⟨h.queues, h.receiver, h.input, fun _ => hle,
        fun _ => hb.small (by rw [hb.cstr_eq] at hle; exact hle)⟩

/-- The message of a short string leaves room for the NUL. -/
theorem Short.posted (h : Short s) (hpc : s.sender = .send) (q : Nat) :
    ∀ m ∈ (posted s).queues q, m.length < maxSize := by
  intro m hm
  by_cases hq : q = s.sendMq
  · subst hq
    simp only [Mqueue.posted, Function.update_self] at hm
    obtain hm | hm := List.mem_append.mp hm
    · exact h.queues _ m hm
    · obtain rfl := List.mem_singleton.mp hm
      have hlen := h.send hpc
      rw [message, List.length_append, List.length_singleton]
      unfold maxSize
      omega
  · simp only [Mqueue.posted, Function.update_of_ne hq] at hm
    exact h.queues q m hm

theorem Short.sender_step (h : Short s) (hstep : senderStep s ok = some s') : Short s' := by
  obtain hw | ⟨rfl, ⟨-, rfl⟩ | ⟨-, rfl⟩ | ⟨-, rfl⟩⟩ := senderStep_fails hstep
  · obtain ⟨-, rfl⟩ | ⟨-, rfl⟩ | ⟨-, rfl⟩ | ⟨hpc, -, rfl⟩ | ⟨hpc, -, rfl⟩ | ⟨-, rfl⟩ :=
      senderStep_cases hw hstep
    · exact ⟨h.queues, h.receiver, h.input, by simp, h.again⟩
    · have hq := h.opened
      obtain ⟨n, qs, f, hopened⟩ := mqOpen_snd s
      rw [hopened] at hq ⊢
      exact ⟨hq, h.receiver, h.input, by simp, h.again⟩
    · exact h.readStep
    · exact ⟨h.posted hpc, h.receiver, h.input, by simp, h.again⟩
    · exact ⟨h.posted hpc, h.receiver, h.input, by simp, h.again⟩
    · exact ⟨h.queues, h.receiver, h.input, by simp, h.again⟩
  · exact ⟨h.queues, h.receiver, h.input, by simp, h.again⟩
  · exact ⟨h.queues, h.receiver, h.input, by simp, h.again⟩
  · exact ⟨h.queues, h.receiver, h.input, by simp, h.again⟩

theorem Short.receiver_step (h : Short s) (hstep : receiverStep s ok = some s') : Short s' := by
  have hkept : (∀ q, ∀ m ∈ s'.queues q, m.length < maxSize) ∧ s'.receiver ≠ .fault → Short s' := by
    rintro ⟨hq, hr⟩
    obtain ⟨hpc, hin, hbuf, -⟩ := receiver_frame hstep
    exact ⟨hq, hr, by rw [hin]; exact h.input, by rw [hpc, hbuf]; exact h.send,
      by rw [hin, hbuf]; exact h.again⟩
  refine hkept ?_
  match ok with
  | true =>
    obtain ⟨-, rfl⟩ | ⟨-, hrecv⟩ | ⟨-, rfl | rfl⟩ | ⟨-, n, -, rfl⟩ :=
      receiverStep_cases (works_receiver s) hstep
    · exact ⟨h.opened, by simp⟩
    · obtain ⟨m, ms, hq, hcases⟩ := receiveStep_cases hrecv
      -- the messages that are left, and the length of the one that is taken
      have hall := h.queues s.recvMq
      rw [hq, List.forall_mem_cons] at hall
      have hleft : ∀ q, ∀ m' ∈ (taken s ms).queues q, m'.length < maxSize := by
        intro q m' hm'
        by_cases hqr : q = s.recvMq
        · subst hqr
          simp only [taken, Function.update_self] at hm'
          exact hall.2 m' hm'
        · simp only [taken, Function.update_of_ne hqr] at hm'
          exact h.queues q m' hm'
      obtain ⟨-, rfl⟩ | ⟨-, -, -, rfl⟩ | ⟨-, hlong, -⟩ := hcases
      · exact ⟨hleft, h.receiver⟩
      · exact ⟨hleft, by simp⟩
      · exact absurd hall.1 hlong
    · exact ⟨h.queues, by simp⟩
    · exact ⟨h.queues, by simp⟩
    · exact ⟨h.queues, by simp⟩
  | false =>
    obtain rfl | ⟨pc, hpc, rfl⟩ := receiverStep_false hstep
    · exact ⟨h.queues, h.receiver⟩
    · exact ⟨h.queues, hpc⟩

theorem short_run {acts : List Act} (h : Fits junk stdin)
    (hr : run step (init none junk stdin) acts = some s) : Short s := by
  have h0 : Short (init none junk stdin) :=
    ⟨by simp [init], by simp [init], (typed_lengths stdin).mpr h.1, by simp [init], h.2⟩
  refine run_keeps hr h0 fun s a s' hs hstep => ?_
  cases a with
  | sender ok => exact hs.sender_step hstep
  | receiver ok => exact hs.receiver_step hstep

/-- A string that has come into a queue as a message. -/
theorem NulInside.sent (h : NulInside junk stdin) {acts : List Act} {q : Nat}
    (hr : run step (init none junk stdin) acts = some s) (hm : message l ∈ s.queues q) :
    l.length ≤ 1022 := by
  have hlt := (h acts s hr).1 q _ hm
  rw [message, List.length_append, List.length_singleton] at hlt
  unfold maxSize at hlt
  omega

/-- Every string of the input can be the next message in the queue. -/
theorem NulInside.short (h : NulInside junk stdin) : ∀ x ∈ typed stdin, x.length ≤ 1022 := by
  intro x hx
  obtain ⟨D, T, hsplit⟩ := List.append_of_mem hx
  have hopen := drive_opened none junk stdin
  obtain ⟨acts, b, rest, hdrive, hrest⟩ :=
    drive_typed (s := opened none junk stdin) rfl hsplit
  obtain ⟨b', rest', hread, hb, -⟩ :=
    readStep_typed (s := reading (opened none junk stdin) rest b) hrest
  obtain ⟨t, hr, -, hq, -⟩ := send_turn rfl hread (room_opened none junk stdin rest b)
  have hmem : message x ∈ t.queues (opened none junk stdin).sendMq := by
    rw [show t.queues (opened none junk stdin).sendMq = _ from hq, hb.cstr_eq]
    exact List.mem_append_right _ (List.mem_singleton_self _)
  exact h.sent (run_append_eq_some.mpr ⟨_, (hopen.append hdrive).run, hr⟩) hmem

theorem NulInside.small (h : NulInside junk []) : Small junk := by
  intro b hb
  have hopen := drive_opened none junk []
  have hread := readStep_junk (s := opened none junk []) rfl hb
  obtain ⟨t, hr, -, hq, -⟩ := send_turn rfl hread (room_opened none junk [] [] junk)
  have hmem : message (cstr b) ∈ t.queues (opened none junk []).sendMq := by
    rw [hq]
    exact List.mem_append_right _ (List.mem_singleton_self _)
  exact h.sent (run_append_eq_some.mpr ⟨_, hopen.run, hr⟩) hmem

/-- **The terminating NUL.** It is stored inside the buffer in every run if and only if each full piece
    of each line has a NUL, and so, without input, what is in the sender's buffer. -/
theorem nul_inside_iff (junk stdin : List UInt8) : NulInside junk stdin ↔ Fits junk stdin := by
  constructor
  · intro h
    refine ⟨(typed_lengths stdin).mp h.short, ?_⟩
    rintro rfl
    exact h.small
  · intro h acts s hr
    have hs := short_run h hr
    exact ⟨hs.queues, hs.receiver⟩

/-- The sender sends a line of 1023 bytes, and the receiver gets it. -/
def fullLine : List Act :=
  [.sender true, .sender true, .sender true, .sender true, .receiver true, .receiver true]

theorem nul_outside :
    ∃ s, run step (init none [] (List.replicate 1023 97 ++ [newline])) fullLine = some s ∧
      s.receiver = .fault ∧ ¬ NulInside [] (List.replicate 1023 97 ++ [newline]) := by
  have hr : (run step (init none [] (List.replicate 1023 97 ++ [newline])) fullLine).map
      State.receiver = some .fault := by
    decide +kernel
  obtain ⟨s, hr, hfault⟩ := Option.map_eq_some_iff.mp hr
  exact ⟨s, hr, hfault, fun h => (h _ s hr).2 hfault⟩

end KernelMagic.Mqueue
