/-
  Files whose text is made record by record, in the way of `seq_file`. A reader of such a file goes
  through the records in sessions: it starts at the position it has come to, shows the record there, goes
  on to the next, and may stop in front of any record, when it has got as much as it wants; what it has
  shown waits in a buffer until it is read. A record that has not found room in the buffer is dropped
  and shown again in the next session.

  How much is read at a time, where sessions stop and which records find no room is up to the schedule.
  If the operations count the positions up to `n` (`Counts`), what is read is the text of the records
  from 0 on, each once and in order; and a reader that comes to the end has read all of it.
-/
import KernelMagic.Lib.Machine

namespace KernelMagic.Lib

/-- The operations: whether there is a record at a position, where to go from one and whether there is a
    record then, and what is shown of it. -/
structure SeqOps where
  start : Nat → Bool
  next : Nat → Nat × Bool
  text : Nat → List UInt8

/-- `next` goes from each of the positions below `n` to the one behind it. -/
structure SeqOps.Counts (ops : SeqOps) (n : Nat) : Prop where
  start_eq : ∀ p ≤ n, ops.start p = decide (p < n)
  next_eq : ∀ p < n, ops.next p = (p + 1, decide (p + 1 < n))

/-- The text of the first `k` records. -/
def SeqOps.upTo (ops : SeqOps) (k : Nat) : List UInt8 := ((List.range k).map ops.text).flatten

namespace SeqFile

/-- Between two sessions, or in one: in front of the record at the position, or behind it. -/
inductive Place where
  | stopped
  | before
  | behind
  deriving DecidableEq, Repr

structure State where
  place : Place := .stopped
  index : Nat := 0
  buf : List UInt8 := []
  out : List UInt8 := []
  ended : Bool := false

/-- `read` takes `n` of the bytes that wait; `rewind` is for a read at the start of the file. -/
inductive Act where
  | start
  | show
  | next
  | stop
  | read (n : Nat)
  | rewind
  deriving DecidableEq, Repr

def step (ops : SeqOps) (s : State) : Act → Option State
  | .start =>
    if s.place = .stopped ∧ s.buf = [] then
      if ops.start s.index then some { s with place := .before } else some { s with ended := true }
    else none
  | .show =>
    if s.place = .before then some { s with place := .behind, buf := s.buf ++ ops.text s.index }
    else none
  | .next =>
    if s.place = .behind then
      some { s with
        place := if (ops.next s.index).2 then .before else .stopped
        index := (ops.next s.index).1 }
    else none
  | .stop => if s.place = .before then some { s with place := .stopped } else none
  | .read n =>
    if s.place = .stopped ∧ n ≤ s.buf.length then
      some { s with buf := s.buf.drop n, out := s.out ++ s.buf.take n }
    else none
  | .rewind => if s.place = .stopped then some {} else none

variable {ops : SeqOps} {n k : Nat} {s s' : State} {a : Act}

theorem upTo_succ (ops : SeqOps) (k : Nat) : ops.upTo (k + 1) = ops.upTo k ++ ops.text k := by
  unfold SeqOps.upTo
  rw [List.range_succ, List.map_append, List.flatten_append, List.map_singleton,
    List.flatten_singleton]

theorem upTo_mono (ops : SeqOps) (h : k ≤ n) : ops.upTo k <+: ops.upTo n := by
  induction n with
  | zero => rw [Nat.le_zero.mp h]
  | succ n ih =>
    rcases Nat.lt_or_eq_of_le h with hlt | rfl
    · rw [upTo_succ]
      exact (ih (Nat.le_of_lt_succ hlt)).trans (List.prefix_append _ _)
    · exact List.prefix_rfl

/-- How many records have been shown. -/
def State.shown (s : State) : Nat := s.index + if s.place = .behind then 1 else 0

theorem shown_behind (h : s.place = .behind) : s.shown = s.index + 1 := by
  rw [State.shown, if_pos h]

theorem shown_of_ne (h : s.place ≠ .behind) : s.shown = s.index := by
  rw [State.shown, if_neg h, Nat.add_zero]

structure Inv (ops : SeqOps) (n : Nat) (s : State) : Prop where
  text : s.out ++ s.buf = ops.upTo s.shown
  le : s.index ≤ n
  lt : s.place ≠ .stopped → s.index < n
  ended : s.ended = true → s.place = .stopped ∧ s.index = n ∧ s.buf = []

theorem inv_init (ops : SeqOps) (n : Nat) : Inv ops n {} :=
  ⟨rfl, Nat.zero_le n, fun h => absurd rfl h, fun h => by cases h⟩

/-- There is no session once the end has been seen. -/
theorem Inv.not_ended (hi : Inv ops n s) (hp : s.place ≠ .stopped) {p : Prop} :
    s.ended = true → p := fun he => absurd (hi.ended he).1 hp

theorem Inv.start (ho : ops.Counts n) (hi : Inv ops n s) (h : step ops s .start = some s') :
    Inv ops n s' := by
  simp only [step] at h
  split at h
  case isFalse => cases h
  next hst =>
  have hshown : s.shown = s.index := shown_of_ne (by rw [hst.1]; decide)
  rw [ho.start_eq s.index hi.le] at h
  split at h
  · next hlt =>
    cases h
    have hlt : s.index < n := of_decide_eq_true hlt
    refine ⟨?_, hi.le, fun _ => hlt, fun he => ?_⟩
    · rw [hi.text, hshown]
      rfl
    · have heq := (hi.ended he).2.1
      omega
  · next hge =>
    cases h
    have hle := hi.le
    have heq : s.index = n := by
      simp only [decide_eq_true_eq] at hge
      omega
    exact ⟨hi.text, hi.le, hi.lt, fun _ => ⟨hst.1, heq, hst.2⟩⟩

theorem Inv.show (hi : Inv ops n s) (h : step ops s .show = some s') : Inv ops n s' := by
  simp only [step] at h
  split at h
  case isFalse => cases h
  next hpl =>
  have hopen : s.place ≠ .stopped := by simp [hpl]
  have hshown : s.shown = s.index := shown_of_ne (by simp [hpl])
  cases h
  refine ⟨?_, hi.le, fun _ => hi.lt hopen, hi.not_ended hopen⟩
  rw [shown_behind rfl, upTo_succ, ← List.append_assoc, hi.text, hshown]

theorem Inv.next (ho : ops.Counts n) (hi : Inv ops n s) (h : step ops s .next = some s') :
    Inv ops n s' := by
  simp only [step] at h
  split at h
  case isFalse => cases h
  next hpl =>
  have hopen : s.place ≠ .stopped := by simp [hpl]
  have hlt := hi.lt hopen
  rw [ho.next_eq s.index hlt] at h
  cases h
  refine ⟨?_, hlt, fun hp => ?_, hi.not_ended hopen⟩
  · rw [hi.text, shown_behind hpl, shown_of_ne]
    simp only
    split <;> decide
  · simp only [decide_eq_true_eq] at hp
    by_contra hge
    exact hp (if_neg hge)

theorem inv_step (ho : ops.Counts n) (hi : Inv ops n s) (h : step ops s a = some s') :
    Inv ops n s' := by
  cases a with
  | start => exact hi.start ho h
  | «show» => exact hi.show h
  | next => exact hi.next ho h
  | stop =>
    simp only [step] at h
    split at h
    case isFalse => cases h
    next hpl =>
    cases h
    refine ⟨?_, hi.le, fun hp => absurd rfl hp, hi.not_ended (by simp [hpl])⟩
    rw [hi.text, shown_of_ne (by simp [hpl])]
    rfl
  | read m =>
    simp only [step] at h
    split at h
    case isFalse => cases h
    cases h
    refine ⟨?_, hi.le, hi.lt, fun he => ?_⟩
    · have ht := hi.text
      rw [List.append_assoc, List.take_append_drop]
      exact ht
    · obtain ⟨hst, heq, hbuf⟩ := hi.ended he
      exact ⟨hst, heq, by rw [hbuf, List.drop_nil]⟩
  | rewind =>
    simp only [step] at h
    split at h
    case isFalse => cases h
    cases h
    exact inv_init ops n

/-- In every run a beginning of the text has been read, and at the end all of it. -/
theorem out_of_run (ho : ops.Counts n) {acts : List Act} (hr : run (step ops) {} acts = some s) :
    s.out <+: ops.upTo n ∧ (s.ended = true → s.out = ops.upTo n) := by
  have hi : Inv ops n s := run_keeps hr (inv_init ops n) fun _ _ _ hi h => inv_step ho hi h
  have hshown : s.shown ≤ n := by
    by_cases hpl : s.place = .behind
    · rw [shown_behind hpl]
      exact hi.lt (by simp [hpl])
    · rw [shown_of_ne hpl]
      exact hi.le
  refine ⟨?_, fun he => ?_⟩
  · have hpre : s.out <+: ops.upTo s.shown := ⟨s.buf, hi.text⟩
    exact hpre.trans (upTo_mono ops hshown)
  · obtain ⟨hst, heq, hbuf⟩ := hi.ended he
    have ht := hi.text
    rw [hbuf, List.append_nil, shown_of_ne (by simp [hst]), heq] at ht
    exact ht

end SeqFile

end KernelMagic.Lib
