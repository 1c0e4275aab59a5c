/-
  The strings of the input against its lines.

  `fgets` cuts a line every 1023 bytes, and the string of a piece ends at the first NUL in it
  (`typed_long`, `typed_short`, `typed_last`). So the strings up to the first that stops are the lines up
  to the first that stops in exactly these inputs: there is such a line, each line before it fits the
  buffer with its newline, it fits itself, and none of them has a NUL (`Faithful`). A line of exactly
  1023 bytes is one string, but its newline is another, which is empty; no later line makes up for
  that (`upTo_shifted`).
-/
import KernelMagic.Mqueue.Sender

namespace KernelMagic.Mqueue

open KernelMagic.Lib

/-- The lines of a text without their newlines; the last may lack one. -/
def lines : List UInt8 → List (List UInt8)
  | [] => []
  | b :: text =>
    if b = newline then [] :: lines text
    else
      match lines text with
      | [] => [[b]]
      | l :: ls => (b :: l) :: ls

/-- Up to the first that stops, with it. -/
def upTo : List (List UInt8) → List (List UInt8)
  | [] => []
  | l :: ls => if isStop l then [l] else l :: upTo ls

variable {l R stdin : List UInt8} {ls : List (List UInt8)}

theorem lines_line (hl : newline ∉ l) (R : List UInt8) :
    lines (l ++ newline :: R) = l :: lines R := by
  induction l with
  | nil => simp [lines]
  | cons b l ih =>
    rw [List.mem_cons, not_or] at hl
    rw [List.cons_append, lines, if_neg (Ne.symm hl.1), ih hl.2]

theorem lines_last (hl : newline ∉ l) (hne : l ≠ []) : lines l = [l] := by
  induction l with
  | nil => exact absurd rfl hne
  | cons b l ih =>
    rw [List.mem_cons, not_or] at hl
    rw [lines, if_neg (Ne.symm hl.1)]
    cases l with
    | nil => rfl
    | cons b' l => rw [ih hl.2 (by simp)]

/-- A text is empty, or begins with a line that ends in a newline, or is a line that does not. -/
theorem text_cases (stdin : List UInt8) :
    stdin = [] ∨ (∃ l R, newline ∉ l ∧ stdin = l ++ newline :: R) ∨
      (newline ∉ stdin ∧ stdin ≠ []) := by
  by_cases hnl : newline ∈ stdin
  · obtain ⟨l, R, rfl, hl⟩ := List.eq_append_cons_of_mem hnl
    exact .inr (.inl ⟨l, R, hl, rfl⟩)
  · by_cases hne : stdin = []
    · exact .inl hne
    · exact .inr (.inr ⟨hnl, hne⟩)

theorem upTo_stop (h : isStop l = true) : upTo (l :: ls) = [l] := if_pos h

theorem upTo_plain (h : isStop l = false) : upTo (l :: ls) = l :: upTo ls := by
  rw [upTo, h]
  rfl

theorem head_upTo (l : List UInt8) (ls : List (List UInt8)) : (upTo (l :: ls)).head? = some l := by
  rw [upTo]
  split <;> rfl

/-! ## The pieces of a line -/

/-- Without a newline in it, a piece is chomped to its string. -/
theorem chomped_eq_cstr (hl : newline ∉ l) : chomped l = cstr l := by
  induction l with
  | nil => rfl
  | cons b l ih =>
    rw [List.mem_cons, not_or] at hl
    have hb : (b != newline) = true := bne_iff_ne.mpr (Ne.symm hl.1)
    have hrec : l.takeWhile (fun b => b != newline && b != 0) = l.takeWhile (fun b => b ≠ 0) := ih hl.2
    rw [chomped, cstr, List.takeWhile_cons, List.takeWhile_cons, hrec, hb, Bool.true_and]
    by_cases h0 : b = 0
    · simp [h0]
    · simp [h0]

theorem typed_long (hl : newline ∉ l) (hlen : 1023 ≤ l.length) (R : List UInt8) :
    typed (l ++ R) = cstr (l.take 1023) :: typed (l.drop 1023 ++ R) := by
  have htake : newline ∉ l.take 1023 := fun h => hl (List.mem_of_mem_take h)
  have hread : fgets maxSize (l ++ R) = some (l.take 1023, l.drop 1023 ++ R) := by
    have hover := takeLine_over htake 0 (l.drop 1023 ++ R)
    rw [List.length_take, min_eq_left hlen, ← List.append_assoc, List.take_append_drop] at hover
    have hne : (l ++ R).isEmpty = false := by
      match l with
      | [] => simp at hlen
      | b :: l => rfl
    rw [fgets, hne, if_neg Bool.false_ne_true]
    exact congrArg some (hover.trans (by simp [takeLine]))
  rw [typed_cons hread, chomped_eq_cstr htake]

theorem typed_short (hl : newline ∉ l) (hlen : l.length ≤ 1022) (R : List UInt8) :
    typed (l ++ newline :: R) = cstr l :: typed R := by
  have hread := fgets_line hl (show l.length + 1 < maxSize by unfold maxSize; omega) R
  rw [typed_cons hread, ← chomped_eq_cstr hl, chomped, chomped, takeWhile_stop (by simp)]

theorem takeLine_nil (n : Nat) : takeLine n [] = ([], []) := by
  cases n <;> rfl

theorem typed_last (hl : newline ∉ l) (hne : l ≠ []) (hlen : l.length ≤ 1022) :
    typed l = [cstr l] := by
  have hread : fgets maxSize l = some (l, []) := by
    have hover := takeLine_over hl (1023 - l.length) []
    rw [List.append_nil, Nat.add_sub_cancel' (by omega), takeLine_nil, List.append_nil] at hover
    rw [fgets, if_neg (by simpa using hne)]
    exact congrArg some hover
  rw [typed_cons hread, chomped_eq_cstr hl]
  rfl

/-! ## Up to the first that stops -/

/-- There is a string that stops, and up to it the strings are the lines. -/
def Agrees (ts ls : List (List UInt8)) : Prop :=
  (∃ t ∈ ts, isStop t = true) ∧ upTo ts = upTo ls

/-- The lines up to the first that stops are sent as they are. -/
def Faithful (ls : List (List UInt8)) : Prop :=
  ∃ pre e after, ls = pre ++ e :: after ∧ isStop e = true ∧ 0 ∉ e ∧ e.length ≤ 1023 ∧
    ∀ l ∈ pre, isStop l = false ∧ 0 ∉ l ∧ l.length ≤ 1022

variable {t : List UInt8} {ts : List (List UInt8)}

theorem agrees_stop (h : isStop l = true) : Agrees (l :: ts) (l :: ls) := by
  refine ⟨⟨l, List.mem_cons_self, h⟩, ?_⟩
  rw [upTo_stop h, upTo_stop h]

theorem agrees_plain (h : isStop l = false) : Agrees (l :: ts) (l :: ls) ↔ Agrees ts ls := by
  unfold Agrees
  rw [upTo_plain h, upTo_plain h, List.cons_inj_right]
  refine and_congr_left fun _ => ?_
  simp only [List.mem_cons, exists_eq_or_imp, h, Bool.false_eq_true, false_or]

theorem not_agrees (h : t ≠ l) : ¬ Agrees (t :: ts) (l :: ls) := by
  rintro ⟨-, heq⟩
  have hhead := congrArg List.head? heq
  rw [head_upTo, head_upTo] at hhead
  exact h (Option.some.inj hhead)

theorem faithful_stop (h : isStop l = true) : Faithful (l :: ls) ↔ 0 ∉ l ∧ l.length ≤ 1023 := by
  constructor
  · rintro ⟨pre, e, after, heq, -, h0, hlen, hpre⟩
    match pre with
    | [] =>
      obtain ⟨rfl, -⟩ := List.cons.inj heq
      exact ⟨h0, hlen⟩
    | l' :: pre =>
      obtain ⟨rfl, -⟩ := List.cons.inj heq
      rw [(hpre l List.mem_cons_self).1] at h
      cases h
  · rintro ⟨h0, hlen⟩
    exact ⟨[], l, ls, rfl, h, h0, hlen, by simp⟩

theorem faithful_plain (h : isStop l = false) :
    Faithful (l :: ls) ↔ (0 ∉ l ∧ l.length ≤ 1022) ∧ Faithful ls := by
  constructor
  · rintro ⟨pre, e, after, heq, hstop, h0, hlen, hpre⟩
    match pre with
    | [] =>
      obtain ⟨rfl, -⟩ := List.cons.inj heq
      rw [hstop] at h
      cases h
    | l' :: pre =>
      obtain ⟨rfl, rfl⟩ := List.cons.inj heq
      rw [List.forall_mem_cons] at hpre
      exact ⟨hpre.1.2, pre, e, after, rfl, hstop, h0, hlen, hpre.2⟩
  · rintro ⟨hl, pre, e, after, rfl, hstop, h0, hlen, hpre⟩
    exact ⟨l :: pre, e, after, rfl, hstop, h0, hlen, List.forall_mem_cons.mpr ⟨⟨h, hl⟩, hpre⟩⟩

theorem not_faithful (h : 0 ∈ l ∨ 1024 ≤ l.length) : ¬ Faithful (l :: ls) := by
  cases hl : isStop l with
  | true =>
    rw [faithful_stop hl]
    rintro ⟨h0, hlen⟩
    exact h.elim h0 fun hge => by omega
  | false =>
    rw [faithful_plain hl]
    rintro ⟨⟨h0, hlen⟩, -⟩
    exact h.elim h0 fun hge => by omega

theorem isStop_nil : isStop [] = false := by decide

theorem typed_empty (R : List UInt8) : typed (newline :: R) = [] :: typed R :=
  typed_short List.not_mem_nil (by simp) R

/-- An empty string too many in front stays one too many. -/
theorem upTo_shifted (R : List UInt8) : [] :: upTo (typed R) ≠ upTo (lines R) := by
  induction hn : R.length using Nat.strong_induction_on generalizing R with
  | _ n ih =>
    intro heq
    obtain rfl | ⟨l, R', hl, rfl⟩ | ⟨hl, hne⟩ := text_cases R
    · cases heq
    · rw [lines_line hl] at heq
      have hhead := congrArg List.head? heq
      rw [head_upTo] at hhead
      obtain rfl : [] = l := Option.some.inj hhead
      rw [List.nil_append, typed_empty, upTo_plain isStop_nil, upTo_plain isStop_nil,
        List.cons_inj_right] at heq
      exact ih R'.length (by simp at hn; omega) R' rfl heq
    · rw [lines_last hl hne] at heq
      have hhead := congrArg List.head? heq
      rw [head_upTo] at hhead
      exact hne (Option.some.inj hhead).symm

theorem typed_nil : typed [] = [] := rfl

theorem not_agrees_nil : ¬ Agrees [] ls := by
  rintro ⟨⟨t, ht, -⟩, -⟩
  cases ht

theorem not_faithful_nil : ¬ Faithful [] := by
  rintro ⟨pre, e, after, heq, -⟩
  simp at heq

/-- Of a line with a NUL, or of one that is too long, the first string is not the line. -/
theorem typed_bad (hl : newline ∉ l) (hbad : 0 ∈ l ∨ 1024 ≤ l.length)
    (hR : R = [] ∨ ∃ R', R = newline :: R') : ∃ t ts, typed (l ++ R) = t :: ts ∧ t ≠ l := by
  by_cases hlen : 1023 ≤ l.length
  · refine ⟨_, _, typed_long hl hlen R, fun heq => ?_⟩
    rcases hbad with h0 | hlong
    · rw [← heq] at h0
      exact ne_zero_of_mem_cstr h0 rfl
    · have hle := length_cstr_le (l.take 1023)
      rw [heq, List.length_take] at hle
      omega
  · have h0 : 0 ∈ l := hbad.resolve_right (by omega)
    have hne : cstr l ≠ l := fun heq => cstr_eq_self_iff.mp heq h0
    obtain rfl | ⟨R', rfl⟩ := hR
    · rw [List.append_nil]
      exact ⟨_, _, typed_last hl (List.ne_nil_of_mem h0) (by omega), hne⟩
    · exact ⟨_, _, typed_short hl (by omega) R', hne⟩

/-- A line that is one string. -/
theorem agrees_line (h0 : 0 ∉ l) (hlen : l.length ≤ 1023)
    (hrest : isStop l = false → (Agrees ts ls ↔ l.length ≤ 1022 ∧ Faithful ls)) :
    Agrees (l :: ts) (l :: ls) ↔ Faithful (l :: ls) := by
  cases hstop : isStop l with
  | true =>
    rw [faithful_stop hstop]
    exact iff_of_true (agrees_stop hstop) ⟨h0, hlen⟩
  | false =>
    rw [agrees_plain hstop, faithful_plain hstop, hrest hstop]
    tauto

/-- By induction on the text, a line at a time. -/
theorem agrees_iff (stdin : List UInt8) :
    Agrees (typed stdin) (lines stdin) ↔ Faithful (lines stdin) := by
  induction hn : stdin.length using Nat.strong_induction_on generalizing stdin with
  | _ n ih =>
    obtain rfl | ⟨l, R, hl, rfl⟩ | ⟨hl, hne⟩ := text_cases stdin
    · exact iff_of_false not_agrees_nil not_faithful_nil
    · rw [lines_line hl]
      by_cases hbad : 0 ∈ l ∨ 1024 ≤ l.length
      · obtain ⟨t, ts, htyped, hne⟩ := typed_bad hl hbad (.inr ⟨R, rfl⟩)
        rw [htyped]
        exact iff_of_false (not_agrees hne) (not_faithful hbad)
      rw [not_or, Nat.not_le] at hbad
      have hcstr : cstr l = l := cstr_eq_self_iff.mpr hbad.1
      by_cases hlen : l.length ≤ 1022
      · have hR := ih R.length (by simp at hn; omega) R rfl
        rw [typed_short hl hlen, hcstr]
        exact agrees_line hbad.1 (by omega) fun _ => by simp [hR, hlen]
      · -- the newline is left for the next read
        have htyped : typed (l ++ newline :: R) = l :: [] :: typed R := by
          rw [typed_long hl (by omega), List.take_of_length_le (by omega), hcstr,
            List.drop_of_length_le (by omega), List.nil_append, typed_empty]
        rw [htyped]
        refine agrees_line hbad.1 (by omega) fun _ => iff_of_false ?_ fun h => hlen h.1
        rintro ⟨-, heq⟩
        rw [upTo_plain isStop_nil] at heq
        exact upTo_shifted R heq
    · rw [lines_last hl hne]
      by_cases hbad : 0 ∈ stdin ∨ 1024 ≤ stdin.length
      · obtain ⟨t, ts, htyped, hne⟩ := typed_bad hl hbad (.inl rfl)
        rw [List.append_nil] at htyped
        rw [htyped]
        exact iff_of_false (not_agrees hne) (not_faithful hbad)
      rw [not_or, Nat.not_le] at hbad
      have htyped : typed stdin = [stdin] := by
        have hcstr : cstr stdin = stdin := cstr_eq_self_iff.mpr hbad.1
        by_cases hlen : stdin.length ≤ 1022
        · rw [typed_last hl hne hlen, hcstr]
        · have h := typed_long hl (by omega) []
          rwa [List.append_nil, List.append_nil, List.take_of_length_le (by omega), hcstr,
            List.drop_of_length_le (by omega), typed_nil] at h
      rw [htyped]
      exact agrees_line hbad.1 (by omega) fun _ =>
        iff_of_false not_agrees_nil fun h => not_faithful_nil h.2

end KernelMagic.Mqueue
