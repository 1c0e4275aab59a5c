/-
  Strings in arrays of bytes: the bytes before the first NUL, and the bounded copy that always leaves
  one (`bpf_probe_read_str`). The copy does not touch the bytes of the array behind the NUL.

  `strstr`, `strtok` and `printStr` (the `%s` of `printf`) go through an array without knowing its
  length; `none` is a read past its end.
-/
import Mathlib

namespace KernelMagic.Lib

/-- The bytes of a string literal, without the NUL. -/
def ascii (s : String) : List UInt8 := s.toList.map fun c => c.toNat.toUInt8

/-- The string that starts at the first of the bytes. -/
def cstr (l : List UInt8) : List UInt8 := l.takeWhile (· ≠ 0)

theorem ne_zero_of_mem_cstr {l : List UInt8} {b : UInt8} (h : b ∈ cstr l) : b ≠ 0 := by
  simpa using List.mem_takeWhile_imp h

theorem cstr_append_zero {l r : List UInt8} (h : ∀ b ∈ l, b ≠ 0) : cstr (l ++ 0 :: r) = l := by
  unfold cstr
  rw [List.takeWhile_append_of_pos (by simpa using h)]
  simp

theorem length_cstr_le (l : List UInt8) : (cstr l).length ≤ l.length :=
  (List.takeWhile_sublist _).length_le

theorem cstr_eq_self_iff {l : List UInt8} : cstr l = l ↔ 0 ∉ l := by
  rw [cstr, List.takeWhile_eq_self_iff]
  constructor
  · intro h h0
    exact absurd (h 0 h0) (by decide)
  · intro h b hb
    exact decide_eq_true fun h0 => h (h0 ▸ hb)

/-- A string starts the array if and only if it starts the string in the array. -/
theorem prefix_cstr_iff {s l : List UInt8} (h : 0 ∉ s) : s <+: cstr l ↔ s <+: l := by
  constructor
  · exact fun hs => hs.trans (List.takeWhile_prefix _)
  · rintro ⟨r, rfl⟩
    have hs : ∀ b ∈ s, decide (b ≠ 0) = true := fun b hb => decide_eq_true fun h0 => h (h0 ▸ hb)
    rw [cstr, List.takeWhile_append_of_pos hs]
    exact List.prefix_append _ _

theorem length_flatten_cstr_le (ls : List (List UInt8)) :
    (ls.map cstr).flatten.length ≤ ls.flatten.length := by
  induction ls with
  | nil => exact Nat.le_refl 0
  | cons l ls ih =>
    simp only [List.map_cons, List.flatten_cons, List.length_append]
    exact Nat.add_le_add (length_cstr_le l) ih

/-- Taking pieces for strings loses something of the whole if there is a NUL in it, and else nothing. -/
theorem flatten_cstr_eq_iff (ls : List (List UInt8)) :
    (ls.map cstr).flatten = ls.flatten ↔ 0 ∉ ls.flatten := by
  induction ls with
  | nil => exact iff_of_true rfl List.not_mem_nil
  | cons l ls ih =>
    rw [List.map_cons, List.flatten_cons, List.flatten_cons, List.mem_append, not_or, ← ih,
      ← cstr_eq_self_iff]
    constructor
    · intro h
      have hlen := congrArg List.length h
      rw [List.length_append, List.length_append] at hlen
      have hl := length_cstr_le l
      have hls := length_flatten_cstr_le ls
      exact List.append_inj h (by omega)
    · rintro ⟨hl, hls⟩
      rw [hl, hls]

/-- Copy the string at `src` into an array, as far as it fits before a NUL. -/
def readStr {n : Nat} (dst : List.Vector UInt8 (n + 1)) (src : List UInt8) :
    List.Vector UInt8 (n + 1) :=
  ⟨(cstr src).take n ++ 0 :: dst.1.drop (((cstr src).take n).length + 1), by
    have hlen := dst.2
    simp only [List.length_append, List.length_cons, List.length_drop, List.length_take, hlen]
    omega⟩

theorem cstr_readStr {n : Nat} (dst : List.Vector UInt8 (n + 1)) (src : List UInt8) :
    cstr (readStr dst src).1 = (cstr src).take n :=
  cstr_append_zero fun _ hb => ne_zero_of_mem_cstr (List.mem_of_mem_take hb)

/-! ## Reading an array as a string -/

/-- Whether the string at the start of the array contains `needle`. -/
def strstr (needle : List UInt8) : List UInt8 → Option Bool
  | [] => none
  | b :: l =>
    if b = 0 then some false
    else if needle.isPrefixOf (b :: l) then some true
    else strstr needle l

def printStr (l : List UInt8) : Option (List UInt8) := if 0 ∈ l then some (cstr l) else none

/-- The search ends at the NUL at the latest. -/
theorem strstr_isSome (needle : List UInt8) {l : List UInt8} (h : 0 ∈ l) :
    (strstr needle l).isSome = true := by
  induction l with
  | nil => cases h
  | cons b l ih =>
    unfold strstr
    by_cases hb : b = 0
    · rw [if_pos hb]
      rfl
    · rw [if_neg hb]
      split
      · rfl
      · exact ih ((List.mem_cons.mp h).resolve_left (Ne.symm hb))

/-- Without one it ends only where `needle` is found. -/
theorem strstr_ne_false {needle l : List UInt8} (h : 0 ∉ l) : strstr needle l ≠ some false := by
  induction l with
  | nil => exact fun hn => nomatch hn
  | cons b l ih =>
    rw [List.mem_cons, not_or] at h
    unfold strstr
    rw [if_neg (Ne.symm h.1)]
    split
    · exact fun hn => nomatch hn
    · exact ih h.2

/-- In an array with a NUL the search is for the needle in the string. -/
theorem strstr_eq {needle l : List UInt8} (hn : 0 ∉ needle) (hne : needle ≠ []) (h : 0 ∈ l) :
    strstr needle l = some (decide (needle <:+: cstr l)) := by
  induction l with
  | nil => cases h
  | cons b l ih =>
    unfold strstr
    by_cases hb : b = 0
    · have hnil : ¬ needle <:+: cstr (b :: l) := by
        rw [cstr, hb, List.takeWhile_cons_of_neg (by decide), List.infix_nil]
        exact hne
      rw [if_pos hb, decide_eq_false hnil]
    · have hcons : cstr (b :: l) = b :: cstr l := List.takeWhile_cons_of_pos (by simpa using hb)
      have hinfix : needle <:+: cstr (b :: l) ↔ needle <+: b :: l ∨ needle <:+: cstr l := by
        rw [hcons, List.infix_cons_iff, ← hcons, prefix_cstr_iff hn]
      rw [if_neg hb, ih ((List.mem_cons.mp h).resolve_left (Ne.symm hb)), decide_eq_decide.mpr hinfix]
      by_cases hp : needle <+: b :: l
      · rw [if_pos (List.isPrefixOf_iff_prefix.mpr hp), decide_eq_true (.inl hp)]
      · rw [if_neg fun h => hp (List.isPrefixOf_iff_prefix.mp h), Bool.decide_or,
          decide_eq_false hp, Bool.false_or]

/-! ## Scans

  How far a scan goes that stops at the first byte without `p`. -/

theorem takeWhile_stop {p : UInt8 → Bool} {e : UInt8} (he : p e = false) (l r : List UInt8) :
    (l ++ e :: r).takeWhile p = l.takeWhile p := by
  induction l with
  | nil => simp [he]
  | cons b l ih =>
    rw [List.cons_append, List.takeWhile_cons, List.takeWhile_cons, ih]

/-- What is behind a NUL does not belong to the string. -/
theorem cstr_append_of_mem {l : List UInt8} (h : 0 ∈ l) (r : List UInt8) : cstr (l ++ r) = cstr l := by
  obtain ⟨s, t, rfl⟩ := List.append_of_mem h
  have hstop : decide ((0 : UInt8) ≠ 0) = false := rfl
  rw [List.append_assoc, List.cons_append, cstr, takeWhile_stop hstop, cstr, takeWhile_stop hstop]

theorem cstr_append_of_notMem {l : List UInt8} (h : 0 ∉ l) (r : List UInt8) :
    cstr (l ++ r) = l ++ cstr r :=
  List.takeWhile_append_of_pos fun _ hb => decide_eq_true fun hb0 => h (hb0 ▸ hb)

theorem cstr_cons_eq_nil_iff {b : UInt8} {l : List UInt8} : cstr (b :: l) = [] ↔ b = 0 := by
  unfold cstr
  rw [List.takeWhile_cons]
  split
  · next h => exact iff_of_false (fun hn => by cases hn) (by simpa using h)
  · next h => exact iff_of_true rfl (by simpa using h)

/-- A string goes on behind the bytes it began in if there is neither a NUL in them nor right behind
    them. -/
theorem cstr_append_eq_iff {l r : List UInt8} : cstr (l ++ r) = cstr l ↔ 0 ∈ l ∨ cstr r = [] := by
  by_cases h : 0 ∈ l
  · exact iff_of_true (cstr_append_of_mem h r) (.inl h)
  · rw [cstr_append_of_notMem h, cstr_eq_self_iff.mpr h, List.append_right_eq_self, or_iff_right h]

theorem printStr_append_eq_iff {l r : List UInt8} :
    printStr (l ++ r) = some (cstr l) ↔ 0 ∈ l ∨ r.head? = some 0 := by
  unfold printStr
  by_cases hl : 0 ∈ l
  · rw [if_pos (List.mem_append_left r hl), cstr_append_of_mem hl]
    exact iff_of_true rfl (.inl hl)
  rw [or_iff_right hl]
  cases r with
  | nil =>
    rw [List.append_nil, if_neg hl]
    exact iff_of_false (fun h => by cases h) (fun h => by cases h)
  | cons b r =>
    rw [List.head?_cons, Option.some.injEq]
    split
    · rw [Option.some.injEq, cstr_append_eq_iff, or_iff_right hl, cstr_cons_eq_nil_iff]
    · next h =>
      refine iff_of_false (fun hn => by cases hn) fun hb => h ?_
      rw [hb]
      exact List.mem_append_right l List.mem_cons_self

theorem dropWhile_stop {p : UInt8 → Bool} {e : UInt8} (he : p e = false) (l r : List UInt8) :
    (l ++ e :: r).dropWhile p = l.dropWhile p ++ e :: r := by
  induction l with
  | nil => simp [he]
  | cons b l ih =>
    rw [List.cons_append, List.dropWhile_cons, List.dropWhile_cons, ih]
    split <;> rfl

theorem split_scan {p : UInt8 → Bool} {l : List UInt8} (h : ∃ b ∈ l, p b = false) :
    ∃ e r, l = l.takeWhile p ++ e :: r ∧ p e = false := by
  induction l with
  | nil =>
    obtain ⟨b, hb, -⟩ := h
    cases hb
  | cons b l ih =>
    by_cases hb : p b = true
    · obtain ⟨b', hm, hb'⟩ := h
      have hl : b' ∈ l := by
        refine (List.mem_cons.mp hm).resolve_left ?_
        rintro rfl
        rw [hb] at hb'
        cases hb'
      obtain ⟨e, r, hlr, he⟩ := ih ⟨b', hl, hb'⟩
      refine ⟨e, r, ?_, he⟩
      rw [List.takeWhile_cons, if_pos hb, List.cons_append, ← hlr]
    · refine ⟨b, l, ?_, Bool.not_eq_true _ ▸ hb⟩
      rw [List.takeWhile_cons, if_neg hb, List.nil_append]

/-! ## Tokens -/

/-- `strtok` with one delimiter, from position `p` of the array on: the position of the token (`none`
    for NULL), the saved position, and the array, in which the end of the token is now a NUL. -/
def strtok (delim : UInt8) (mem : List UInt8) (p : Nat) : Option (Option Nat × Nat × List UInt8) :=
  let start := p + ((mem.drop p).takeWhile (· == delim)).length
  match mem.drop start with
  | [] => none
  | b :: _ =>
    if b = 0 then some (none, start, mem)
    else
      let stop := start + ((mem.drop start).takeWhile fun b => b != delim && b != 0).length
      match mem.drop stop with
      | [] => none
      | e :: _ => some (some start, if e = 0 then stop else stop + 1, mem.set stop 0)

variable {delim : UInt8} {skip tok : List UInt8}

/-- The delimiters in front are skipped. -/
theorem strtok_skip (rest : List UInt8) (hskip : ∀ b ∈ skip, b = delim)
    (hrest : rest.head? ≠ some delim) :
    ((skip ++ rest).takeWhile (· == delim)).length = skip.length := by
  rw [List.takeWhile_append_of_pos (by simpa using hskip)]
  match rest with
  | [] => simp
  | b :: l =>
    have hb : b ≠ delim := by simpa using hrest
    simp [hb]

theorem drop_start (pre skip rest : List UInt8) :
    (pre ++ (skip ++ rest)).drop (pre.length + skip.length) = rest := by
  rw [← List.append_assoc, ← List.length_append, List.drop_left]

theorem strtok_null {pre rest : List UInt8} (hskip : ∀ b ∈ skip, b = delim) (hd : delim ≠ 0) :
    strtok delim (pre ++ (skip ++ 0 :: rest)) pre.length =
      some (none, pre.length + skip.length, pre ++ (skip ++ 0 :: rest)) := by
  have hlen := strtok_skip (0 :: rest) hskip (by simpa using hd.symm)
  unfold strtok
  simp only [List.drop_left, hlen, drop_start, if_true]

/-- The scan of a token stops at the first byte that is a delimiter or NUL. -/
theorem strtok_scan (rest : List UInt8) (htok : ∀ b ∈ tok, b ≠ delim ∧ b ≠ 0)
    (hrest : ∀ b ∈ rest.head?, b = delim ∨ b = 0) :
    ((tok ++ rest).takeWhile fun b => b != delim && b != 0).length = tok.length := by
  rw [List.takeWhile_append_of_pos (by simpa using htok)]
  match rest with
  | [] => simp
  | b :: l =>
    have hb : b = delim ∨ b = 0 := hrest b rfl
    rcases hb with rfl | rfl <;> simp

theorem strtok_token (pre rest : List UInt8) {e : UInt8} (hskip : ∀ b ∈ skip, b = delim)
    (hne : tok ≠ []) (htok : ∀ b ∈ tok, b ≠ delim ∧ b ≠ 0) (he : e = delim ∨ e = 0) :
    ∃ save, strtok delim (pre ++ (skip ++ (tok ++ e :: rest))) pre.length =
      some (some (pre.length + skip.length), save, pre ++ (skip ++ (tok ++ 0 :: rest))) := by
  obtain ⟨b, l, rfl⟩ := List.exists_cons_of_ne_nil hne
  have hb := htok b List.mem_cons_self
  have hlen := strtok_skip ((b :: l) ++ e :: rest) hskip (by simpa using hb.1)
  have hscan := strtok_scan (e :: rest) htok (by simpa using he)
  have hstop : (pre ++ (skip ++ ((b :: l) ++ e :: rest))).drop
      (pre.length + skip.length + (b :: l).length) = e :: rest := by
    rw [← List.append_assoc, ← List.append_assoc, ← List.length_append, ← List.length_append,
      List.drop_left]
  have hset : (pre ++ (skip ++ ((b :: l) ++ e :: rest))).set
      (pre.length + skip.length + (b :: l).length) 0 = pre ++ (skip ++ ((b :: l) ++ 0 :: rest)) := by
    rw [List.set_append_right _ _ (by omega), List.set_append_right _ _ (by omega),
      List.set_append_right _ _ (by omega)]
    have hz : pre.length + skip.length + (b :: l).length - pre.length - skip.length -
        (b :: l).length = 0 := by omega
    rw [hz]
    rfl
  refine ⟨if e = 0 then pre.length + skip.length + (b :: l).length
    else pre.length + skip.length + (b :: l).length + 1, ?_⟩
  unfold strtok
  simp only [List.drop_left, hlen, drop_start, hscan, hstop, hset]
  rw [List.cons_append]
  simp only [if_neg hb.2]

/-- Without an end of the token the scan leaves the array. -/
theorem strtok_past (pre : List UInt8) (hskip : ∀ b ∈ skip, b = delim)
    (htok : ∀ b ∈ tok, b ≠ delim ∧ b ≠ 0) :
    strtok delim (pre ++ (skip ++ tok)) pre.length = none := by
  have hhead : tok.head? ≠ some delim := by
    intro h
    exact (htok delim (List.mem_of_mem_head? h)).1 rfl
  have hlen := strtok_skip tok hskip hhead
  unfold strtok
  simp only [List.drop_left, hlen, drop_start]
  match tok with
  | [] => rfl
  | b :: l =>
    have hscan := strtok_scan [] htok (by simp)
    rw [List.append_nil] at hscan
    simp only [hscan, if_neg (htok b List.mem_cons_self).2]
    have hstop : (pre ++ (skip ++ (b :: l))).drop (pre.length + skip.length + (b :: l).length) =
        [] := by
      rw [List.drop_eq_nil_iff]
      simp only [List.length_append]
      omega
    rw [hstop]

end KernelMagic.Lib
