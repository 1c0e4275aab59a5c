/-
  Reading a stream line by line. A stream is the list of the bytes that are still to be read; at its end
  `fgets` reads nothing and returns NULL.
-/
import KernelMagic.Lib.CString

namespace KernelMagic.Lib

def newline : UInt8 := 10

/-- The first line with its newline, or the first `n` bytes of it; and the rest. -/
def takeLine : Nat → List UInt8 → List UInt8 × List UInt8
  | 0, l => ([], l)
  | _ + 1, [] => ([], [])
  | n + 1, b :: l =>
    if b = newline then ([b], l)
    else
      let r := takeLine n l
      (b :: r.1, r.2)

/-- `fgets(buf, size, stream)`: what is stored before the NUL, and the rest of the stream. -/
def fgets (size : Nat) (stream : List UInt8) : Option (List UInt8 × List UInt8) :=
  if stream.isEmpty then none else some (takeLine (size - 1) stream)

/-- What `fgets` stores until it returns NULL, at most `fuel` times. -/
def fgetsAll (size : Nat) : Nat → List UInt8 → List (List UInt8)
  | 0, _ => []
  | fuel + 1, stream =>
    match fgets size stream with
    | none => []
    | some r => r.1 :: fgetsAll size fuel r.2

/-- A text, each line with its newline. -/
def unlines (lines : List (List UInt8)) : List UInt8 := lines.flatMap (· ++ [newline])

theorem unlines_cons (l : List UInt8) (lines : List (List UInt8)) :
    unlines (l :: lines) = l ++ newline :: unlines lines := by
  simp [unlines]

/-- A read goes on over bytes that end no line. -/
theorem takeLine_over {l : List UInt8} (hl : newline ∉ l) (n : Nat) (rest : List UInt8) :
    takeLine (l.length + n) (l ++ rest) = (l ++ (takeLine n rest).1, (takeLine n rest).2) := by
  induction l with
  | nil => simp
  | cons b l ih =>
    rw [List.mem_cons, not_or] at hl
    rw [List.length_cons, Nat.succ_add_eq_add_succ, Nat.add_succ, List.cons_append, takeLine,
      if_neg (Ne.symm hl.1), ih hl.2]
    rfl

/-- A line that fits is read with its newline. -/
theorem fgets_line {size : Nat} {l : List UInt8} (hl : newline ∉ l) (hn : l.length + 1 < size)
    (rest : List UInt8) : fgets size (l ++ newline :: rest) = some (l ++ [newline], rest) := by
  obtain ⟨n, rfl⟩ : ∃ n, size = l.length + (n + 1) + 1 := ⟨size - l.length - 2, by omega⟩
  rw [fgets, if_neg (by simp), Nat.add_sub_cancel, takeLine_over hl, takeLine, if_pos rfl]

/-! ## What `fgets` leaves -/

theorem takeLine_append (n : Nat) (l : List UInt8) : (takeLine n l).1 ++ (takeLine n l).2 = l := by
  induction n, l using takeLine.induct with
  | case1 l => rfl
  | case2 n => rfl
  | case3 n l =>
    rw [takeLine, if_pos rfl]
    rfl
  | case4 n b l hb ih =>
    rw [takeLine, if_neg hb]
    exact congrArg (b :: ·) ih

theorem takeLine_ne_nil (n : Nat) {l : List UInt8} (hl : l ≠ []) : (takeLine (n + 1) l).1 ≠ [] := by
  match l with
  | b :: l =>
    rw [takeLine]
    split <;> exact List.cons_ne_nil _ _

variable {size : Nat} {stream c rest : List UInt8}

/-- A buffer for more than the NUL is filled with something. -/
theorem fgets_shorter (hs : 1 < size) (h : fgets size stream = some (c, rest)) :
    rest.length < stream.length := by
  obtain ⟨n, rfl⟩ := Nat.exists_eq_add_of_le' hs
  unfold fgets at h
  split at h
  · cases h
  · next hne =>
    have happ := takeLine_append (n + 1) stream
    have hc := takeLine_ne_nil n (l := stream) (by simpa using hne)
    have htake : takeLine (n + 1) stream = (c, rest) := Option.some.inj h
    rw [htake] at happ hc
    simp only at happ hc
    have hpos := List.length_pos_of_ne_nil hc
    rw [← happ, List.length_append]
    omega

theorem fgetsAll_fuel (hs : 1 < size) {n m : Nat} (hn : stream.length ≤ n) (hm : stream.length ≤ m) :
    fgetsAll size n stream = fgetsAll size m stream := by
  induction n generalizing m stream with
  | zero =>
    have hnil : stream = [] := List.length_eq_zero_iff.mp (Nat.le_zero.mp hn)
    subst hnil
    cases m <;> rfl
  | succ n ih =>
    match m with
    | 0 =>
      have hnil : stream = [] := List.length_eq_zero_iff.mp (Nat.le_zero.mp hm)
      subst hnil
      rfl
    | m + 1 =>
      unfold fgetsAll
      match hf : fgets size stream with
      | none => rfl
      | some (c, rest) =>
        have hlt := fgets_shorter hs hf
        have hrest : fgetsAll size n rest = fgetsAll size m rest := ih (by omega) (by omega)
        exact congrArg (c :: ·) hrest

theorem fgetsAll_cons (hs : 1 < size) (h : fgets size stream = some (c, rest)) :
    fgetsAll size stream.length stream = c :: fgetsAll size rest.length rest := by
  have hlt := fgets_shorter hs h
  obtain ⟨n, hn⟩ := Nat.exists_eq_succ_of_ne_zero (Nat.ne_of_gt (Nat.zero_lt_of_lt hlt))
  have hrest : fgetsAll size n rest = fgetsAll size rest.length rest :=
    fgetsAll_fuel hs (by omega) (Nat.le_refl _)
  rw [hn, fgetsAll, h]
  exact congrArg (c :: ·) hrest

/-- Read to the end, nothing is lost. -/
theorem flatten_fgetsAll (hs : 1 < size) (stream : List UInt8) :
    (fgetsAll size stream.length stream).flatten = stream := by
  induction hn : stream.length using Nat.strong_induction_on generalizing stream with
  | _ n ih =>
    subst hn
    match hf : fgets size stream with
    | none =>
      have hnil : stream = [] := by
        unfold fgets at hf
        split at hf
        · next h => exact List.isEmpty_iff.mp h
        · cases hf
      rw [hnil]
      rfl
    | some (c, rest) =>
      have happ : c ++ rest = stream := by
        unfold fgets at hf
        split at hf
        · cases hf
        · have htake : takeLine (size - 1) stream = (c, rest) := Option.some.inj hf
          rw [← takeLine_append (size - 1) stream, htake]
      rw [fgetsAll_cons hs hf, List.flatten_cons, ih _ (fgets_shorter hs hf) rest rfl, happ]

/-- Nothing is read across the end of a line. -/
theorem takeLine_behind (n : Nat) (x rest : List UInt8) :
    (takeLine (n + 1) (x ++ newline :: rest)).2 = rest ∨
      ∃ y, (takeLine (n + 1) (x ++ newline :: rest)).2 = y ++ newline :: rest ∧
        y.length < x.length := by
  induction x generalizing n with
  | nil => exact .inl (by simp [takeLine])
  | cons b x ih =>
    rw [List.cons_append, takeLine]
    split
    · exact .inr ⟨x, rfl, Nat.lt_succ_self _⟩
    · match n with
      | 0 => exact .inr ⟨x, rfl, Nat.lt_succ_self _⟩
      | n + 1 =>
        obtain hr | ⟨y, hy, hlt⟩ := ih n
        · exact .inl hr
        · exact .inr ⟨y, hy, Nat.lt_succ_of_lt hlt⟩

/-- So a line is the start of a read, whatever stands before it. -/
theorem fgetsAll_newline (hs : 1 < size) (x rest : List UInt8) :
    ∃ cs, fgetsAll size (x ++ newline :: rest).length (x ++ newline :: rest) =
      cs ++ fgetsAll size rest.length rest := by
  obtain ⟨n, rfl⟩ := Nat.exists_eq_add_of_le' hs
  induction hx : x.length using Nat.strong_induction_on generalizing x with
  | _ k ih =>
    have hread : fgets (n + 2) (x ++ newline :: rest) =
        some (takeLine (n + 1) (x ++ newline :: rest)) := by
      rw [fgets, if_neg (by simp)]
      rfl
    rw [fgetsAll_cons hs hread]
    obtain hr | ⟨y, hy, hlt⟩ := takeLine_behind n x rest
    · exact ⟨[_], by rw [hr]; rfl⟩
    · obtain ⟨cs, hcs⟩ := ih y.length (by omega) y rfl
      exact ⟨_ :: cs, by rw [hy, hcs]; rfl⟩

end KernelMagic.Lib
