/-
  What the sender sends, whatever happens on the other side.

  `typed` are the strings that the sender makes of its input: what each `fgets` stores, up to the newline
  or a NUL. A line that fits into the buffer is one string (`typed_unlines`); a longer one is cut, but
  the line behind it is again the start of a string (`typed_stop`), so an input with a stop line has a
  stop string.

  Of the strings, the sender sends those up to the first that stops: `pre`, then `e` (`Script`). What it
  still has to send, `R`, is determined by where it is and by the rest of its input (`SenderAt`).
-/
import KernelMagic.Mqueue.Steps

namespace KernelMagic.Mqueue

open KernelMagic.Lib

/-! ## The strings of the input -/

/-- What is left of a read when the newline is taken away. -/
def chomped (c : List UInt8) : List UInt8 := c.takeWhile fun b => b != newline && b != 0

/-- The strings that the sender reads from its input. -/
def typed (stdin : List UInt8) : List (List UInt8) :=
  (fgetsAll maxSize stdin.length stdin).map chomped

/-- A line that fits into the buffer with its newline and its NUL. -/
structure Line (l : List UInt8) : Prop where
  length : l.length ≤ 1022
  noNul : (0 : UInt8) ∉ l
  noNewline : newline ∉ l

instance (l : List UInt8) : Decidable (Line l) :=
  decidable_of_iff (l.length ≤ 1022 ∧ (0 : UInt8) ∉ l ∧ newline ∉ l)
    ⟨fun h => ⟨h.1, h.2.1, h.2.2⟩, fun h => ⟨h.length, h.noNul, h.noNewline⟩⟩

variable {stdin c rest l x : List UInt8} {lines pre after R T : List (List UInt8)}
  {e : List UInt8} {s s' : State} {ok : Bool}

theorem typed_cons (h : fgets maxSize stdin = some (c, rest)) :
    typed stdin = chomped c :: typed rest := by
  rw [typed, fgetsAll_cons (by decide) h, List.map_cons]
  rfl

theorem zero_not_mem_typed (h : l ∈ typed stdin) : (0 : UInt8) ∉ l := by
  obtain ⟨c, -, rfl⟩ := List.mem_map.mp h
  intro h0
  simpa using List.mem_takeWhile_imp h0

theorem typed_line (hl : Line l) (rest : List UInt8) :
    typed (l ++ newline :: rest) = l :: typed rest := by
  have hlen := hl.length
  have hall : ∀ b ∈ l, (b != newline && b != 0) = true := by
    intro b hb
    simp only [Bool.and_eq_true, bne_iff_ne]
    exact ⟨fun h => hl.noNewline (h ▸ hb), fun h => hl.noNul (h ▸ hb)⟩
  rw [typed_cons (fgets_line hl.noNewline (by unfold maxSize; omega) rest), chomped,
    takeWhile_stop (by simp), List.takeWhile_eq_self_iff.mpr hall]

theorem typed_unlines (hline : ∀ l ∈ lines, Line l) : typed (unlines lines) = lines := by
  induction lines with
  | nil => rfl
  | cons l lines ih =>
    rw [List.forall_mem_cons] at hline
    rw [unlines_cons, typed_line hline.1, ih hline.2]

/-- Of a stop line, the first string stops. -/
theorem typed_of_isStop (hl : isStop l = true) (rest : List UInt8) :
    ∃ x T, typed (l ++ rest) = x :: T ∧ isStop x = true := by
  obtain ⟨r, rfl⟩ := List.isPrefixOf_iff_prefix.mp hl
  have hread : fgets maxSize (ascii "exit" ++ r ++ rest) =
      some (ascii "exit" ++ (takeLine 1019 (r ++ rest)).1, (takeLine 1019 (r ++ rest)).2) := by
    have hlen : maxSize - 1 = (ascii "exit").length + 1019 := by decide +kernel
    have hnl : newline ∉ ascii "exit" := by decide +kernel
    rw [fgets, if_neg (by simp [ascii]), List.append_assoc, hlen, takeLine_over hnl]
  refine ⟨_, _, typed_cons hread, List.isPrefixOf_iff_prefix.mpr ?_⟩
  have hexit : ∀ b ∈ ascii "exit", (b != newline && b != 0) = true := by decide +kernel
  rw [chomped, List.takeWhile_append_of_pos hexit]
  exact List.prefix_append _ _

theorem typed_stop (hstop : ∃ l ∈ lines, isStop l = true) :
    ∃ x ∈ typed (unlines lines), isStop x = true := by
  obtain ⟨l, hl, hstop⟩ := hstop
  induction lines with
  | nil => cases hl
  | cons l' lines ih =>
    rw [unlines_cons]
    rcases List.mem_cons.mp hl with rfl | hl
    · obtain ⟨x, T, hx, hs⟩ := typed_of_isStop hstop (newline :: unlines lines)
      exact ⟨x, by rw [hx]; exact List.mem_cons_self, hs⟩
    · obtain ⟨x, hx, hs⟩ := ih hl
      obtain ⟨cs, hcs⟩ := fgetsAll_newline (by decide : 1 < maxSize) l' (unlines lines)
      refine ⟨x, ?_, hs⟩
      rw [typed, hcs, List.map_append]
      exact List.mem_append_right _ hx

/-! ## Reading -/

theorem chomp_stored (c junk : List UInt8) :
    ∃ rest, chomp (c ++ 0 :: junk) = some (chomped c ++ 0 :: rest) := by
  have hscan : (c ++ 0 :: junk).takeWhile (fun b => b != newline && b != 0) = chomped c :=
    takeWhile_stop (by simp) c junk
  obtain ⟨b, r, hsplit, -⟩ := split_scan (p := fun b => b != newline && b != 0)
    (l := c ++ 0 :: junk) ⟨0, by simp, by simp⟩
  rw [hscan] at hsplit
  refine ⟨r, ?_⟩
  unfold chomp
  simp only [hscan]
  rw [hsplit, if_pos (by simp), List.set_append_right _ _ (Nat.le_refl _), Nat.sub_self]
  rfl

/-- The buffer holds this string, which has neither a newline nor a NUL. -/
def Filled (b l : List UInt8) : Prop := ∃ r, b = l ++ 0 :: r ∧ chomped l = l

theorem chomped_chomped (c : List UInt8) : chomped (chomped c) = chomped c := by
  unfold chomped
  exact List.takeWhile_idem

theorem filled_chomped (c r : List UInt8) : Filled (chomped c ++ 0 :: r) (chomped c) :=
  ⟨r, rfl, chomped_chomped c⟩

theorem Filled.cstr_eq {b : List UInt8} (h : Filled b l) : cstr b = l := by
  obtain ⟨r, rfl, hl⟩ := h
  apply cstr_append_zero
  intro x hx
  rw [← hl] at hx
  have := List.mem_takeWhile_imp hx
  simp only [Bool.and_eq_true, bne_iff_ne] at this
  exact this.2

theorem exists_typed {stdin : List UInt8} (h : stdin ≠ []) : ∃ l T, typed stdin = l :: T := by
  have hf : fgets maxSize stdin = some (takeLine (maxSize - 1) stdin) := by
    rw [fgets, if_neg (by simpa using h)]
  exact ⟨_, _, typed_cons hf⟩

theorem readStep_typed (h : typed s.stdin = l :: T) :
    ∃ buf rest, readStep s = { s with stdin := rest, buffer := buf, sender := .send } ∧
      Filled buf l ∧ typed rest = T ∧ rest.length < s.stdin.length := by
  match hf : fgets maxSize s.stdin with
  | none =>
    have hnil : s.stdin = [] := by simpa [fgets] using hf
    rw [hnil] at h
    cases h
  | some (c, rest) =>
    rw [typed_cons hf] at h
    obtain ⟨rfl, rfl⟩ := List.cons.inj h
    obtain ⟨r, hr⟩ := chomp_stored c (s.buffer.drop (c.length + 1))
    refine ⟨_, rest, ?_, filled_chomped c r, rfl, fgets_shorter (by decide) hf⟩
    simp only [readStep, fgetsInto, hf, hr]

/-! ## What is still to send -/

/-- `e` is the first of the strings that stops. -/
structure Script (pre : List (List UInt8)) (e : List UInt8) : Prop where
  noNul : ∀ l ∈ pre ++ [e], (0 : UInt8) ∉ l
  plain : ∀ l ∈ pre, isStop l = false
  stop : isStop e = true

/-- An input with a stop string, cut at the first of them. -/
theorem exists_script (hstop : ∃ l ∈ typed stdin, isStop l = true) :
    ∃ pre e after, typed stdin = pre ++ [e] ++ after ∧ Script pre e ∧
      (typed stdin).takeWhile (fun l => !isStop l) = pre ∧ (typed stdin).find? isStop = some e := by
  obtain ⟨e, he⟩ := Option.isSome_iff_exists.mp (List.find?_isSome.mpr hstop)
  obtain ⟨hse, pre, after, heq, hpre⟩ := List.find?_eq_some_iff_append.mp he
  refine ⟨pre, e, after, by simpa using heq, ⟨?_, ?_, hse⟩, ?_, he⟩
  · intro l hl
    have hmem : l ∈ typed stdin := by
      rw [heq, List.append_cons]
      exact List.mem_append_left _ hl
    exact zero_not_mem_typed hmem
  · intro l hl
    simpa using hpre l hl
  · rw [heq, List.takeWhile_append_of_pos hpre, List.takeWhile_cons_of_neg (by simp [hse]),
      List.append_nil]

/-- Where a string of the script that stops can be. -/
theorem Script.at_stop (hs : Script pre e) {D : List (List UInt8)}
    (h : D ++ l :: T = pre ++ [e]) (hl : isStop l = true) : D = pre ∧ l = e ∧ T = [] := by
  rcases List.append_eq_append_iff.mp h with ⟨c, hpre, hc⟩ | ⟨c, hG, hc⟩
  · match c with
    | [] =>
      rw [List.nil_append] at hc
      obtain ⟨rfl, rfl⟩ := List.cons.inj hc
      exact ⟨by rw [hpre, List.append_nil], rfl, rfl⟩
    | b :: c =>
      -- `l` would be one of those before
      obtain ⟨rfl, -⟩ := List.cons.inj hc
      have := hs.plain l (by rw [hpre]; simp)
      rw [hl] at this
      cases this
  · match c with
    | [] =>
      rw [List.nil_append] at hc
      obtain ⟨rfl, rfl⟩ := List.cons.inj hc
      exact ⟨by rw [hG, List.append_nil], rfl, rfl⟩
    | b :: c =>
      have := congrArg List.length hc
      simp at this

/-- A string that does not stop is not the last. -/
theorem Script.before_stop (hs : Script pre e) {D : List (List UInt8)}
    (h : D ++ l :: T = pre ++ [e]) (hl : isStop l = false) : T ≠ [] := by
  rintro rfl
  have := (List.append_inj' h rfl).2
  rw [List.singleton_inj.mp this, hs.stop] at hl
  cases hl

/-- Where the sender is when it still has to send `R`. -/
def SenderAt (e : List UInt8) (after : List (List UInt8)) (s : State) (R : List (List UInt8)) :
    Prop :=
  match s.sender with
  | .unlink => R ≠ [] ∧ typed s.stdin = R ++ after
  | .opening => R ≠ [] ∧ typed s.stdin = R ++ after
  | .read => R ≠ [] ∧ typed s.stdin = R ++ after
  | .send => ∃ R', R = cstr s.buffer :: R' ∧ typed s.stdin = R' ++ after
  | .close => R = [] ∧ s.sendStop = some e
  | .done => R = [] ∧ s.sendStop = some e
  | .fault => False

/-- The calls the sender has before it, at most. -/
def senderWork (s : State) : Nat :=
  match s.sender with
  | .unlink => 2 * s.stdin.length + 4
  | .opening => 2 * s.stdin.length + 3
  | .read => 2 * s.stdin.length + 2
  | .send => 2 * s.stdin.length + 3
  | .close => 1
  | .done => 0
  | .fault => 0

/-- Each call of the sender goes on with what it has to send. -/
theorem SenderAt.step (hs : Script pre e) (h : SenderAt e after s R) {D : List (List UInt8)}
    (hall : D ++ R = pre ++ [e]) (hok : Works s (.sender ok)) (hstep : senderStep s ok = some s') :
    ∃ R', R = outgoing s ++ R' ∧ SenderAt e after s' R' ∧ senderWork s' < senderWork s := by
  unfold outgoing
  obtain ⟨hpc, rfl⟩ | ⟨hpc, rfl⟩ | ⟨hpc, rfl⟩ | ⟨hpc, hstop, rfl⟩ | ⟨hpc, hstop, rfl⟩ | ⟨hpc, rfl⟩ :=
    senderStep_cases hok hstep
  · simp only [SenderAt, hpc] at h
    exact ⟨R, by simp [hpc], h, by simp [senderWork, hpc]⟩
  · simp only [SenderAt, hpc] at h
    obtain ⟨n, qs, f, hopened⟩ := mqOpen_snd s
    rw [hopened]
    exact ⟨R, by simp [hpc], h, by simp [senderWork, hpc]⟩
  · simp only [SenderAt, hpc] at h
    obtain ⟨l, R', rfl⟩ := List.exists_cons_of_ne_nil h.1
    obtain ⟨buf, rest, hread, hbuf, hrest, hlt⟩ := readStep_typed (by rw [h.2, List.cons_append])
    obtain rfl := hbuf.cstr_eq
    refine ⟨cstr buf :: R', by simp [hpc], ?_, ?_⟩
    · rw [hread]
      exact ⟨R', rfl, hrest⟩
    · rw [hread]
      simp only [senderWork, hpc]
      omega
  · simp only [SenderAt, hpc] at h
    obtain ⟨R', rfl, -⟩ := h
    obtain ⟨-, hl, hR⟩ := hs.at_stop hall hstop
    refine ⟨R', by simp [hpc], ⟨hR, by rw [hl]⟩, ?_⟩
    simp only [senderWork, hpc]
    omega
  · simp only [SenderAt, hpc] at h
    obtain ⟨R', rfl, hin⟩ := h
    refine ⟨R', by simp [hpc], ⟨hs.before_stop hall hstop, hin⟩, ?_⟩
    simp only [senderWork, hpc, posted]
    omega
  · simp only [SenderAt, hpc] at h
    exact ⟨R, by simp [hpc], h, by simp [senderWork, hpc]⟩

/-- No call of the receiver does. -/
theorem SenderAt.receiver_step (h : SenderAt e after s R) (hok : Works s (.receiver ok))
    (hstep : receiverStep s ok = some s') :
    SenderAt e after s' R ∧ senderWork s' = senderWork s := by
  obtain ⟨hpc, hin, hbuf, hstop⟩ := receiverStep_frame hok hstep
  unfold SenderAt senderWork at *
  rw [hpc, hin, hbuf, hstop]
  exact ⟨h, rfl⟩

end KernelMagic.Mqueue
