/-
  The sender alone, turn by turn: it can be made to pass every string of its input, and behind the end of
  the input the last string for ever.

  A turn in which `mq_send` fails leaves the queues as they are, so these runs need no receiver, and
  whatever the sender does on its own input it does in some run. With them the input law is exact
  (`input_law_iff`): it holds in all runs of the inputs in which the lines up to the first stop line are
  sent as they are (`Faithful`), and is broken in some run of every other.
-/
import KernelMagic.Mqueue.Passed

namespace KernelMagic.Mqueue

open KernelMagic.Lib

/-- On the schedule the sender passes these strings and comes from `s` to `t`; if none of them stops,
    all calls for a stop message succeed. -/
structure Drive (s : State) (acts : List Act) (strs : List (List UInt8)) (t : State) : Prop where
  run : run step s acts = some t
  strings : passed s acts = strs
  sent : (∀ l ∈ strs, isStop l = false) → Along step StopSent s acts

/-- One turn of the loop, and `mq_send` fails. -/
def turn : List Act := [.sender true, .sender false]

/-- The sender is about to read; `rest` is the rest of the input, `b` its buffer. -/
def reading (s : State) (rest b : List UInt8) : State :=
  { s with stdin := rest, buffer := b, sender := .read }

variable {s t u : State} {as bs : List Act} {ls ms T : List (List UInt8)}
  {l b rest junk stdin : List UInt8}

theorem passed_append (hr : run step s as = some t) :
    passed s (as ++ bs) = passed s as ++ passed t bs := by
  unfold passed
  rw [record_append hr, record_shift]

theorem Drive.append (h : Drive s as ls t) (h' : Drive t bs ms u) :
    Drive s (as ++ bs) (ls ++ ms) u where
  run := run_append_eq_some.mpr ⟨t, h.run, h'.run⟩
  strings := by rw [passed_append h.run, h.strings, h'.strings]
  sent hplain := by
    rw [List.forall_mem_append] at hplain
    exact (along_append h.run).mpr ⟨h.sent hplain.1, h'.sent hplain.2⟩

theorem Drive.refl (s : State) : Drive s [] [] s := ⟨rfl, rfl, fun _ => trivial⟩

/-! ## Reading -/

/-- At the end of the input the string stays. -/
theorem readStep_again (h : s.stdin = []) (hb : Filled s.buffer l) :
    ∃ b, readStep s = { s with buffer := b, sender := .send } ∧ Filled b l := by
  obtain ⟨junk, hbuf, hl⟩ := hb
  obtain ⟨r, hr⟩ := chomp_stored l junk
  rw [← hbuf, hl] at hr
  refine ⟨_, ?_, r, rfl, hl⟩
  simp only [readStep, fgetsInto, h, fgets, List.isEmpty_nil, if_true, hr]

theorem filled_of_chomp (hb : chomp l = some b) : Filled b (chomped l) := by
  have htake : chomped l = l.take (chomped l).length :=
    List.prefix_iff_eq_take.mp (List.takeWhile_prefix _)
  unfold chomp at hb
  simp only at hb
  split at hb
  · next hlt =>
    have hlt : (chomped l).length < l.length := hlt
    obtain rfl := Option.some.inj hb
    refine ⟨l.drop ((chomped l).length + 1), ?_, chomped_chomped l⟩
    have hset := List.set_eq_take_append_cons_drop (l := l) (i := (chomped l).length) (a := 0)
    rw [if_pos hlt, ← htake] at hset
    exact hset
  · cases hb

/-- What is in the buffer before the first read is a string if it has an end. -/
theorem readStep_junk (h : s.stdin = []) (hb : chomp s.buffer = some b) :
    readStep s = { s with buffer := b, sender := .send } := by
  simp only [readStep, fgetsInto, h, fgets, List.isEmpty_nil, if_true, hb]

/-! ## Turns -/

theorem drive_turn (hpc : s.sender = .read)
    (hread : readStep s = { s with stdin := rest, buffer := b, sender := .send }) :
    Drive s turn [cstr b] (reading s rest b) := by
  have h1 : step s (.sender true) = some { s with stdin := rest, buffer := b, sender := .send } := by
    simp only [step, senderStep, hpc, hread]
  have h2 : step { s with stdin := rest, buffer := b, sender := .send } (.sender false) =
      some (reading s rest b) := rfl
  refine ⟨?_, ?_, fun hplain => ?_⟩
  · rw [turn, run_cons, h1, Option.bind_some, run_cons, h2]
    rfl
  · rw [passed, turn, record_cons h1, record_cons h2]
    simp only [record, passing, outgoing, hpc, reduceCtorEq, if_false, if_true, List.nil_append]
  · rw [turn, along_cons h1, along_cons h2]
    refine ⟨fun hsend => ?_, fun _ hstop => ?_, trivial⟩
    · rw [hpc] at hsend
      cases hsend
    · rw [hplain _ (List.mem_singleton_self _)] at hstop
      cases hstop

theorem drive_typed (hpc : s.sender = .read) (h : typed s.stdin = ls ++ T) :
    ∃ acts b rest, Drive s acts ls (reading s rest b) ∧ typed rest = T := by
  induction ls generalizing s with
  | nil =>
    have hs : s = reading s s.stdin s.buffer := by
      rw [reading, ← hpc]
    exact ⟨[], s.buffer, s.stdin, hs ▸ Drive.refl s, h⟩
  | cons l ls ih =>
    obtain ⟨b, rest, hread, hb, hrest, -⟩ := readStep_typed h
    have hturn := drive_turn hpc hread
    rw [hb.cstr_eq] at hturn
    obtain ⟨acts, b', rest', hdrive, hT⟩ := ih (s := reading s rest b) rfl hrest
    exact ⟨_, b', rest', hturn.append hdrive, hT⟩

/-- A turn in which `mq_send` succeeds. -/
theorem send_turn (hpc : s.sender = .read)
    (hread : readStep s = { s with stdin := rest, buffer := b, sender := .send })
    (hroom : (s.queues s.sendMq).length < maxMsg) :
    ∃ t, run step s [.sender true, .sender true] = some t ∧
      passed s [.sender true, .sender true] = [cstr b] ∧
      t.queues s.sendMq = s.queues s.sendMq ++ [message (cstr b)] ∧
      (isStop (cstr b) = true → t.sendStop = some (cstr b)) := by
  have h1 : step s (.sender true) = some { s with stdin := rest, buffer := b, sender := .send } := by
    simp only [step, senderStep, hpc, hread]
  obtain ⟨t, h2, hq, hstop⟩ : ∃ t,
      step { s with stdin := rest, buffer := b, sender := .send } (.sender true) = some t ∧
        t.queues s.sendMq = s.queues s.sendMq ++ [message (cstr b)] ∧
        (isStop (cstr b) = true → t.sendStop = some (cstr b)) := by
    simp only [step, senderStep, sendStep, if_true, mqSend, if_pos hroom, Option.map_some]
    by_cases hb : isStop (cstr b) = true
    · rw [if_pos hb]
      exact ⟨_, rfl, Function.update_self _ _ _, fun _ => rfl⟩
    · rw [if_neg hb]
      exact ⟨_, rfl, Function.update_self _ _ _, fun h => absurd h hb⟩
  refine ⟨t, ?_, ?_, hq, hstop⟩
  · rw [run_cons, h1, Option.bind_some, run_cons, h2]
    rfl
  · rw [passed, record_cons h1, record_cons h2]
    simp only [record, passing, outgoing, hpc, reduceCtorEq, if_false, if_true, List.nil_append]

/-- No string that stops is to come, and there is always a string. -/
structure Endless (s : State) : Prop where
  reads : s.sender = .read
  plain : ∀ l ∈ typed s.stdin, isStop l = false
  last : s.stdin = [] → ∃ l, Filled s.buffer l ∧ isStop l = false

theorem Endless.turn (h : Endless s) :
    ∃ l b rest, Drive s turn [l] (reading s rest b) ∧ isStop l = false ∧
      Endless (reading s rest b) := by
  by_cases hnil : s.stdin = []
  · obtain ⟨l, hl, hstop⟩ := h.last hnil
    obtain ⟨b, hread, hb⟩ := readStep_again hnil hl
    have hdrive : Drive s Mqueue.turn [cstr b] (reading s s.stdin b) := drive_turn h.reads hread
    rw [hb.cstr_eq] at hdrive
    exact ⟨l, b, s.stdin, hdrive, hstop, rfl, h.plain, fun _ => ⟨l, hb, hstop⟩⟩
  · obtain ⟨l, T, hin⟩ := exists_typed hnil
    have hplain := h.plain
    rw [hin, List.forall_mem_cons] at hplain
    obtain ⟨b, rest, hread, hb, hrest, -⟩ := readStep_typed hin
    have hdrive := drive_turn h.reads hread
    rw [hb.cstr_eq] at hdrive
    refine ⟨_, b, rest, hdrive, hplain.1, rfl, ?_, fun _ => ⟨_, hb, hplain.1⟩⟩
    rw [show (reading s rest b).stdin = rest from rfl, hrest]
    exact hplain.2

/-- So any number of strings can be passed. -/
theorem Endless.drive (h : Endless s) (n : Nat) :
    ∃ acts ls t, Drive s acts ls t ∧ ls.length = n ∧ ∀ l ∈ ls, isStop l = false := by
  induction n generalizing s with
  | zero => exact ⟨[], [], s, Drive.refl s, rfl, by simp⟩
  | succ n ih =>
    obtain ⟨l, b, rest, hturn, hl, h'⟩ := h.turn
    obtain ⟨acts, ls, t, hdrive, hlen, hplain⟩ := ih h'
    exact ⟨_, _, t, hturn.append hdrive, by simp [hlen], List.forall_mem_cons.mpr ⟨hl, hplain⟩⟩

/-! ## The input law -/

/-- The sender has made its queue. -/
def opened (old : Option (List (List UInt8))) (junk stdin : List UInt8) : State :=
  { init old junk stdin with
    name := some 1
    queues := Function.update (fun _ => old.getD []) 1 []
    fresh := 2
    sender := .read
    sendMq := 1 }

theorem drive_opened (old : Option (List (List UInt8))) (junk stdin : List UInt8) :
    Drive (init old junk stdin) [.sender true, .sender true] [] (opened old junk stdin) where
  run := rfl
  strings := rfl
  sent _ := ⟨fun _ _ => rfl, fun _ _ => ⟨fun _ _ => rfl, fun _ _ => trivial⟩⟩

theorem room_opened (old : Option (List (List UInt8))) (junk stdin rest b : List UInt8) :
    ((reading (opened old junk stdin) rest b).queues 1).length < maxMsg := by
  simp [reading, opened, maxMsg]

/-- A schedule of calls of the sender that all succeed. -/
theorem stopSent_all (s : State) {acts : List Act} (h : ∀ a ∈ acts, a = .sender true) :
    Along step StopSent s acts := by
  refine along_of_forall ?_ s acts h
  rintro s a rfl _ _
  rfl

/-- In every run, whatever is left in the queue and in the buffer, the strings passed are the lines. -/
def InputLaw (junk stdin : List UInt8) : Prop :=
  ∀ old acts s, Along step StopSent (init old junk stdin) acts →
    run step (init old junk stdin) acts = some s → Obeys stdin acts (init old junk stdin) s

/-- With a stop string in the input, the run that goes on to it shows what has been passed. -/
theorem InputLaw.agrees_of_stop (h : InputLaw junk stdin) (hstop : ∃ t ∈ typed stdin, isStop t = true) :
    Agrees (typed stdin) (lines stdin) := by
  obtain ⟨pre, e, after, hsplit, hs, -, -⟩ := exists_script hstop
  have hopen := drive_opened none junk stdin
  have hin : typed (opened none junk stdin).stdin = pre ++ e :: after := by
    rw [List.append_cons]
    exact hsplit
  obtain ⟨acts, b, rest, hdrive, hrest⟩ := drive_typed rfl hin
  obtain ⟨b', rest', hread, hb, -⟩ :=
    readStep_typed (s := reading (opened none junk stdin) rest b) hrest
  obtain ⟨t, hr, hpassed, -, hsent⟩ := send_turn rfl hread (room_opened none junk stdin rest b)
  rw [hb.cstr_eq] at hpassed hsent
  have hto := hopen.append hdrive
  have hobeys := h none _ t
    ((along_append hto.run).mpr ⟨hto.sent (by simpa using hs.plain), stopSent_all _ (by simp)⟩)
    (run_append_eq_some.mpr ⟨_, hto.run, hr⟩)
  have hall := hobeys.all (by rw [hsent hs.stop]; simp)
  rw [passed_append hto.run, hto.strings, hpassed, List.nil_append] at hall
  refine ⟨hstop, ?_⟩
  rw [hsplit, upTo_script hs, hall]

/-- Without one, something is passed that should not be. -/
theorem InputLaw.stops (h : InputLaw junk stdin) : ∃ t ∈ typed stdin, isStop t = true := by
  by_contra hno
  push Not at hno
  have hopen := drive_opened none junk stdin
  by_cases hnil : stdin = []
  · -- the buffer is read as it is found
    subst hnil
    cases hb : chomp junk with
    | none =>
      have hread : run step (opened none junk []) [.sender true] =
          some { opened none junk [] with sender := .fault } := by
        simp only [run, step, senderStep, opened, init, readStep, fgetsInto, fgets, List.isEmpty_nil,
          if_true, hb, Option.bind_some]
      have hobeys := h none _ _ (stopSent_all _ (by simp))
        (run_append_eq_some.mpr ⟨_, hopen.run, hread⟩)
      exact hobeys.inside rfl
    | some b =>
      have hread := readStep_junk (s := opened none junk []) rfl hb
      obtain ⟨t, hr, hpassed, -, -⟩ := send_turn rfl hread (room_opened none junk [] [] junk)
      have horder := (h none _ t (stopSent_all _ (by simp))
        (run_append_eq_some.mpr ⟨_, hopen.run, hr⟩)).order
      rw [passed_append hopen.run, hopen.strings, hpassed, List.nil_append] at horder
      exact Nat.not_succ_le_zero 0 horder.length_le
  · have hend : Endless (opened none junk stdin) :=
      ⟨rfl, fun l hl => by simpa using hno l hl, fun h => absurd h hnil⟩
    obtain ⟨acts, ls, t, hdrive, hlen, hplain⟩ := hend.drive ((upTo (lines stdin)).length + 1)
    have hto := hopen.append hdrive
    have horder := (h none _ t (hto.sent hplain) hto.run).order
    rw [hto.strings, List.nil_append] at horder
    have := horder.length_le
    omega

/-- **The input law.** It holds if and only if there is a line that stops, and the lines up to it are
    such that each is one string. -/
theorem input_law_iff (junk stdin : List UInt8) : InputLaw junk stdin ↔ Faithful (lines stdin) := by
  rw [← agrees_iff]
  constructor
  · exact fun h => h.agrees_of_stop h.stops
  · exact fun h old acts s hok hr => obeys_of_agrees h old junk hok hr

/-- One line and no stop line: it is sent again. -/
theorem input_repeated :
    ∃ s, run step (init none [] (ascii "a\n")) (List.replicate 6 (.sender true)) = some s ∧
      passed (init none [] (ascii "a\n")) (List.replicate 6 (.sender true)) =
        [ascii "a", ascii "a"] ∧
      ¬ InputLaw [] (ascii "a\n") := by
  have hr : (run step (init none [] (ascii "a\n")) (List.replicate 6 (.sender true))).isSome = true := by
    decide +kernel
  have hp : passed (init none [] (ascii "a\n")) (List.replicate 6 (.sender true)) =
      [ascii "a", ascii "a"] := by
    decide +kernel
  have hlines : (upTo (lines (ascii "a\n"))).length = 1 := by decide +kernel
  obtain ⟨s, hr⟩ := Option.isSome_iff_exists.mp hr
  refine ⟨s, hr, hp, fun h => ?_⟩
  have horder := (h none _ s (stopSent_all _ (by simp)) hr).order.length_le
  rw [hp, hlines] at horder
  exact absurd horder (by decide)

end KernelMagic.Mqueue
