/-
  What the two programs show of the events they walk through.

  `display_event` prints the string behind the header of a record. The kernel ends a name with a NUL, but
  a record of an event on the watched directory itself has no name (`Bare`), and then the string begins
  in the header of the next record, with the descriptor of its watch. Behind the last record it begins in
  the rest of the array, which `memset` has cleared, or behind the array if that is full.

  Nor has an event whose mask meets none of the tests anything to print: `operate` is not set. The
  kernel reports one when its queue overflows.

  So the lines are right if and only if there is no such event, and records without a name are followed
  by nothing that looks like one (`Legible`, `events_shown_iff`).
-/
import KernelMagic.Inotify.Walk

namespace KernelMagic.Inotify

open KernelMagic.Lib

/-- The name of an event is a string, or there is none. -/
def Event.Named (e : Event) : Prop := e.name = [] ∨ 0 ∈ e.name

/-- An event without a name. -/
def Event.Bare (e : Event) : Prop := e.name = []

/-- What one `read` can give. -/
structure Readable (es : List Event) : Prop where
  ne : es ≠ []
  fit : (encode es).length ≤ eventsBufSize
  named : ∀ e ∈ es, e.Named

/-- The line has the name of the event, and the last of the tests that holds. -/
def Shows (base : List UInt8) (l : Option (List UInt8)) (e : Event) : Prop :=
  ∃ op, operate e.mask = some op ∧ l = some (line base (cstr e.name) op)

/-- Each mask meets a test; and behind each record without a name there is a zero byte: the watch of the
    next record has a number that begins with one, or it is the last and the array is not full. -/
structure Legible (es : List Event) : Prop where
  known : ∀ e ∈ es, operate e.mask ≠ none
  next : es.IsChain fun e e' => e.Bare → e'.wd.toUInt8 = 0
  last : ∀ e ∈ es.getLast?, e.Bare → (encode es).length < eventsBufSize

variable {base events pre rest : List UInt8} {e : Event} {es : List Event}

/-! ## One record -/

/-- Lines with one operation differ as the names do. -/
theorem line_inj {name name' : List UInt8} {op : String} :
    line base name op = line base name' op ↔ name = name' := by
  unfold line
  simp only [List.append_assoc, List.append_cancel_left_eq, List.append_cancel_right_eq]

/-- The line of a record is right when there is one: with a name that is a matter of the mask alone,
    without one also of the byte behind it. -/
theorem displayEvent_shows_iff (h : events = pre ++ (e.encode ++ rest)) (hn : e.Named) :
    Shows base (displayEvent base events pre.length) e ↔
      operate e.mask ≠ none ∧ (e.Bare → rest.head? = some 0) := by
  have hname : (e.Bare → rest.head? = some 0) ↔ 0 ∈ e.name ∨ rest.head? = some 0 := by
    unfold Event.Bare
    rcases hn with hnil | h0
    · rw [forall_prop_of_true hnil, hnil]
      exact (or_iff_right List.not_mem_nil).symm
    · exact iff_of_true (fun hnil => by rw [hnil] at h0; cases h0) (.inl h0)
  rw [displayEvent_eq base h, Shows]
  cases hop : operate e.mask with
  | none => exact iff_of_false (fun ⟨_, hs, _⟩ => by cases hs) fun hk => hk.1 rfl
  | some op =>
    rw [and_iff_right (Option.some_ne_none op), hname, ← printStr_append_eq_iff, Option.bind_some]
    constructor
    · rintro ⟨op', hs, hl⟩
      obtain rfl := Option.some.inj hs
      obtain ⟨name, hp, hl⟩ := Option.map_eq_some_iff.mp hl
      rw [hp, line_inj.mp hl]
    · exact fun hp => ⟨op, rfl, by rw [hp, Option.map_some]⟩

/-! ## All records -/

/-- Behind each record without a name there is a zero byte, with `rest` behind the last. -/
def Clear (rest : List UInt8) : List Event → Prop
  | [] => True
  | e :: es => (e.Bare → (encode es ++ rest).head? = some 0) ∧ Clear rest es

theorem displayAll_shows_iff (h : events = pre ++ (encode es ++ rest)) (hn : ∀ e ∈ es, e.Named) :
    List.Forall₂ (Shows base) (displayAll base events
        ((starts (fun e => e.encode.length) pre.length es).map fun p : Nat => (p : Int))) es ↔
      (∀ e ∈ es, operate e.mask ≠ none) ∧ Clear rest es := by
  induction es generalizing pre with
  | nil => exact iff_of_true .nil ⟨fun _ he => absurd he List.not_mem_nil, trivial⟩
  | cons e es ih =>
    rw [encode_cons, List.append_assoc] at h
    have hhead : Shows base (displayEvent base events pre.length) e ↔ _ :=
      displayEvent_shows_iff h (hn e List.mem_cons_self)
    have h' : events = (pre ++ e.encode) ++ (encode es ++ rest) := by rw [h, List.append_assoc]
    have htail := ih h' fun e' he' => hn e' (List.mem_cons_of_mem e he')
    rw [List.length_append] at htail
    rw [starts, List.map_cons, displayAll, List.map_cons, List.forall₂_cons, hhead,
      List.forall_mem_cons, Clear]
    exact (and_congr_right fun _ => htail).trans and_and_and_comm

theorem head?_encode_cons (e : Event) (es : List Event) (rest : List UInt8) :
    (encode (e :: es) ++ rest).head? = some e.wd.toUInt8 := by
  rw [encode_cons]
  rfl

/-- With `k` zeros behind the last record. -/
theorem clear_replicate_iff (k : Nat) (es : List Event) :
    Clear (List.replicate k 0) es ↔ (es.IsChain fun e e' => e.Bare → e'.wd.toUInt8 = 0) ∧
      ∀ e ∈ es.getLast?, e.Bare → 0 < k := by
  induction es with
  | nil => exact iff_of_true trivial ⟨.nil, fun e he => by cases he⟩
  | cons e es ih =>
    cases es with
    | nil =>
      have hhead : (encode [] ++ List.replicate k (0 : UInt8)).head? = some 0 ↔ 0 < k := by
        rw [encode, List.map_nil, List.flatten_nil, List.nil_append, List.head?_replicate]
        rcases Nat.eq_zero_or_pos k with rfl | hk
        · exact iff_of_false (fun h => by cases h) (Nat.lt_irrefl 0)
        · rw [if_neg hk.ne']
          exact iff_of_true rfl hk
      rw [Clear, Clear, and_true, hhead, and_iff_right (.singleton e), List.getLast?_singleton]
      exact ⟨fun h e' he' => Option.some.inj he' ▸ h, fun h => h e rfl⟩
    | cons e' es =>
      rw [Clear, ih, head?_encode_cons, Option.some.injEq, List.isChain_cons_cons,
        List.getLast?_cons_cons, and_assoc]

/-! ## The programs -/

theorem readEvents_cleared (es : List Event) :
    readEvents cleared (encode es) =
      [] ++ (encode es ++ List.replicate (eventsBufSize - (encode es).length) 0) := by
  rw [readEvents, cleared, List.drop_replicate, List.nil_append]

theorem inotifyTurn_eq (base : List UInt8) (hr : Readable es) {fuel : Nat} (hf : es.length < fuel) :
    inotifyTurn base (some (encode es)) fuel =
      some (displayAll base (readEvents cleared (encode es)) (recordStarts es)) := by
  have hpos : (encode es).length ≠ 0 := (length_encode_pos hr.ne).ne'
  unfold inotifyTurn inotifyLoop
  simp only [if_neg hpos]
  rw [(recordLoop_encode cleared hr.fit hf).1]
  rfl

theorem epollTurn_eq (base : List UInt8) {fd : Nat} (hfd : fd ≠ 0) (hr : Readable es) {fuel : Nat}
    (hf : es.length < fuel) :
    epollTurn base fd [some (encode es)] fuel =
      some (displayAll base (readEvents cleared (encode es)) (recordStarts es)) := by
  rw [epollTurn, epollLoop, if_pos hfd, if_pos (length_encode_pos hr.ne)]
  simp only [inotifyEpollLoop, (recordLoop_encode cleared hr.fit hf).1, epollLoop, Option.bind_eq_bind,
    Option.bind_some, Option.pure_def, List.append_nil]

/-- **What is shown.** For every list of events that a `read` can return there is one line for each event
    in order, and both programs come to the same; only that with the descriptor 0 the `epoll` program
    reads nothing. Each line shows the name and the operation of its event if and only if the events are
    legible: each mask meets a test, and a record without a name is followed by a watch whose number
    begins with a zero byte, or it is the last and the array is not full. -/
theorem events_shown_iff (base : List UInt8) (fd : Nat) (es : List Event) (fuel : Nat)
    (hr : Readable es) (hf : es.length < fuel) :
    ∃ lines, inotifyTurn base (some (encode es)) fuel = some lines ∧
      epollTurn base fd [some (encode es)] fuel = some (if fd = 0 then [] else lines) ∧
      lines.length = es.length ∧ (List.Forall₂ (Shows base) lines es ↔ Legible es) := by
  have hclear : Clear (List.replicate (eventsBufSize - (encode es).length) 0) es ↔
      (es.IsChain fun e e' => e.Bare → e'.wd.toUInt8 = 0) ∧
        ∀ e ∈ es.getLast?, e.Bare → (encode es).length < eventsBufSize := by
    rw [clear_replicate_iff]
    simp only [Nat.sub_pos_iff_lt]
  refine ⟨_, inotifyTurn_eq base hr hf, ?_, ?_, ?_⟩
  · by_cases hfd : fd = 0
    · rw [hfd, if_pos rfl]
      exact epollLoop_zero base cleared fuel _
    · rw [if_neg hfd]
      exact epollTurn_eq base hfd hr hf
  · rw [displayAll, List.length_map, recordStarts, List.length_map, length_starts]
  · refine (displayAll_shows_iff (readEvents_cleared es) hr.named).trans ?_
    rw [hclear]
    exact ⟨fun h => ⟨h.1, h.2.1, h.2.2⟩, fun h => ⟨h.known, h.next, h.last⟩⟩

/-- In the list above the directory itself is read before a file is closed, and the line for it shows
    the number of the watch; without it the lines are right. -/
theorem shown_mixed :
    (∃ lines, inotifyTurn (ascii "d") (some (encode mixed)) 4 = some lines ∧
      epollTurn (ascii "d") 4 [some (encode mixed)] 4 = some lines ∧
      ¬ List.Forall₂ (Shows (ascii "d")) lines mixed) ∧
    ∃ lines, inotifyTurn (ascii "d") (some (encode (mixed.take 1))) 4 = some lines ∧
      epollTurn (ascii "d") 4 [some (encode (mixed.take 1))] 4 = some lines ∧
      List.Forall₂ (Shows (ascii "d")) lines (mixed.take 1) := by
  have hr : Readable mixed := ⟨by decide, by decide, by unfold Event.Named; decide⟩
  have hr' : Readable (mixed.take 1) := ⟨by decide, by decide, by unfold Event.Named; decide⟩
  obtain ⟨lines, hl, hepoll, -, hiff⟩ := events_shown_iff (ascii "d") 4 mixed 4 hr (by decide)
  obtain ⟨lines', hl', hepoll', -, hiff'⟩ :=
    events_shown_iff (ascii "d") 4 (mixed.take 1) 4 hr' (by decide)
  refine ⟨⟨lines, hl, hepoll, fun h => ?_⟩, lines', hl', hepoll', hiff'.mpr ⟨by decide, ?_, ?_⟩⟩
  · have hchain := (hiff.mp h).next.tail
    have hbare : (⟨1, 0x1, 0, []⟩ : Event).Bare := rfl
    exact absurd ((List.isChain_cons_cons.mp hchain).1 hbare) (by decide)
  · exact .singleton _
  · exact fun e he hb => by decide

end KernelMagic.Inotify
