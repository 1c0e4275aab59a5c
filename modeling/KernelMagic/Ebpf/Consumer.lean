/-
  The user-space ends of the two tracers, `handle_event` of `eBPF/tc_trace.c` and of `eBPF/xdp.c`. Both
  declare the payload of the event as `char[256]` and read it as a string. Both print the two addresses
  with one `printf` that calls `inet_ntoa` twice; its text is in a static buffer, so the same address is
  printed for both ends, the one that was converted last. Which one that is, is up to the compiler
  (`ArgOrder`).

  On the kernel side nothing keeps the last byte free: `tcHttpParse` copies all 256 bytes as soon as
  there are so many, and the field of `xdpPass` goes on for 768 more bytes behind what the consumer
  takes for its end. So the string ends inside the field exactly when the segment has fewer than
  256 bytes of data, or a NUL among its first 256 (`Terminated`).
-/
import KernelMagic.Lib.CString
import KernelMagic.Ebpf.Http

namespace KernelMagic.Http

open KernelMagic.Lib

variable {f : List UInt8} {n limit : Nat} {reserve : Bool}

/-- The payload field as `handle_event` declares it. -/
def HttpEvent.field (e : HttpEvent n) : List UInt8 := e.payload.1.take 256

/-- In which order the arguments of a call are evaluated. -/
inductive ArgOrder where
  | leftToRight
  | rightToLeft
  deriving DecidableEq, Repr

/-- The buffer of `inet_ntoa` behind the two calls, of which the one for the source stands first. -/
def inetNtoa (o : ArgOrder) (srcAddr dstAddr : UInt32) : UInt32 :=
  match o with
  | .leftToRight => dstAddr
  | .rightToLeft => srcAddr

/-- What is printed for an event. -/
structure Report where
  srcIp : UInt32
  srcPort : UInt16
  dstIp : UInt32
  dstPort : UInt16
  content : List UInt8
  deriving DecidableEq, Repr

/-- `"GET"`, `"POST"` and `"HTTP"`. -/
def methods : List (List UInt8) := [[71, 69, 84], [80, 79, 83, 84], [72, 84, 84, 80]]

/-- The condition of the `if`, from left to right. -/
def mentions (field : List UInt8) : List (List UInt8) → Option Bool
  | [] => some false
  | m :: ms => do
    if ← strstr m field then return true
    mentions field ms

/-- `handle_event`; `none` is a read past the end of the field. -/
def handleEvent (o : ArgOrder) (e : HttpEvent n) : Option (Option Report) := do
  if ← mentions e.field methods then
    let addr := inetNtoa o e.srcIp e.dstIp
    let content ← printStr e.field
    return some ⟨addr, e.srcPort, addr, e.dstPort, content⟩
  return none

theorem mentions_isSome {field : List UInt8} (h : 0 ∈ field) (ms : List (List UInt8)) :
    ∃ b, mentions field ms = some b := by
  induction ms with
  | nil => exact ⟨false, rfl⟩
  | cons m ms ih =>
    obtain ⟨b, hb⟩ := Option.isSome_iff_exists.mp (strstr_isSome m h)
    unfold mentions
    rw [hb]
    cases b with
    | true => exact ⟨true, rfl⟩
    | false => exact ih

theorem mentions_ne_false {field : List UInt8} (h : 0 ∉ field) {ms : List (List UInt8)}
    (hms : ms ≠ []) : mentions field ms ≠ some false := by
  cases ms with
  | nil => exact absurd rfl hms
  | cons m ms =>
    unfold mentions
    cases hb : strstr m field with
    | none => exact fun hn => nomatch hn
    | some b =>
      cases b with
      | true => exact fun hn => nomatch hn
      | false => exact absurd hb (strstr_ne_false h)

/-- Whatever the content, the whole string is read: either nothing is found in it, or it is printed. -/
theorem handleEvent_isSome_iff (o : ArgOrder) (e : HttpEvent n) :
    (handleEvent o e).isSome = true ↔ 0 ∈ e.field := by
  unfold handleEvent
  constructor
  · intro h
    by_contra h0
    cases hm : mentions e.field methods with
    | none =>
      rw [hm] at h
      cases h
    | some b =>
      cases b with
      | false => exact mentions_ne_false h0 (by decide) hm
      | true =>
        rw [hm, show printStr e.field = none from if_neg h0] at h
        cases h
  · intro h
    obtain ⟨b, hb⟩ := mentions_isSome h methods
    rw [hb, show printStr e.field = some (cstr e.field) from if_pos h]
    cases b <;> rfl

/-! ## The two ends together -/

/-- Where the data of the segment starts. -/
def payloadAt (f : List UInt8) : Nat := (segmentAt f (tcpAt f)).payload

/-- The segment has fewer than 256 bytes of data, or a NUL among the first 256. -/
def Terminated (f : List UInt8) : Prop :=
  f.length - payloadAt f < 256 ∨ 0 ∈ (f.drop (payloadAt f)).take 256

/-- The field after `fillPayload`, for a field of which the consumer sees the first 256 bytes. -/
theorem fillPayload_terminated {payload : Nat} (hf : f.length < 2 ^ 64) (hp : payload ≤ f.length)
    (hn : 256 ≤ n) (hlim : limit ≤ n) (hgap : n ≤ max limit 256) {buf : List.Vector UInt8 n}
    (h : fillPayload n limit f payload = some buf) :
    0 ∈ buf.1.take 256 ↔ f.length - payload < 256 ∨ 0 ∈ (f.drop payload).take 256 := by
  rcases fillPayload_cases hf hp hlim h with ⟨-, hb⟩ | ⟨hl, hlt, hb⟩ | ⟨hl, hge, hb⟩
  · rw [hb]
    by_cases hs : f.length - payload < 256
    · refine iff_of_true (List.mem_take_iff_getElem.mpr ⟨f.length - payload, ?_, ?_⟩) (.inl hs)
      · simp only [List.length_append, List.length_drop, List.length_replicate]
        omega
      · rw [List.getElem_append_right (by rw [List.length_drop]), List.getElem_replicate]
    · rw [List.take_append_of_le_length (by rw [List.length_drop]; omega), or_iff_right hs]
  · refine iff_of_true ?_ (.inl (by omega))
    rw [hb, List.take_replicate]
    exact List.mem_replicate.mpr ⟨by omega, rfl⟩
  · rw [hb, List.take_take, min_eq_left hn, or_iff_right (by omega)]

/-- The events that reach the consumer, and what became of their payload. -/
theorem Segment.event_terminated {g : Segment} (hf : f.length < 2 ^ 64) (hn : 256 ≤ n)
    (hlim : limit ≤ n) (hgap : n ≤ max limit 256) {e : HttpEvent n}
    (he : e ∈ g.event n limit f reserve) :
    0 ∈ e.field ↔ f.length - g.payload < 256 ∨ 0 ∈ (f.drop g.payload).take 256 :=
  fillPayload_terminated hf (Segment.mem_event he).1.2 hn hlim hgap (Segment.event_payload he)

theorem segment_payload {g : Segment} (hg : segment f = some g) : g.payload = payloadAt f := by
  obtain ⟨-, rfl⟩ := segment_eq_some hg
  rfl

/-- For each event of either program: the field has a NUL, so that `handle_event` stays inside it, if
    and only if the segment is short or has a NUL early enough. -/
theorem payload_terminated_iff (o : ArgOrder) (f : List UInt8) (protocol : UInt32) (reserve : Bool)
    (hf : f.length < 2 ^ 64) :
    (∀ t, tcHttpParse f protocol reserve = some t → ∀ e ∈ t.event,
      (0 ∈ e.field ↔ Terminated f) ∧ ((handleEvent o e).isSome = true ↔ Terminated f)) ∧
    (∀ x, xdpPass f reserve = some x → ∀ e ∈ x.event,
      (0 ∈ e.field ↔ Terminated f) ∧ ((handleEvent o e).isSome = true ↔ Terminated f)) := by
  refine ⟨fun t ht e he => ?_, fun x hx e he => ?_⟩
  · obtain ⟨g, hg, he⟩ := tcHttpParse_event ht he
    have h := Segment.event_terminated hf (by decide) (by decide) (by decide) he
    rw [segment_payload hg] at h
    exact ⟨h, (handleEvent_isSome_iff o e).trans h⟩
  · obtain ⟨g, hg, -, -, he⟩ := xdpPass_event hx he
    have h := Segment.event_terminated hf (by decide) (Nat.le_refl _) (by decide) he
    rw [segment_payload hg] at h
    exact ⟨h, (handleEvent_isSome_iff o e).trans h⟩

theorem payload_terminated_get :
    ∃ t e, tcHttpParse getFrame 8 true = some t ∧ t.event = some e ∧ 0 ∈ e.field ∧
      (handleEvent .rightToLeft e).isSome = true := by
  have hsome : ((tcHttpParse getFrame 8 true).bind Outcome.event).isSome = true := by
    decide +kernel
  obtain ⟨e, he⟩ := Option.isSome_iff_exists.mp hsome
  obtain ⟨t, ht, he⟩ := Option.bind_eq_some_iff.mp he
  have hlt : getFrame.length < 2 ^ 64 := by decide +kernel
  have hshort : Terminated getFrame := .inl (by decide +kernel)
  obtain ⟨h1, h2⟩ := (payload_terminated_iff .rightToLeft getFrame 8 true hlt).1 t ht e he
  exact ⟨t, e, ht, he, h1.mpr hshort, h2.mpr hshort⟩

/-- The headers of `getFrame` with 256 times the letter `G`. -/
def longFrame : List UInt8 := getFrame.take 54 ++ List.replicate 256 71

/-- Neither field has a NUL, and both consumers read on behind it. -/
theorem payload_unterminated :
    (∃ t e, tcHttpParse longFrame 8 true = some t ∧ t.event = some e ∧ 0 ∉ e.field ∧
      handleEvent .rightToLeft e = none) ∧
    ∃ x e, xdpPass longFrame true = some x ∧ x.event = some e ∧ 0 ∉ e.field ∧
      handleEvent .rightToLeft e = none := by
  have ht : (tcHttpParse longFrame 8 true).map
      (fun t => t.event.map fun e => (decide (0 ∉ e.field), handleEvent .rightToLeft e)) =
        some (some (true, none)) := by
    decide +kernel
  have hx : (xdpPass longFrame true).map
      (fun x => x.event.map fun e => (decide (0 ∉ e.field), handleEvent .rightToLeft e)) =
        some (some (true, none)) := by
    decide +kernel
  obtain ⟨t, ht, he⟩ := Option.map_eq_some_iff.mp ht
  obtain ⟨e, he, hp⟩ := Option.map_eq_some_iff.mp he
  obtain ⟨x, hx, he'⟩ := Option.map_eq_some_iff.mp hx
  obtain ⟨e', he', hp'⟩ := Option.map_eq_some_iff.mp he'
  obtain ⟨h1, h2⟩ := Prod.mk.inj hp
  obtain ⟨h1', h2'⟩ := Prod.mk.inj hp'
  exact ⟨⟨t, e, ht, he, of_decide_eq_true h1, h2⟩, ⟨x, e', hx, he', of_decide_eq_true h1', h2'⟩⟩

end KernelMagic.Http
