/-
  What the payload field of an event of `tcHttpParse` holds of the data of its segment.

  The length to copy is the length of the data below 255 and 256 from there on, and nothing is copied
  when the segment does not have as many bytes. So a segment with 255 bytes of data, and no other, is
  reported with an empty field.
-/
import KernelMagic.Ebpf.Consumer

namespace KernelMagic.Http

open KernelMagic.Lib

/-- The length of the data behind the TCP header. -/
def dataLen (f : List UInt8) : Nat := f.length - payloadAt f

/-- The field starts with the first 255 bytes of the data, or all of it, and is zero behind it. -/
structure Faithful (f : List UInt8) (e : HttpEvent 256) : Prop where
  copied : e.payload.1.take (min (dataLen f) 255) =
    (f.drop (payloadAt f)).take (min (dataLen f) 255)
  cleared : ∀ i, dataLen f ≤ i → i < 256 → e.payload.1[i]? = some 0

variable {f : List UInt8} {reserve : Bool}

/-- The event of `tcHttpParse` for a segment has the field of `fillPayload`. -/
theorem tcHttpParse_payload {protocol : UInt32} {t : Outcome TcAct 256}
    (ht : tcHttpParse f protocol reserve = some t) {e : HttpEvent 256} (he : e ∈ t.event) :
    payloadAt f ≤ f.length ∧ fillPayload 256 255 f (payloadAt f) = some e.payload := by
  obtain ⟨g, hg, he⟩ := tcHttpParse_event ht he
  rw [← segment_payload hg]
  exact ⟨(Segment.mem_event he).1.2, Segment.event_payload he⟩

/-- An empty field is faithful to 255 bytes of data only if they are all zero. -/
theorem faithful_empty_iff {e : HttpEvent 256} (hl : dataLen f = 255)
    (he : e.payload.1 = List.replicate 256 0) :
    Faithful f e ↔ ∀ b ∈ f.drop (payloadAt f), b = 0 := by
  have hlen : (f.drop (payloadAt f)).length = 255 := by
    rw [List.length_drop]
    exact hl
  constructor
  · intro h
    have hc := h.copied
    rw [hl, he, Nat.min_self, List.take_of_length_le (Nat.le_of_eq hlen),
      List.take_replicate] at hc
    intro b hb
    rw [← hc] at hb
    exact List.eq_of_mem_replicate hb
  · intro h
    refine ⟨?_, fun i _ hi => ?_⟩
    · rw [hl, he, Nat.min_self, List.take_of_length_le (Nat.le_of_eq hlen), List.take_replicate]
      exact (List.eq_replicate_iff.mpr ⟨hlen, h⟩).symm
    · rw [he, List.getElem?_replicate, if_pos hi]

/-- **Payload.** The field of an event of `tcHttpParse` is faithful to the data of the segment if and
    only if there are not exactly 255 bytes of data, or these are all zero. -/
theorem payload_faithful_iff (f : List UInt8) (protocol : UInt32) (reserve : Bool)
    (hf : f.length < 2 ^ 64) (t : Outcome TcAct 256)
    (ht : tcHttpParse f protocol reserve = some t) (e : HttpEvent 256) (he : e ∈ t.event) :
    Faithful f e ↔ (dataLen f = 255 → ∀ b ∈ f.drop (payloadAt f), b = 0) := by
  obtain ⟨hp, hbuf⟩ := tcHttpParse_payload ht he
  have hd : (f.drop (payloadAt f)).length = dataLen f := List.length_drop
  rcases fillPayload_cases hf hp (by decide) hbuf with ⟨hlt, hb⟩ | ⟨hge, hlt, hb⟩ | ⟨-, hge, hb⟩
  · -- all of the data is there, and zeros behind it
    refine iff_of_true ⟨?_, fun i h1 h2 => ?_⟩ fun h => absurd h (Nat.ne_of_lt hlt)
    · rw [hb, List.take_append_of_le_length (by rw [hd]; exact Nat.min_le_left _ _)]
    · rw [hb, List.getElem?_append_right (by rw [hd]; exact h1), List.getElem?_replicate,
        if_pos (by rw [hd]; unfold dataLen at h1 ⊢; omega)]
  · have hl : dataLen f = 255 := by
      unfold dataLen
      omega
    rw [faithful_empty_iff hl hb]
    exact ⟨fun h _ => h, fun h => h hl⟩
  · -- 256 bytes of the data fill the field
    have hl : 256 ≤ dataLen f := hge
    refine iff_of_true ⟨?_, fun i h1 h2 => ?_⟩ fun h => ?_
    · rw [hb, List.take_take]
      congr 1
      omega
    · omega
    · omega

theorem payload_faithful_get :
    ∃ t e, tcHttpParse getFrame 8 true = some t ∧ t.event = some e ∧ Faithful getFrame e := by
  have hsome : ((tcHttpParse getFrame 8 true).bind Outcome.event).isSome = true := by
    decide +kernel
  obtain ⟨e, he⟩ := Option.isSome_iff_exists.mp hsome
  obtain ⟨t, ht, he⟩ := Option.bind_eq_some_iff.mp he
  have hlt : getFrame.length < 2 ^ 64 := by decide +kernel
  have hlen : dataLen getFrame = 3 := by decide +kernel
  exact ⟨t, e, ht, he, (payload_faithful_iff getFrame 8 true hlt t ht e he).mpr
    fun h => by rw [hlen] at h; cases h⟩

/-- The headers of `getFrame` with 255 times the letter `G`. -/
def rareFrame : List UInt8 := getFrame.take 54 ++ List.replicate 255 71

/-- The field is empty. -/
theorem payload_lost :
    ∃ t e, tcHttpParse rareFrame 8 true = some t ∧ t.event = some e ∧ dataLen rareFrame = 255 ∧
      e.payload.1 = List.replicate 256 0 ∧ ¬ Faithful rareFrame e := by
  have hrun : (tcHttpParse rareFrame 8 true).map (fun t => t.event.map fun e => e.payload.1) =
      some (some (List.replicate 256 0)) := by
    decide +kernel
  have hlen : dataLen rareFrame = 255 := by decide +kernel
  have hmem : (71 : UInt8) ∈ rareFrame.drop (payloadAt rareFrame) := by decide +kernel
  obtain ⟨t, ht, he⟩ := Option.map_eq_some_iff.mp hrun
  obtain ⟨e, he, hp⟩ := Option.map_eq_some_iff.mp he
  refine ⟨t, e, ht, he, hlen, hp, fun h => ?_⟩
  exact absurd ((faithful_empty_iff hlen hp).mp h 71 hmem) (by decide)

end KernelMagic.Http
