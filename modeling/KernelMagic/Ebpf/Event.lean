/-
  Which frames the two tracers report, and what an event of `xdpPass` holds.

  `xdpPass` copies as much of the data as there is up to the size of the field, so its events are the
  addresses, the ports and the first 1024 bytes of the data. Which frames it and `tcHttpParse` report
  is read off the headers (`WebHeaders`); they ask that the data does not start behind the frame, and a
  segment whose headers end exactly where the frame ends has none of it.
-/
import KernelMagic.Ebpf.Payload

namespace KernelMagic.Http

open KernelMagic.Lib

variable {f : List UInt8} {n limit : Nat} {reserve : Bool}

/-- The headers of a TCP segment from or to port 80, in a frame that is taken for IPv4. -/
def WebHeaders (f : List UInt8) : Prop :=
  34 ≤ f.length ∧ byte f 23 = 6 ∧ tcpAt f + 20 ≤ f.length ∧
    (be16 f (tcpAt f) = 80 ∨ be16 f (tcpAt f + 2) = 80)

instance (f : List UInt8) : Decidable (WebHeaders f) :=
  inferInstanceAs (Decidable (34 ≤ f.length ∧ byte f 23 = 6 ∧ tcpAt f + 20 ≤ f.length ∧
    (be16 f (tcpAt f) = 80 ∨ be16 f (tcpAt f + 2) = 80)))

/-- The segments the programs report. -/
theorem segment_web_iff (f : List UInt8) :
    (∃ g, segment f = some g ∧ g.Web f) ↔ WebHeaders f ∧ payloadAt f ≤ f.length := by
  constructor
  · rintro ⟨g, hg, hport, hp⟩
    obtain ⟨⟨h34, h6, h20⟩, rfl⟩ := segment_eq_some hg
    exact ⟨⟨h34, h6, h20, hport⟩, hp⟩
  · rintro ⟨⟨h34, h6, h20, hport⟩, hp⟩
    exact ⟨segmentAt f (tcpAt f), if_pos ⟨h34, h6, h20⟩, hport, hp⟩

theorem tcHttpParse_event_iff {protocol : UInt32} {t : Outcome TcAct 256}
    (ht : tcHttpParse f protocol reserve = some t) :
    t.event.isSome = true ↔
      (protocol = 8 ∧ WebHeaders f ∧ reserve = true) ∧ payloadAt f ≤ f.length := by
  obtain rfl := Option.some.inj ((tcHttpParse_eq f protocol reserve).symm.trans ht)
  have hweb := segment_web_iff f
  by_cases hp : protocol = 8
  · cases hg : segment f with
    | none =>
      rw [hg] at hweb
      simp only [hp, if_true, Option.bind_none]
      refine iff_of_false Bool.noConfusion fun h => ?_
      obtain ⟨g, hg, -⟩ := hweb.mpr ⟨h.1.2.1, h.2⟩
      cases hg
    | some g =>
      simp only [hp, if_true, Option.bind_some]
      rw [g.isSome_event (by decide)]
      simp only [hg, Option.some.injEq, exists_eq_left'] at hweb
      rw [hweb]
      tauto
  · simp only [if_neg hp]
    exact iff_of_false Bool.noConfusion fun h => hp h.1.1

theorem xdpPass_event_iff {x : Outcome XdpAct 1024} (hx : xdpPass f reserve = some x) :
    x.event.isSome = true ↔
      (be16 f 12 = ethPIp ∧ WebHeaders f ∧ be16 f (tcpAt f + 2) ≠ 8888 ∧ reserve = true) ∧
        payloadAt f ≤ f.length := by
  constructor
  · intro h
    obtain ⟨e, he⟩ := Option.isSome_iff_exists.mp h
    obtain ⟨g, hg, hip, hne, he⟩ := xdpPass_event hx he
    obtain ⟨hweb, hr⟩ := (g.isSome_event (Nat.le_refl 1024) f reserve).mp
      (Option.isSome_iff_exists.mpr ⟨e, he⟩)
    obtain ⟨hheaders, hp⟩ := (segment_web_iff f).mp ⟨g, hg, hweb⟩
    obtain ⟨-, rfl⟩ := segment_eq_some hg
    exact ⟨⟨hip, hheaders, hne, hr⟩, hp⟩
  · rintro ⟨⟨hip, hheaders, hne, hr⟩, hp⟩
    obtain rfl := Option.some.inj ((xdpPass_eq f reserve).symm.trans hx)
    obtain ⟨g, hg, hweb⟩ := (segment_web_iff f).mpr ⟨hheaders, hp⟩
    have hne' : ¬ g.dstPort = 8888 := by
      obtain ⟨-, rfl⟩ := segment_eq_some hg
      exact hne
    rw [if_pos hip, hg, verdictOn_pass hne']
    exact (g.isSome_event (Nat.le_refl 1024) f reserve).mpr ⟨hweb, hr⟩

/-! ## The fields -/

/-- A limit at the size of the field leaves no gap between the two cases. -/
theorem fillPayload_full {payload : Nat} (hf : f.length < 2 ^ 64) (hp : payload ≤ f.length)
    {buf : List.Vector UInt8 n} (h : fillPayload n n f payload = some buf) :
    buf.1 = (f.drop payload).take (min (f.length - payload) n) ++
      List.replicate (n - (f.length - payload)) 0 := by
  rcases fillPayload_cases hf hp (Nat.le_refl n) h with ⟨hlt, hb⟩ | ⟨hge, hlt, -⟩ | ⟨hge, -, hb⟩
  · rw [hb, min_eq_left (Nat.le_of_lt hlt), List.take_of_length_le (by rw [List.length_drop])]
  · exact absurd hlt (Nat.not_lt.mpr hge)
  · rw [hb, min_eq_right hge, Nat.sub_eq_zero_of_le hge, List.replicate_zero, List.append_nil]

/-- What an event of `xdpPass` says about its frame. -/
structure Reports (f : List UInt8) (e : HttpEvent 1024) : Prop where
  payload : e.payload.1 = (f.drop (payloadAt f)).take (min (dataLen f) 1024) ++
    List.replicate (1024 - dataLen f) 0
  srcIp : e.srcIp = le32 f 26
  dstIp : e.dstIp = le32 f 30
  srcPort : e.srcPort = be16 f (tcpAt f)
  dstPort : e.dstPort = be16 f (tcpAt f + 2)
  port : e.srcPort = 80 ∨ e.dstPort = 80

/-- **The event of `xdpPass`.** The field holds the data of the segment, as much as fits, and zeros
    behind it; the addresses and the ports are those of the frame, and one of the ports is 80. -/
theorem xdpPass_reports (f : List UInt8) (reserve : Bool) (hf : f.length < 2 ^ 64)
    (x : Outcome XdpAct 1024) (hx : xdpPass f reserve = some x) (e : HttpEvent 1024)
    (he : e ∈ x.event) : payloadAt f ≤ f.length ∧ Reports f e := by
  obtain ⟨g, hg, -, -, he⟩ := xdpPass_event hx he
  obtain ⟨⟨hport, hp⟩, hends⟩ := Segment.mem_event he
  have hbuf := Segment.event_payload he
  obtain ⟨-, rfl⟩ := segment_eq_some hg
  simp only [HttpEvent.ends, Prod.mk.injEq] at hends
  obtain ⟨hsrcIp, hdstIp, hsrc, hdst⟩ := hends
  refine ⟨hp, fillPayload_full hf hp hbuf, hsrcIp, hdstIp, hsrc, hdst, ?_⟩
  rw [hsrc, hdst]
  exact hport

theorem xdpPass_reports_get :
    ∃ x e, xdpPass getFrame true = some x ∧ x.event = some e ∧ dataLen getFrame = 3 ∧
      Reports getFrame e := by
  have hsome : ((xdpPass getFrame true).bind Outcome.event).isSome = true := by
    decide +kernel
  obtain ⟨e, he⟩ := Option.isSome_iff_exists.mp hsome
  obtain ⟨x, hx, he⟩ := Option.bind_eq_some_iff.mp he
  have hlt : getFrame.length < 2 ^ 64 := by decide +kernel
  exact ⟨x, e, hx, he, by decide +kernel, (xdpPass_reports getFrame true hlt x hx e he).2⟩

/-! ## Segments without data -/

/-- **Data.** Which frames are reported only if they have data: all but those with the headers of a
    segment from or to port 80 and not a byte behind them. -/
theorem data_reported_iff (f : List UInt8) (protocol : UInt32) (reserve : Bool) :
    (∃ t, tcHttpParse f protocol reserve = some t ∧
      ((t.event.isSome = true → payloadAt f < f.length) ↔
        ¬ (protocol = 8 ∧ WebHeaders f ∧ reserve = true ∧ payloadAt f = f.length))) ∧
    ∃ x, xdpPass f reserve = some x ∧
      ((x.event.isSome = true → payloadAt f < f.length) ↔
        ¬ (be16 f 12 = ethPIp ∧ WebHeaders f ∧ be16 f (tcpAt f + 2) ≠ 8888 ∧ reserve = true ∧
          payloadAt f = f.length)) := by
  refine ⟨⟨_, tcHttpParse_eq f protocol reserve, ?_⟩, ⟨_, xdpPass_eq f reserve, ?_⟩⟩
  · rw [tcHttpParse_event_iff (tcHttpParse_eq f protocol reserve)]
    constructor
    · rintro h ⟨hp, hw, hr, hend⟩
      exact absurd (h ⟨⟨hp, hw, hr⟩, Nat.le_of_eq hend⟩) (by omega)
    · rintro h ⟨⟨hp, hw, hr⟩, hle⟩
      exact Nat.lt_of_le_of_ne hle fun hend => h ⟨hp, hw, hr, hend⟩
  · rw [xdpPass_event_iff (xdpPass_eq f reserve)]
    constructor
    · rintro h ⟨hip, hw, hne, hr, hend⟩
      exact absurd (h ⟨⟨hip, hw, hne, hr⟩, Nat.le_of_eq hend⟩) (by omega)
    · rintro h ⟨⟨hip, hw, hne, hr⟩, hle⟩
      exact Nat.lt_of_le_of_ne hle fun hend => h ⟨hip, hw, hne, hr, hend⟩

/-- The last packet of a handshake, from 10.0.0.1:1234 to 10.0.0.2:80: an ACK and nothing else. -/
def ackFrame : List UInt8 :=
  [0, 0, 0, 0, 0, 0, 0, 0, 0, 0, 0, 0, 8, 0] ++
    [0x45, 0, 0, 40, 0, 0, 0, 0, 64, 6, 0, 0, 10, 0, 0, 1, 10, 0, 0, 2] ++
    [4, 210, 0, 80, 0, 0, 0, 1, 0, 0, 0, 1, 0x50, 0x10, 4, 0, 0, 0, 0, 0]

/-- Both programs report it. -/
theorem ack_reported :
    (∃ t, tcHttpParse ackFrame 8 true = some t ∧ t.event.isSome = true) ∧
      (∃ x, xdpPass ackFrame true = some x ∧ x.event.isSome = true) ∧
        ¬ payloadAt ackFrame < ackFrame.length := by
  have ht : (tcHttpParse ackFrame 8 true).map (fun t => t.event.isSome) = some true := by
    decide +kernel
  have hx : (xdpPass ackFrame true).map (fun x => x.event.isSome) = some true := by
    decide +kernel
  exact ⟨Option.map_eq_some_iff.mp ht, Option.map_eq_some_iff.mp hx, by decide +kernel⟩

end KernelMagic.Http
