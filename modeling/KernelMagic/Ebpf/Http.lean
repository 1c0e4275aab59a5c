/-
  The two HTTP tracers, `eBPF/tc_trace.bpf.c` (`tcHttpParse`) and `eBPF/xdp.bpf.c` (`xdpPass`). Both take
  the frame in `[data, data_end)` apart down to the TCP header and report segments from or to port 80;
  `xdpPass` also drops what goes to port 8888.

  A pointer into the frame is its distance from `data`. A load outside the frame, or a copy that does
  not fit, is a fault (`none`). The programs see the fields as a little-endian machine loads them;
  `ihl` is the lower half of the first byte of the IP header, `doff` the upper half of the 13th of the
  TCP header. `reserve` says whether `bpf_ringbuf_reserve` gives a record, and `bpf_probe_read_kernel`
  of bytes of the frame succeeds. What is printed for debugging is left out.

  `segment` is what both programs look for, read off the frame as a whole. The programs are shown to
  compute it without a fault (`tcHttpParse_eq`, `xdpPass_eq`) in spite of their different checks.
-/
import KernelMagic.Lib.Packet

namespace KernelMagic.Http

open KernelMagic.Lib

/-- `ETH_P_IP`. -/
def ethPIp : UInt16 := 0x0800

/-- `IPPROTO_TCP`. -/
def ipprotoTcp : UInt8 := 6

/-- `sizeof(struct ethhdr)`, `sizeof(struct iphdr)` and `sizeof(struct tcphdr)`. -/
abbrev ethLen : Nat := 14

abbrev ipLen : Nat := 20

abbrev tcpLen : Nat := 20

/-- `struct http_event`, with `n` bytes of payload. -/
structure HttpEvent (n : Nat) where
  srcIp : UInt32
  dstIp : UInt32
  srcPort : UInt16
  dstPort : UInt16
  payload : List.Vector UInt8 n
  deriving DecidableEq

/-- What a program returns, and the event it submits. -/
structure Outcome (ν : Type) (n : Nat) where
  verdict : ν
  event : Option (HttpEvent n)
  deriving DecidableEq

inductive TcAct where
  | ok
  deriving DecidableEq, Repr

inductive XdpAct where
  | pass
  | drop
  deriving DecidableEq, Repr

/-! ## The programs -/

/-- The payload field: cleared, then the bytes at `payload` if `copy_len` of them are there. -/
def fillPayload (n limit : Nat) (frame : List UInt8) (payload : Nat) :
    Option (List.Vector UInt8 n) :=
  let availableLen := sub64 frame.length payload
  let copyLen := if availableLen < limit then availableLen else n
  if payload + copyLen ≤ frame.length then
    readInto (List.Vector.replicate n 0) copyLen frame payload
  else some (List.Vector.replicate n 0)

/-- From the choice of the ports on, which is the same text in both programs up to the size of the
    field and the value returned: the IP header is at `l3`, the TCP header at `l4`. -/
def report {ν : Type} (pass : ν) (n limit : Nat) (frame : List UInt8) (l3 l4 : Nat)
    (source dest : UInt16) (reserve : Bool) : Option (Outcome ν n) := do
  if bswap16 source ≠ 80 ∧ bswap16 dest ≠ 80 then return ⟨pass, none⟩
  let doff ← load8 frame (l4 + 12)
  let payload := l4 + (doff >>> 4).toNat * 4
  if payload > frame.length then return ⟨pass, none⟩
  if reserve = false then return ⟨pass, none⟩
  let saddr ← load32 frame (l3 + 12)
  let daddr ← load32 frame (l3 + 16)
  let buf ← fillPayload n limit frame payload
  return ⟨pass, some ⟨saddr, daddr, bswap16 source, bswap16 dest, buf⟩⟩

/-- `tc_http_parse`, with `ctx->protocol`. -/
def tcHttpParse (frame : List UInt8) (protocol : UInt32) (reserve : Bool) :
    Option (Outcome TcAct 256) := do
  if protocol ≠ (bswap16 ethPIp).toUInt32 then return ⟨.ok, none⟩
  if ethLen > frame.length then return ⟨.ok, none⟩
  let l3 := ethLen
  if l3 + ipLen > frame.length then return ⟨.ok, none⟩
  let proto ← load8 frame (l3 + 9)
  if proto ≠ ipprotoTcp then return ⟨.ok, none⟩
  let ihl ← load8 frame l3
  let l4 := l3 + (ihl &&& 0xf).toNat * 4
  if l4 + tcpLen > frame.length then return ⟨.ok, none⟩
  let source ← load16 frame l4
  let dest ← load16 frame (l4 + 2)
  report .ok 256 255 frame l3 l4 source dest reserve

/-- `xdp_pass`. -/
def xdpPass (frame : List UInt8) (reserve : Bool) : Option (Outcome XdpAct 1024) := do
  if ethLen > frame.length then return ⟨.pass, none⟩
  let hProto ← load16 frame 12
  if bswap16 hProto ≠ ethPIp then return ⟨.pass, none⟩
  let iph := ethLen
  if iph + ipLen > frame.length then return ⟨.pass, none⟩
  let proto ← load8 frame (iph + 9)
  if proto ≠ ipprotoTcp then return ⟨.pass, none⟩
  let ihl ← load8 frame iph
  let tcph := iph + (ihl &&& 0xf).toNat * 4
  if tcph + tcpLen > frame.length then return ⟨.pass, none⟩
  let dest ← load16 frame (tcph + 2)
  if bswap16 dest = 8888 then return ⟨.drop, none⟩
  let source ← load16 frame tcph
  report .pass 1024 1024 frame iph tcph source dest reserve

/-! ## Segments -/

/-- The IPv4 addresses, in the byte order of the frame, the ports, and where the data starts. -/
structure Segment where
  srcIp : UInt32
  dstIp : UInt32
  srcPort : UInt16
  dstPort : UInt16
  payload : Nat
  deriving DecidableEq, Repr

/-- Where the IP header says the TCP header is. -/
def tcpAt (f : List UInt8) : Nat := 14 + (byte f 14 &&& 0xf).toNat * 4

def segmentAt (f : List UInt8) (l4 : Nat) : Segment where
  srcIp := le32 f 26
  dstIp := le32 f 30
  srcPort := be16 f l4
  dstPort := be16 f (l4 + 2)
  payload := l4 + (byte f (l4 + 12) >>> 4).toNat * 4

/-- The TCP segment in a frame that is taken for IPv4, if its headers are all there. -/
def segment (f : List UInt8) : Option Segment :=
  if 34 ≤ f.length ∧ byte f 23 = 6 ∧ tcpAt f + 20 ≤ f.length then some (segmentAt f (tcpAt f))
  else none

/-- From or to port 80, with a TCP header of the length it states. -/
def Segment.Web (g : Segment) (f : List UInt8) : Prop :=
  (g.srcPort = 80 ∨ g.dstPort = 80) ∧ g.payload ≤ f.length

instance (g : Segment) (f : List UInt8) : Decidable (g.Web f) :=
  inferInstanceAs (Decidable ((g.srcPort = 80 ∨ g.dstPort = 80) ∧ g.payload ≤ f.length))

/-- The event for the segment. -/
def Segment.event (g : Segment) (n limit : Nat) (f : List UInt8) (reserve : Bool) :
    Option (HttpEvent n) :=
  if g.Web f ∧ reserve = true then
    (fillPayload n limit f g.payload).map fun buf => ⟨g.srcIp, g.dstIp, g.srcPort, g.dstPort, buf⟩
  else none

variable {f : List UInt8} {n limit : Nat} {reserve : Bool}

/-- The copy stays inside the frame and the field. -/
theorem fillPayload_isSome (h : limit ≤ n) (f : List UInt8) (payload : Nat) :
    ∃ buf, fillPayload n limit f payload = some buf := by
  unfold fillPayload
  generalize sub64 f.length payload = avail
  have hcopy : (if avail < limit then avail else n) ≤ n := by
    split <;> omega
  by_cases hle : payload + (if avail < limit then avail else n) ≤ f.length
  · obtain ⟨v, hv, -⟩ := readInto_eq (List.Vector.replicate n 0) hcopy hle
    exact ⟨v, by simp only [if_pos hle, hv]⟩
  · exact ⟨_, by simp only [if_neg hle]; rfl⟩

/-- What the field holds: all the data and zeros if there are fewer than `limit` bytes of it, else the
    first `n` of them; nothing if there are not so many. -/
theorem fillPayload_cases {payload : Nat} (hf : f.length < 2 ^ 64) (hp : payload ≤ f.length)
    (hlim : limit ≤ n) {buf : List.Vector UInt8 n} (h : fillPayload n limit f payload = some buf) :
    (f.length - payload < limit ∧
        buf.1 = f.drop payload ++ List.replicate (n - (f.length - payload)) 0) ∨
      (limit ≤ f.length - payload ∧ f.length - payload < n ∧ buf.1 = List.replicate n 0) ∨
      (limit ≤ f.length - payload ∧ n ≤ f.length - payload ∧ buf.1 = (f.drop payload).take n) := by
  unfold fillPayload at h
  simp only [sub64_of_le hp hf] at h
  by_cases hlt : f.length - payload < limit
  · have hle : payload + (f.length - payload) ≤ f.length := by omega
    simp only [if_pos hlt, if_pos hle] at h
    obtain ⟨v, hv, hval⟩ := readInto_eq (List.Vector.replicate n 0) (by omega) hle
    obtain rfl : v = buf := Option.some.inj (hv.symm.trans h)
    refine .inl ⟨hlt, ?_⟩
    rw [hval, List.take_of_length_le (by rw [List.length_drop])]
    exact congrArg _ (List.drop_replicate)
  · simp only [if_neg hlt] at h
    by_cases hle : payload + n ≤ f.length
    · simp only [if_pos hle] at h
      obtain ⟨v, hv, hval⟩ := readInto_eq (List.Vector.replicate n 0) (Nat.le_refl n) hle
      obtain rfl : v = buf := Option.some.inj (hv.symm.trans h)
      refine .inr (.inr ⟨by omega, by omega, ?_⟩)
      have hz : (List.Vector.replicate n (0 : UInt8)).1.drop n = [] :=
        List.drop_of_length_le (Nat.le_of_eq (List.Vector.replicate n (0 : UInt8)).2)
      rw [hval, hz, List.append_nil]
    · simp only [if_neg hle] at h
      obtain rfl := Option.some.inj h
      exact .inr (.inl ⟨by omega, by omega, rfl⟩)

theorem report_eq {ν : Type} (pass : ν) (hlim : limit ≤ n) (h34 : 34 ≤ f.length) {l4 : Nat}
    (hl4 : l4 + 20 ≤ f.length) (reserve : Bool) :
    report pass n limit f 14 l4 (le16 f l4) (le16 f (l4 + 2)) reserve =
      some ⟨pass, (segmentAt f l4).event n limit f reserve⟩ := by
  obtain ⟨buf, hbuf⟩ := fillPayload_isSome hlim f (segmentAt f l4).payload
  unfold report Segment.event Segment.Web
  rw [bswap16_le16, bswap16_le16, load8_eq (show l4 + 12 < f.length by omega), hbuf]
  simp only [Option.bind_eq_bind, Option.bind_some, Option.map_some]
  by_cases hport : be16 f l4 ≠ 80 ∧ be16 f (l4 + 2) ≠ 80
  · rw [if_pos hport, if_neg (fun h => h.1.1.elim hport.1 hport.2)]
    rfl
  rw [if_neg hport]
  by_cases hpay : l4 + (byte f (l4 + 12) >>> 4).toNat * 4 > f.length
  · rw [if_pos hpay, if_neg (fun h => absurd h.1.2 (Nat.not_le.mpr hpay))]
    rfl
  rw [if_neg hpay]
  by_cases hres : reserve = false
  · rw [if_pos hres, if_neg (fun h => absurd (h.2.symm.trans hres) (by decide))]
    rfl
  rw [if_neg hres]
  have hweb : (segmentAt f l4).srcPort = 80 ∨ (segmentAt f l4).dstPort = 80 := by
    rw [not_and_or, not_not, not_not] at hport
    exact hport
  have hbuf' : fillPayload n limit f (l4 + (byte f (l4 + 12) >>> 4).toNat * 4) = some buf := hbuf
  rw [if_pos ⟨⟨hweb, Nat.not_lt.mp hpay⟩, Bool.eq_true_of_not_eq_false hres⟩,
    load32_eq (show 14 + 12 + 4 ≤ f.length by omega),
    load32_eq (show 14 + 16 + 4 ≤ f.length by omega), hbuf']
  simp only [segmentAt, Nat.reduceAdd, Option.bind_some]
  rfl

theorem tcHttpParse_eq (f : List UInt8) (protocol : UInt32) (reserve : Bool) :
    tcHttpParse f protocol reserve = some ⟨.ok,
      if protocol = 8 then (segment f).bind fun g => g.event 256 255 f reserve else none⟩ := by
  have h8 : (bswap16 ethPIp).toUInt32 = 8 := by decide +kernel
  have hat : 14 + (byte f 14 &&& 0xf).toNat * 4 = tcpAt f := rfl
  unfold tcHttpParse segment
  rw [h8]
  by_cases hp : protocol ≠ 8
  · rw [if_pos hp, if_neg hp]
    rfl
  rw [if_neg hp, if_pos (not_not.mp hp)]
  by_cases h14 : 14 > f.length
  · rw [if_pos h14, if_neg (by omega)]
    rfl
  rw [if_neg h14]
  by_cases h34 : 14 + 20 > f.length
  · rw [if_pos h34, if_neg (by omega)]
    rfl
  rw [if_neg h34, load8_eq (show 14 + 9 < f.length by omega), Option.bind_eq_bind, Option.bind_some]
  by_cases htcp : byte f (14 + 9) ≠ ipprotoTcp
  · rw [if_pos htcp, if_neg (fun h => htcp h.2.1)]
    rfl
  rw [if_neg htcp, load8_eq (show 14 < f.length by omega), Option.bind_eq_bind, Option.bind_some,
    hat]
  by_cases hl4 : tcpAt f + 20 > f.length
  · rw [if_pos hl4, if_neg (by omega)]
    rfl
  rw [if_neg hl4, if_pos ⟨by omega, not_not.mp htcp, by omega⟩,
    load16_eq (show tcpAt f + 2 ≤ f.length by omega),
    load16_eq (show tcpAt f + 2 + 2 ≤ f.length by omega)]
  exact report_eq TcAct.ok (by decide) (by omega) (by omega) reserve

/-- What `xdpPass` makes of the segment of a frame. -/
def verdictOn (f : List UInt8) (reserve : Bool) : Option Segment → Outcome XdpAct 1024
  | none => ⟨.pass, none⟩
  | some g => if g.dstPort = 8888 then ⟨.drop, none⟩ else ⟨.pass, g.event 1024 1024 f reserve⟩

theorem verdictOn_drop {g : Segment} (h : g.dstPort = 8888) (f : List UInt8) (reserve : Bool) :
    verdictOn f reserve (some g) = ⟨.drop, none⟩ := if_pos h

theorem verdictOn_pass {g : Segment} (h : ¬ g.dstPort = 8888) (f : List UInt8) (reserve : Bool) :
    verdictOn f reserve (some g) = ⟨.pass, g.event 1024 1024 f reserve⟩ := if_neg h

theorem xdpPass_eq (f : List UInt8) (reserve : Bool) :
    xdpPass f reserve =
      some (verdictOn f reserve (if be16 f 12 = ethPIp then segment f else none)) := by
  have hat : 14 + (byte f 14 &&& 0xf).toNat * 4 = tcpAt f := rfl
  unfold xdpPass
  by_cases h14 : 14 > f.length
  · rw [if_pos h14, show segment f = none from if_neg (by omega), ite_self]
    rfl
  rw [if_neg h14, load16_eq (show 12 + 2 ≤ f.length by omega), Option.bind_eq_bind,
    Option.bind_some, bswap16_le16]
  by_cases hip : be16 f 12 ≠ ethPIp
  · rw [if_pos hip, if_neg hip]
    rfl
  rw [if_neg hip, if_pos (not_not.mp hip)]
  unfold segment
  by_cases h34 : 14 + 20 > f.length
  · rw [if_pos h34, if_neg (by omega)]
    rfl
  rw [if_neg h34, load8_eq (show 14 + 9 < f.length by omega), Option.bind_eq_bind, Option.bind_some]
  by_cases htcp : byte f (14 + 9) ≠ ipprotoTcp
  · rw [if_pos htcp, if_neg (fun h => htcp h.2.1)]
    rfl
  rw [if_neg htcp, load8_eq (show 14 < f.length by omega), Option.bind_some, hat]
  by_cases hl4 : tcpAt f + 20 > f.length
  · rw [if_pos hl4, if_neg (by omega)]
    rfl
  rw [if_neg hl4, if_pos ⟨by omega, not_not.mp htcp, by omega⟩,
    load16_eq (show tcpAt f + 2 + 2 ≤ f.length by omega), Option.bind_some, bswap16_le16]
  by_cases hdrop : be16 f (tcpAt f + 2) = 8888
  · rw [if_pos hdrop, verdictOn_drop (g := segmentAt f (tcpAt f)) hdrop]
    rfl
  rw [if_neg hdrop, verdictOn_pass (g := segmentAt f (tcpAt f)) hdrop, load16_eq (show tcpAt f + 2 ≤ f.length by omega)]
  exact report_eq XdpAct.pass (Nat.le_refl _) (by omega) (by omega) reserve

/-- A segment comes from a frame with all its headers. -/
theorem segment_eq_some {g : Segment} (hg : segment f = some g) :
    (34 ≤ f.length ∧ byte f 23 = 6 ∧ tcpAt f + 20 ≤ f.length) ∧ g = segmentAt f (tcpAt f) := by
  unfold segment at hg
  split at hg
  · next h => exact ⟨h, (Option.some.inj hg).symm⟩
  · exact absurd hg nofun

/-- An event of `tcHttpParse` is that of the segment of the frame. -/
theorem tcHttpParse_event {protocol : UInt32} {t : Outcome TcAct 256}
    (ht : tcHttpParse f protocol reserve = some t) {e : HttpEvent 256} (he : e ∈ t.event) :
    ∃ g, segment f = some g ∧ e ∈ g.event 256 255 f reserve := by
  obtain rfl := Option.some.inj ((tcHttpParse_eq f protocol reserve).symm.trans ht)
  simp only at he
  split at he
  · exact Option.mem_bind_iff.mp he
  · exact absurd he nofun

/-- `xdpPass` passes the frame without an event, or decides on its segment. -/
theorem xdpPass_cases {x : Outcome XdpAct 1024} (hx : xdpPass f reserve = some x) :
    x = ⟨.pass, none⟩ ∨ ∃ g, segment f = some g ∧ be16 f 12 = ethPIp ∧
      x = verdictOn f reserve (some g) := by
  obtain rfl := Option.some.inj ((xdpPass_eq f reserve).symm.trans hx)
  split
  · next hip =>
    match hg : segment f with
    | none => exact .inl rfl
    | some g => exact .inr ⟨g, rfl, hip, rfl⟩
  · exact .inl rfl

/-- An event of `xdpPass` is that of the segment of the frame. -/
theorem xdpPass_event {x : Outcome XdpAct 1024} (hx : xdpPass f reserve = some x)
    {e : HttpEvent 1024} (he : e ∈ x.event) :
    ∃ g, segment f = some g ∧ be16 f 12 = ethPIp ∧ g.dstPort ≠ 8888 ∧
      e ∈ g.event 1024 1024 f reserve := by
  rcases xdpPass_cases hx with rfl | ⟨g, hg, hip, rfl⟩
  · exact absurd he nofun
  · by_cases h8888 : g.dstPort = 8888
    · rw [verdictOn_drop h8888] at he
      exact absurd he nofun
    · rw [verdictOn_pass h8888] at he
      exact ⟨g, hg, hip, h8888, he⟩

/-! ## Agreement -/

/-- The addresses and ports of an event. -/
def HttpEvent.ends (e : HttpEvent n) : UInt32 × UInt32 × UInt16 × UInt16 :=
  (e.srcIp, e.dstIp, e.srcPort, e.dstPort)

theorem Segment.isSome_event (g : Segment) (h : limit ≤ n) (f : List UInt8) (reserve : Bool) :
    (g.event n limit f reserve).isSome = true ↔ g.Web f ∧ reserve = true := by
  obtain ⟨buf, hbuf⟩ := fillPayload_isSome h f g.payload
  unfold Segment.event
  rw [hbuf]
  split
  · next hw => exact iff_of_true rfl hw
  · next hw => exact iff_of_false Bool.noConfusion hw

theorem Segment.mem_event {g : Segment} {e : HttpEvent n} (he : e ∈ g.event n limit f reserve) :
    g.Web f ∧ e.ends = (g.srcIp, g.dstIp, g.srcPort, g.dstPort) := by
  unfold Segment.event at he
  split at he
  · next hw =>
    obtain ⟨buf, -, rfl⟩ := Option.map_eq_some_iff.mp he
    exact ⟨hw.1, rfl⟩
  · exact absurd he nofun

/-- The field of an event is the one that was filled. -/
theorem Segment.event_payload {g : Segment} {e : HttpEvent n}
    (he : e ∈ g.event n limit f reserve) : fillPayload n limit f g.payload = some e.payload := by
  unfold Segment.event at he
  split at he
  · obtain ⟨buf, hbuf, rfl⟩ := Option.map_eq_some_iff.mp he
    exact hbuf
  · exact absurd he nofun

/-- `htons` on one side of the comparison or `ntohs` on the other. -/
theorem protocol_eq_iff (f : List UInt8) : (le16 f 12).toUInt32 = 8 ↔ be16 f 12 = ethPIp := by
  have h8 : bswap16 ethPIp = 8 := by decide +kernel
  rw [← bswap16_le16]
  constructor
  · intro h
    have h16 : le16 f 12 = 8 := UInt16.toUInt32_inj.mp h
    rw [h16]
    decide +kernel
  · intro h
    rw [← bswap16_bswap16 (le16 f 12), h, h8]
    rfl

/-- A frame with a segment is long enough to have a protocol. -/
theorem protocol_of_segment {protocol : UInt32} {g : Segment}
    (hp : ∀ hProto, load16 f 12 = some hProto → protocol = hProto.toUInt32)
    (hg : segment f = some g) : protocol = 8 ↔ be16 f 12 = ethPIp := by
  have h34 := (segment_eq_some hg).1.1
  rw [hp _ (load16_eq (show 12 + 2 ≤ f.length by omega))]
  exact protocol_eq_iff f

/-- The two programs report the same frames, with the same addresses and ports, except that what
    `xdpPass` drops is reported by `tcHttpParse` if it comes from port 80. -/
theorem tracers_agree (f : List UInt8) (protocol : UInt32)
    (hp : ∀ hProto, load16 f 12 = some hProto → protocol = hProto.toUInt32) :
    ∃ t x, tcHttpParse f protocol true = some t ∧ xdpPass f true = some x ∧
      (x.verdict ≠ .drop → (t.event.isSome = true ↔ x.event.isSome = true) ∧
        ∀ e₁ ∈ t.event, ∀ e₂ ∈ x.event, e₁.ends = e₂.ends) ∧
      (x.verdict = .drop → ∀ e ∈ t.event, e.srcPort = 80) := by
  refine ⟨_, _, tcHttpParse_eq f protocol true, xdpPass_eq f true, ?_⟩
  cases hg : segment f with
  | none => simp [verdictOn]
  | some g =>
    have hproto := protocol_of_segment hp hg
    by_cases hip : be16 f 12 = ethPIp
    · rw [if_pos hip, if_pos (hproto.mpr hip)]
      simp only [Option.bind_some]
      by_cases h8888 : g.dstPort = 8888
      · rw [verdictOn_drop h8888]
        refine ⟨fun h => absurd rfl h, fun _ e he => ?_⟩
        obtain ⟨⟨hport, -⟩, hends⟩ := Segment.mem_event he
        rw [h8888] at hport
        rw [show e.srcPort = g.srcPort from congrArg (fun x => x.2.2.1) hends]
        exact hport.resolve_right (by decide +kernel)
      · rw [verdictOn_pass h8888]
        refine ⟨fun _ => ⟨?_, fun e₁ h₁ e₂ h₂ => ?_⟩, fun h => by cases h⟩
        · rw [g.isSome_event (by decide), g.isSome_event (Nat.le_refl _)]
        · rw [(Segment.mem_event h₁).2, (Segment.mem_event h₂).2]
    · rw [if_neg hip, if_neg fun h => hip (hproto.mp h)]
      simp [verdictOn]

/-- `GET` from 10.0.0.1:1234 to 10.0.0.2:80. -/
def getFrame : List UInt8 :=
  [0, 0, 0, 0, 0, 0, 0, 0, 0, 0, 0, 0, 8, 0] ++
    [0x45, 0, 0, 43, 0, 0, 0, 0, 64, 6, 0, 0, 10, 0, 0, 1, 10, 0, 0, 2] ++
    [4, 210, 0, 80, 0, 0, 0, 0, 0, 0, 0, 0, 0x50, 0, 0, 0, 0, 0, 0, 0] ++ [71, 69, 84]

theorem tracers_agree_get :
    ∃ t x, tcHttpParse getFrame 8 true = some t ∧ xdpPass getFrame true = some x ∧
      t.event.map HttpEvent.dstPort = some 80 ∧
      (t.event.isSome = true ↔ x.event.isSome = true) ∧
        ∀ e₁ ∈ t.event, ∀ e₂ ∈ x.event, e₁.ends = e₂.ends := by
  have h16 : load16 getFrame 12 = some 8 := by decide +kernel
  obtain ⟨t, x, ht, hx, hagree, -⟩ := tracers_agree getFrame 8 (by
    intro hProto h
    rw [h16] at h
    cases h
    decide +kernel)
  have hport : (tcHttpParse getFrame 8 true).map (fun t => t.event.map HttpEvent.dstPort) =
      some (some 80) := by decide +kernel
  have hpass : (xdpPass getFrame true).map Outcome.verdict = some .pass := by decide +kernel
  rw [ht] at hport
  rw [hx] at hpass
  have hv : x.verdict = .pass := Option.some.inj hpass
  obtain ⟨h1, h2⟩ := hagree (by rw [hv]; decide)
  exact ⟨t, x, ht, hx, Option.some.inj hport, h1, h2⟩

end KernelMagic.Http
