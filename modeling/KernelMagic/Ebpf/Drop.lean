/-
  Which frames `xdpPass` drops. It takes the two bytes at `16 + 4 * ihl` for the destination port without
  a look at the fragment offset, and without a check that `ihl` is the length of an IP header at all.

  In a fragment that is not the first there is no TCP header, and these bytes are data
  (`fragment_dropped`); below 20 bytes the IP header overlaps what is taken for the TCP header. In every
  other frame that is dropped they are the port.
-/
import KernelMagic.Ebpf.Event

namespace KernelMagic.Http

open KernelMagic.Lib

variable {f : List UInt8}

/-- `ihl`, in words of four bytes. -/
def ihl (f : List UInt8) : Nat := (byte f 14 &&& 0xf).toNat

/-- The fragment offset, in units of eight bytes: the field behind the three flags. -/
def fragOff (f : List UInt8) : Nat := (be16 f 20).toNat % 8192

/-- A TCP packet to port 8888. -/
structure To8888 (f : List UInt8) : Prop where
  ipv4 : be16 f 12 = ethPIp
  header : 5 ≤ ihl f
  first : fragOff f = 0
  tcp : byte f 23 = ipprotoTcp
  whole : 14 + 4 * ihl f + 20 ≤ f.length
  port : be16 f (14 + 4 * ihl f + 2) = 8888

/-- What `xdpPass` takes for one. -/
structure Looks8888 (f : List UInt8) : Prop where
  ipv4 : be16 f 12 = ethPIp
  long : 34 ≤ f.length
  tcp : byte f 23 = ipprotoTcp
  whole : 14 + 4 * ihl f + 20 ≤ f.length
  port : be16 f (14 + 4 * ihl f + 2) = 8888

theorem tcpAt_eq (f : List UInt8) : tcpAt f = 14 + 4 * ihl f := by
  unfold tcpAt ihl
  rw [Nat.mul_comm]

theorem xdpPass_drop_iff {reserve : Bool} {x : Outcome XdpAct 1024}
    (hx : xdpPass f reserve = some x) : x.verdict = .drop ↔ Looks8888 f := by
  constructor
  · intro h
    rcases xdpPass_cases hx with rfl | ⟨g, hg, hip, rfl⟩
    · exact absurd h nofun
    by_cases hport : g.dstPort = 8888
    · obtain ⟨⟨h34, h6, h20⟩, rfl⟩ := segment_eq_some hg
      have hport : be16 f (tcpAt f + 2) = 8888 := hport
      rw [tcpAt_eq] at h20 hport
      exact ⟨hip, h34, h6, h20, hport⟩
    · rw [verdictOn_pass hport] at h
      exact absurd h nofun
  · rintro ⟨hip, h34, h6, h20, hport⟩
    obtain rfl := Option.some.inj ((xdpPass_eq f reserve).symm.trans hx)
    rw [← tcpAt_eq] at h20 hport
    have hg : segment f = some (segmentAt f (tcpAt f)) := if_pos ⟨h34, h6, h20⟩
    rw [if_pos hip, hg, verdictOn_drop (show (segmentAt f (tcpAt f)).dstPort = 8888 from hport)]

/-- What is taken for a TCP packet to port 8888 is one unless the header is cut short or this is not
    the first fragment. -/
theorem Looks8888.to_iff (h : Looks8888 f) : To8888 f ↔ ¬ (ihl f < 5 ∨ fragOff f ≠ 0) := by
  constructor
  · rintro h' (hshort | hfrag)
    · exact absurd h'.header (Nat.not_le.mpr hshort)
    · exact hfrag h'.first
  · intro hn
    rw [not_or, Nat.not_lt, not_not] at hn
    exact ⟨h.ipv4, hn.1, hn.2, h.tcp, h.whole, h.port⟩

/-- **Drops.** Exactly the frames in which a port is found where there is no TCP header are dropped
    without being TCP to port 8888. -/
theorem drop_iff (f : List UInt8) (reserve : Bool) :
    ∃ x, xdpPass f reserve = some x ∧
      ((x.verdict = .drop → To8888 f) ↔
        ¬ ((ihl f < 5 ∨ fragOff f ≠ 0) ∧ Looks8888 f)) := by
  refine ⟨_, xdpPass_eq f reserve, ?_⟩
  rw [xdpPass_drop_iff (xdpPass_eq f reserve)]
  constructor
  · rintro h ⟨hbad, hl⟩
    exact hl.to_iff.mp (h hl) hbad
  · intro h hl
    exact hl.to_iff.mpr fun hbad => h ⟨hbad, hl⟩

/-- The second fragment of a datagram to 10.0.0.2, eight bytes on; its data begins with
    `1, 2, 0x22, 0xb8`. -/
def fragment : List UInt8 :=
  [0, 0, 0, 0, 0, 0, 0, 0, 0, 0, 0, 0, 8, 0] ++
    [0x45, 0, 0, 40, 0, 1, 0, 1, 64, 6, 0, 0, 10, 0, 0, 1, 10, 0, 0, 2] ++
    [1, 2, 0x22, 0xb8, 0, 0, 0, 0, 0, 0, 0, 0, 0, 0, 0, 0, 0, 0, 0, 0]

theorem fragment_dropped :
    ∃ x, xdpPass fragment true = some x ∧ x.verdict = .drop ∧ ¬ To8888 fragment := by
  have hx : (xdpPass fragment true).map Outcome.verdict = some .drop := by decide +kernel
  have hfrag : fragOff fragment = 1 := by decide +kernel
  obtain ⟨x, hx, hv⟩ := Option.map_eq_some_iff.mp hx
  refine ⟨x, hx, hv, fun h => ?_⟩
  exact absurd (h.first.symm.trans hfrag) (by decide)

end KernelMagic.Http
