/-
  The two tracers over the memory of the machine: from `data` on there are bytes everywhere, and a load
  behind `data_end` reads some of them. The programs are those of `tcHttpParse` and `xdpPass` with every
  access written down.

  Each comparison with `data_end` covers the header behind it, the 20 bytes at `tcph` wherever the
  nibble `ihl` puts it, and the comparison of `payload` keeps the difference from wrapping. What `doff`
  below 5 does is to let the payload start inside the TCP header, which is in the frame all the same.
-/
import KernelMagic.Lib.Access
import KernelMagic.Ebpf.Http

namespace KernelMagic.Http.Memory

open KernelMagic.Lib

/-- The payload field; the memory is read from `payload` on. -/
def fillPayload (n limit : Nat) (m : Nat → UInt8) (dataEnd payload : Nat) :
    Logged (List.Vector UInt8 n) := do
  let availableLen ← Logged.diff dataEnd payload
  let copyLen := if availableLen < limit then availableLen else n
  if payload + copyLen ≤ dataEnd then
    Logged.readInto (List.Vector.replicate n 0) copyLen m payload
  else return List.Vector.replicate n 0

def report {ν : Type} (pass : ν) (n limit : Nat) (m : Nat → UInt8) (dataEnd l3 l4 : Nat)
    (source dest : UInt16) (reserve : Bool) : Logged (Outcome ν n) := do
  if bswap16 source ≠ 80 ∧ bswap16 dest ≠ 80 then return ⟨pass, none⟩
  let doff ← Logged.load8 m (l4 + 12)
  let payload := l4 + (doff >>> 4).toNat * 4
  if payload > dataEnd then return ⟨pass, none⟩
  if reserve = false then return ⟨pass, none⟩
  let saddr ← Logged.load32 m (l3 + 12)
  let daddr ← Logged.load32 m (l3 + 16)
  let buf ← fillPayload n limit m dataEnd payload
  return ⟨pass, some ⟨saddr, daddr, bswap16 source, bswap16 dest, buf⟩⟩

/-- `tc_http_parse`. -/
def tcHttpParse (m : Nat → UInt8) (dataEnd : Nat) (protocol : UInt32) (reserve : Bool) :
    Logged (Outcome TcAct 256) := do
  if protocol ≠ (bswap16 ethPIp).toUInt32 then return ⟨.ok, none⟩
  if ethLen > dataEnd then return ⟨.ok, none⟩
  let l3 := ethLen
  if l3 + ipLen > dataEnd then return ⟨.ok, none⟩
  let proto ← Logged.load8 m (l3 + 9)
  if proto ≠ ipprotoTcp then return ⟨.ok, none⟩
  let ihl ← Logged.load8 m l3
  let l4 := l3 + (ihl &&& 0xf).toNat * 4
  if l4 + tcpLen > dataEnd then return ⟨.ok, none⟩
  let source ← Logged.load16 m l4
  let dest ← Logged.load16 m (l4 + 2)
  report .ok 256 255 m dataEnd l3 l4 source dest reserve

/-- `xdp_pass`, which reads the destination port twice. -/
def xdpPass (m : Nat → UInt8) (dataEnd : Nat) (reserve : Bool) : Logged (Outcome XdpAct 1024) := do
  if ethLen > dataEnd then return ⟨.pass, none⟩
  let hProto ← Logged.load16 m 12
  if bswap16 hProto ≠ ethPIp then return ⟨.pass, none⟩
  let iph := ethLen
  if iph + ipLen > dataEnd then return ⟨.pass, none⟩
  let proto ← Logged.load8 m (iph + 9)
  if proto ≠ ipprotoTcp then return ⟨.pass, none⟩
  let ihl ← Logged.load8 m iph
  let tcph := iph + (ihl &&& 0xf).toNat * 4
  if tcph + tcpLen > dataEnd then return ⟨.pass, none⟩
  let dest ← Logged.load16 m (tcph + 2)
  if bswap16 dest = 8888 then return ⟨.drop, none⟩
  let source ← Logged.load16 m tcph
  let dest ← Logged.load16 m (tcph + 2)
  report .pass 1024 1024 m dataEnd iph tcph source dest reserve

variable {n limit dataEnd : Nat}

/-! ## The accesses -/

theorem fillPayload_checked (m : Nat → UInt8) {payload : Nat} (hlim : limit ≤ n)
    (hp : payload ≤ dataEnd) :
    Checked dataEnd (fillPayload n limit m dataEnd payload)
      (Http.fillPayload n limit (packet m dataEnd) payload) := by
  unfold fillPayload Http.fillPayload
  rw [length_packet]
  refine Checked.extra (fun a ha => ?_) (Checked.ite (fun hle => ?_) fun _ => Checked.pure _)
  · obtain rfl := List.mem_singleton.mp ha
    exact hp
  · refine Checked.readInto m _ hle ?_
    split
    · omega
    · exact Nat.le_refl n

theorem report_checked {ν : Type} (pass : ν) (m : Nat → UInt8) (hlim : limit ≤ n) {l3 l4 : Nat}
    (hl3 : l3 + 20 ≤ dataEnd) (hl4 : l4 + 20 ≤ dataEnd) (source dest : UInt16)
    (reserve : Bool) :
    Checked dataEnd (report pass n limit m dataEnd l3 l4 source dest reserve)
      (Http.report pass n limit (packet m dataEnd) l3 l4 source dest reserve) := by
  unfold report Http.report
  rw [length_packet]
  refine Checked.ite (fun _ => Checked.pure _) fun _ => ?_
  refine Checked.bind (Checked.load8 m (by omega)) ?_
  refine Checked.ite (fun _ => Checked.pure _) fun hp => ?_
  refine Checked.ite (fun _ => Checked.pure _) fun _ => ?_
  refine Checked.bind (Checked.load32 m (by omega)) ?_
  refine Checked.bind (Checked.load32 m (by omega)) ?_
  exact Checked.bind (fillPayload_checked m hlim (Nat.not_lt.mp hp)) (Checked.pure _)

theorem tcHttpParse_checked (m : Nat → UInt8) (dataEnd : Nat) (protocol : UInt32) (reserve : Bool) :
    Checked dataEnd (tcHttpParse m dataEnd protocol reserve)
      (Http.tcHttpParse (packet m dataEnd) protocol reserve) := by
  unfold tcHttpParse Http.tcHttpParse ethLen ipLen tcpLen
  rw [length_packet]
  refine Checked.ite (fun _ => Checked.pure _) fun _ => ?_
  refine Checked.ite (fun _ => Checked.pure _) fun _ => ?_
  refine Checked.ite (fun _ => Checked.pure _) fun h34 => ?_
  refine Checked.bind (Checked.load8 m (by omega)) ?_
  refine Checked.ite (fun _ => Checked.pure _) fun _ => ?_
  refine Checked.bind (Checked.load8 m (by omega)) ?_
  refine Checked.ite (fun _ => Checked.pure _) fun hl4 => ?_
  refine Checked.bind (Checked.load16 m (by omega)) ?_
  refine Checked.bind (Checked.load16 m (by omega)) ?_
  exact report_checked TcAct.ok m (by decide) (Nat.not_lt.mp h34) (Nat.not_lt.mp hl4) _ _ reserve

theorem xdpPass_checked (m : Nat → UInt8) (dataEnd : Nat) (reserve : Bool) :
    Checked dataEnd (xdpPass m dataEnd reserve) (Http.xdpPass (packet m dataEnd) reserve) := by
  unfold xdpPass Http.xdpPass ethLen ipLen tcpLen
  rw [length_packet]
  refine Checked.ite (fun _ => Checked.pure _) fun h14 => ?_
  refine Checked.bind (Checked.load16 m (by omega)) ?_
  refine Checked.ite (fun _ => Checked.pure _) fun _ => ?_
  refine Checked.ite (fun _ => Checked.pure _) fun h34 => ?_
  refine Checked.bind (Checked.load8 m (by omega)) ?_
  refine Checked.ite (fun _ => Checked.pure _) fun _ => ?_
  refine Checked.bind (Checked.load8 m (by omega)) ?_
  refine Checked.ite (fun _ => Checked.pure _) fun htcp => ?_
  refine Checked.bind (Checked.load16 m (by omega)) ?_
  refine Checked.ite (fun _ => Checked.pure _) fun _ => ?_
  refine Checked.bind (Checked.load16 m (by omega)) ?_
  -- the port is read again, from the same place
  refine Checked.extra (Checked.load16 m (by omega)).ok ?_
  exact report_checked XdpAct.pass m (Nat.le_refl 1024) (Nat.not_lt.mp h34) (Nat.not_lt.mp htcp) _ _ reserve

/-- **In bounds.** Whatever is in memory and wherever the frame ends: the programs read nothing
    outside the frame, the difference of `data_end` and `payload` does not wrap, and no more is copied
    than the field holds. -/
theorem tracers_in_bounds (m : Nat → UInt8) (dataEnd : Nat) (protocol : UInt32) (reserve : Bool) :
    (∀ a ∈ (tcHttpParse m dataEnd protocol reserve).log, a.Ok dataEnd) ∧
      ∀ a ∈ (xdpPass m dataEnd reserve).log, a.Ok dataEnd :=
  ⟨(tcHttpParse_checked m dataEnd protocol reserve).ok, (xdpPass_checked m dataEnd reserve).ok⟩

end KernelMagic.Http.Memory
