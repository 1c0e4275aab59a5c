/-
  The probe on `tcp_sendmsg`, `eBPF/kprobe_sendmsg.bpf.c`, which prints what a process sends.

  It looks at the first `iovec` of the message and copies as many bytes as its array has, from the start
  of the message on, not as many as the message has. So a shorter message is printed with what the
  process has behind it in memory, and if that cannot all be read nothing is copied and an empty string
  is printed. `text_iff` says for which messages the text is that of the message.

  A read of kernel memory that fails leaves 0 in its variable. `iter_type` is read and not looked at, and
  left out. What `bpf_printk` gets ends in the last byte of the array, which stays 0.
-/
import KernelMagic.Lib.CString
import KernelMagic.Lib.UserCopy

namespace KernelMagic.SendMsg

open KernelMagic.Lib

/-- What the fields that are read hold, by the address of their structure; `none` is a fault. -/
structure KernelMem where
  iov : UInt64 → Option UInt64
  iovBase : UInt64 → Option UInt64
  iovLen : UInt64 → Option UInt64

/-- `bpf_probe_read_kernel` of a number. -/
def probeReadKernel (x : Option UInt64) : UInt64 := x.getD 0

/-- `bpf_probe_read_user` of `n` bytes, which copies all of them or clears its destination. -/
def probeReadUser (m : UserMem) (addr : UInt64) (n : Nat) : List UInt8 :=
  if (m.readable addr n).length = n then m.readable addr n else List.replicate n 0

/-- `sizeof(payload) - 1`. -/
abbrev payloadLen : Nat := 255

/-- A line "pid %d send payload: %s". -/
structure Line where
  pid : UInt32
  text : List UInt8
  deriving DecidableEq

/-- `tcp_sendmsg`, with the line that it prints. -/
def tcpSendmsg (k : KernelMem) (m : UserMem) (pidTgid msg : UInt64) : Option Line :=
  let pid := (pidTgid >>> 32).toUInt32
  let iov := probeReadKernel (k.iov msg)
  if iov ≠ 0 then
    let base := probeReadKernel (k.iovBase iov)
    let iovLen := probeReadKernel (k.iovLen iov)
    if base ≠ 0 ∧ iovLen > 0 then some ⟨pid, cstr (probeReadUser m base payloadLen ++ [0])⟩
    else none
  else none

/-- A message whose first `iovec` has `len` bytes at `base`, and the process can read them. -/
structure Sends (k : KernelMem) (m : UserMem) (msg base len : UInt64) : Prop where
  iov : ∃ iov, iov ≠ 0 ∧ k.iov msg = some iov ∧ k.iovBase iov = some base ∧ k.iovLen iov = some len
  base_ne : base ≠ 0
  len_pos : 0 < len
  readable : (m.readable base len.toNat).length = len.toNat

variable {k : KernelMem} {m : UserMem} {pidTgid msg base len : UInt64}

/-! ## The text -/

theorem cstr_replicate_zero (n : Nat) : cstr (List.replicate n 0) = [] := by
  cases n with
  | zero => rfl
  | succ n => exact cstr_cons_eq_nil_iff.mpr rfl

/-- The line that is printed. -/
theorem tcpSendmsg_eq (pidTgid : UInt64) (h : Sends k m msg base len) :
    tcpSendmsg k m pidTgid msg =
      some ⟨(pidTgid >>> 32).toUInt32, cstr (probeReadUser m base payloadLen)⟩ := by
  obtain ⟨iov, hne, hiov, hbase, hlen⟩ := h.iov
  have hnul : cstr (probeReadUser m base payloadLen ++ [0]) = cstr (probeReadUser m base payloadLen) :=
    takeWhile_stop rfl _ []
  unfold tcpSendmsg probeReadKernel
  simp only [hiov, hbase, hlen, Option.getD_some]
  rw [if_pos hne, if_pos ⟨h.base_ne, h.len_pos⟩, hnul]

theorem cstr_take_eq_nil_iff (h : Sends k m msg base len) :
    cstr ((m.readable base len.toNat).take payloadLen) = [] ↔
      (m.readable base len.toNat).head? = some 0 := by
  have hpos : 0 < len.toNat := h.len_pos
  have hne : m.readable base len.toNat ≠ [] := by
    intro hnil
    have hlen := h.readable
    rw [hnil, List.length_nil] at hlen
    omega
  obtain ⟨b, l, hcons⟩ := List.exists_cons_of_ne_nil hne
  rw [hcons, List.take_succ_cons, cstr_cons_eq_nil_iff, List.head?_cons, Option.some.injEq]

/-- Of a shorter message the array has all, and then what is behind it. -/
theorem readable_short (h : Sends k m msg base len) (hlt : len.toNat < payloadLen)
    (hall : (m.readable base payloadLen).length = payloadLen) :
    ∃ b rest, m.load (base + len) = some b ∧
      m.readable base payloadLen = m.readable base len.toNat ++ b :: rest := by
  have hadd := m.readable_add base (payloadLen - len.toNat) h.readable
  rw [Nat.add_sub_cancel' (Nat.le_of_lt hlt), UInt64.ofNat_toNat] at hadd
  rw [hadd, List.length_append, h.readable] at hall
  obtain ⟨j, hj⟩ : ∃ j, payloadLen - len.toNat = j + 1 := ⟨payloadLen - len.toNat - 1, by omega⟩
  rw [hj] at hadd hall
  cases hl : m.load (base + len) with
  | none =>
    simp only [UserMem.readable, hl, List.length_nil] at hall
    omega
  | some b =>
    refine ⟨b, m.readable (base + len + 1) j, rfl, hadd.trans ?_⟩
    rw [UserMem.readable, hl]

/-- **What is printed.** For every message that can be read where it is, a line is printed, and its text
    is the string that the first 255 bytes of the message are if and only if the message begins with a
    NUL, or 255 bytes can be read at its start and it has as many, or a NUL among them, or right behind
    it. -/
theorem text_iff (k : KernelMem) (m : UserMem) (pidTgid msg base len : UInt64)
    (h : Sends k m msg base len) :
    ∃ text, tcpSendmsg k m pidTgid msg = some ⟨(pidTgid >>> 32).toUInt32, text⟩ ∧
      (text = cstr ((m.readable base len.toNat).take payloadLen) ↔
        (m.readable base len.toNat).head? = some 0 ∨
          (m.readable base payloadLen).length = payloadLen ∧
            (payloadLen ≤ len.toNat ∨ 0 ∈ m.readable base len.toNat ∨ m.load (base + len) = some 0)) := by
  refine ⟨_, tcpSendmsg_eq pidTgid h, ?_⟩
  by_cases hall : (m.readable base payloadLen).length = payloadLen
  · rw [probeReadUser, if_pos hall, and_iff_right hall]
    by_cases hlong : payloadLen ≤ len.toNat
    · rw [m.readable_take base hlong]
      exact iff_of_true rfl (.inr (.inl hlong))
    · obtain ⟨b, rest, hload, happ⟩ := readable_short h (Nat.lt_of_not_le hlong) hall
      have htake : (m.readable base len.toNat).take payloadLen = m.readable base len.toNat :=
        List.take_of_length_le (by rw [h.readable]; omega)
      rw [htake, happ, cstr_append_eq_iff, cstr_cons_eq_nil_iff, hload, Option.some.injEq,
        or_iff_right hlong]
      -- a NUL at the start is one among the bytes
      exact ⟨.inr, fun hor => hor.elim (fun h0 => .inl (List.mem_of_mem_head? h0)) id⟩
  · rw [probeReadUser, if_neg hall, cstr_replicate_zero, eq_comm, cstr_take_eq_nil_iff h]
    exact ⟨.inl, fun hor => hor.resolve_right fun hr => hall hr.1⟩

/-- The fields of a message at 8 with an `iovec` at 16 for two bytes at 32. -/
def twoBytes : KernelMem where
  iov := fun a => if a = 8 then some 16 else none
  iovBase := fun a => if a = 16 then some 32 else none
  iovLen := fun a => if a = 16 then some 2 else none

/-- Nothing can be read behind the two bytes, so they are not printed. -/
theorem text_twoBytes :
    ∃ text, tcpSendmsg twoBytes (.block 32 (ascii "hi")) 0x700000007 8 = some ⟨7, text⟩ ∧
      text ≠ ascii "hi" := by
  have hread : (UserMem.block 32 (ascii "hi")).readable 32 2 = ascii "hi" := by decide
  have hshort : ((UserMem.block 32 (ascii "hi")).readable 32 payloadLen).length ≠ payloadLen := by
    rw [UserMem.readable_block 32 _ (by decide)]
    decide
  have hs : Sends twoBytes (.block 32 (ascii "hi")) 8 32 2 :=
    ⟨⟨16, by decide, rfl, rfl, rfl⟩, by decide, by decide, by decide⟩
  obtain ⟨text, hline, hiff⟩ := text_iff _ _ 0x700000007 8 32 2 hs
  refine ⟨text, hline, fun htext => ?_⟩
  have hmsg : text = cstr (((UserMem.block 32 (ascii "hi")).readable 32 2).take payloadLen) := by
    rw [htext, hread]
    decide
  rcases hiff.mp hmsg with h0 | hr
  · exact absurd h0 (by decide)
  · exact hshort hr.1

end KernelMagic.SendMsg
