/-
  `device_write` and `device_read`, which are the same in `driver_demo.c` and `driver_demo_new.c`, and the
  program `driver_demo/main.c` that calls them.

  `copy_from_user` and `copy_to_user` return how much they have not copied. Both functions take a
  negative value for a failure, and there is none: the count of a call is at most `MAX_RW_COUNT`, so what
  is left of it fits an `int`. So a call that faults returns its full count like any other.

  `printk` keeps no more of a record than its buffer has room for; among the lines of the two functions
  that matters for the one with the text of the caller.

  `device_read` stores its twelve bytes whatever the count is. `main` reads them into a block of which it
  has cleared as many bytes as a pointer has, and prints it as a string.
-/
import KernelMagic.Lib.CString
import KernelMagic.Lib.UserCopy

namespace KernelMagic.CharDevice

open KernelMagic.Lib

/-- `MAX_RW_COUNT`. -/
def maxRwCount : Nat := 0x7ffff000

/-- `EFAULT`. -/
def efault : Int := 14

/-- A call of `read` or `write`; `stop` is how far a copy gets that faults. -/
structure IoCall where
  user : UserMem
  buffer : UInt64
  length : Nat
  stop : Nat
  length_le : length ≤ maxRwCount

/-- What the two functions print; `received` has the record in the kernel log. -/
inductive IoLine where
  | write (length : Nat)
  | notCopied
  | received (record : List UInt8)
  | length (length : Nat)
  | notSent
  | sent
  deriving DecidableEq

/-- What a call returns and prints, and the memory of the caller after it. -/
structure Io where
  ret : Int
  log : List IoLine
  user : UserMem

/-- The room for the text of a record, which differs from kernel to kernel. -/
structure Printk where
  recordMax : Nat
  large : 512 ≤ recordMax

/-- What `printk` keeps of a line: as much as there is room for, without a newline at the end. -/
def Printk.keep (k : Printk) (line : List UInt8) : List UInt8 :=
  let record := line.take k.recordMax
  if record.getLast? = some 10 then record.dropLast else record

/-- "Received %zu data from user space: ". -/
def receivedHead (length : Nat) : List UInt8 :=
  ascii "Received " ++ (Nat.toDigits 10 length).map (·.toNat.toUInt8) ++
    ascii " data from user space: "

/-- The value of a copy as an `int`. -/
def asInt (n : Nat) : Int := (BitVec.ofNat 32 n).toInt

/-- `device_write`. A failed `kmalloc` is seen only behind the `memset` of its result; `none` is that
    crash. -/
def deviceWrite (k : Printk) (c : IoCall) (kmalloc : Bool) : Option Io :=
  if kmalloc then
    let copy := copyFromUser c.user c.buffer c.length c.stop
    if asInt copy.2 < 0 then some ⟨-efault, [.write c.length, .notCopied], c.user⟩
    else
      let line := receivedHead c.length ++ cstr (copy.1 ++ [0]) ++ [10]
      some ⟨c.length, [.write c.length, .received (k.keep line)], c.user⟩
  else none

/-- "derek sunder". -/
def answer : List UInt8 := ascii "derek sunder"

/-- `device_read`. -/
def deviceRead (c : IoCall) : Io :=
  let copy := copyToUser c.user c.buffer answer c.stop
  if asInt copy.2 < 0 then ⟨-efault, [.length c.length, .notSent], copy.1⟩
  else ⟨c.length, [.length c.length, .sent], copy.1⟩

/-! ## The kernel log -/

variable {k : Printk} {l : List UInt8}

/-- There is room for a line: for its newline too, or there is none to drop at the end. -/
def Printk.Holds (k : Printk) (l : List UInt8) : Prop :=
  l.length < k.recordMax ∨ l.length = k.recordMax ∧ l.getLast? ≠ some 10

theorem keep_of_lt (h : l.length < k.recordMax) : k.keep (l ++ [10]) = l := by
  have hall : (l ++ [10]).take k.recordMax = l ++ [10] :=
    List.take_of_length_le (by rw [List.length_append]; exact h)
  simp only [Printk.keep, hall, List.getLast?_concat, if_true, List.dropLast_concat]

theorem keep_of_le (h : k.recordMax ≤ l.length) :
    k.keep (l ++ [10]) = if (l.take k.recordMax).getLast? = some 10 then
      (l.take k.recordMax).dropLast else l.take k.recordMax := by
  simp only [Printk.keep, List.take_append_of_le_length h]

theorem keep_prefix (k : Printk) (l : List UInt8) : k.keep (l ++ [10]) <+: l := by
  rcases Nat.lt_or_ge l.length k.recordMax with h | h
  · rw [keep_of_lt h]
  · rw [keep_of_le h]
    split
    · exact (List.dropLast_prefix _).trans (List.take_prefix _ _)
    · exact List.take_prefix _ _

/-- A line is in the log as it is exactly when there is room for it. -/
theorem keep_eq_iff : k.keep (l ++ [10]) = l ↔ k.Holds l := by
  unfold Printk.Holds
  rcases Nat.lt_trichotomy l.length k.recordMax with h | h | h
  · exact iff_of_true (keep_of_lt h) (.inl h)
  · have hpos : 0 < l.length := by
      have := k.large
      omega
    have hall : l.take k.recordMax = l := List.take_of_length_le h.le
    rw [keep_of_le h.ge, hall, or_iff_right (by omega), and_iff_right h]
    split
    · next hlast =>
      refine iff_of_false (fun heq => ?_) (not_not_intro hlast)
      have hlen := congrArg List.length heq
      rw [List.length_dropLast] at hlen
      omega
    · next hlast => exact iff_of_true rfl hlast
  · refine iff_of_false (fun heq => ?_) (by omega)
    have hlen : (k.keep (l ++ [10])).length ≤ (l.take k.recordMax).length := by
      rw [keep_of_le h.le]
      split
      · rw [List.length_dropLast]
        exact Nat.sub_le _ _
      · exact Nat.le_refl _
    rw [heq, List.length_take] at hlen
    omega

/-! ## What a call does -/

variable {c : IoCall}

theorem asInt_nonneg {n : Nat} (h : n < 2 ^ 31) : 0 ≤ asInt n := by
  unfold asInt
  rw [BitVec.toInt_ofNat']
  have := Int.emod_nonneg (n : Int) (show (2 ^ 32 : Int) ≠ 0 by decide)
  rw [Int.bmod_def]
  split <;> omega

theorem length_answer : answer.length = 12 := by decide

theorem copyFromUser_left_le (m : UserMem) (addr : UInt64) (n stop : Nat) :
    (copyFromUser m addr n stop).2 ≤ n := by
  unfold copyFromUser
  split
  · exact Nat.zero_le n
  · exact Nat.sub_le _ _

theorem copyToUser_left_le (m : UserMem) (addr : UInt64) (bs : List UInt8) (stop : Nat) :
    (copyToUser m addr bs stop).2 ≤ bs.length := by
  unfold copyToUser
  split
  · exact Nat.zero_le _
  · exact Nat.sub_le _ _

/-- The bytes that a write gets hold of: all of them, or those in front of a fault as far as the copy
    gets. -/
def IoCall.reached (c : IoCall) : List UInt8 :=
  let bytes := c.user.readable c.buffer c.length
  if bytes.length = c.length then bytes else bytes.take c.stop

/-- What is filled with zeros is not part of the string. -/
theorem cstr_copyFromUser (c : IoCall) :
    cstr ((copyFromUser c.user c.buffer c.length c.stop).1 ++ [0]) = cstr c.reached := by
  have hzeros (l : List UInt8) (n : Nat) : cstr (l ++ List.replicate n 0 ++ [0]) = cstr l := by
    rw [List.append_assoc, ← List.replicate_succ', List.replicate_succ]
    exact takeWhile_stop rfl l _
  unfold IoCall.reached
  by_cases h : (c.user.readable c.buffer c.length).length = c.length
  · simp only [copyFromUser_of_readable h, if_pos h]
    exact takeWhile_stop rfl _ []
  · simp only [copyFromUser_of_fault h, if_neg h]
    exact hzeros _ _

theorem deviceWrite_eq (k : Printk) (c : IoCall) :
    deviceWrite k c true = some ⟨c.length, [.write c.length,
      .received (k.keep (receivedHead c.length ++ cstr c.reached ++ [10]))], c.user⟩ := by
  have hle := copyFromUser_left_le c.user c.buffer c.length c.stop
  have hlen := c.length_le
  unfold maxRwCount at hlen
  have hpos := asInt_nonneg (n := (copyFromUser c.user c.buffer c.length c.stop).2) (by omega)
  unfold deviceWrite
  simp only [if_true]
  rw [if_neg (Int.not_lt.mpr hpos), cstr_copyFromUser]

theorem deviceRead_eq (c : IoCall) :
    deviceRead c = ⟨c.length, [.length c.length, .sent],
      (copyToUser c.user c.buffer answer c.stop).1⟩ := by
  have hle := copyToUser_left_le c.user c.buffer answer c.stop
  rw [length_answer] at hle
  have hpos := asInt_nonneg (n := (copyToUser c.user c.buffer answer c.stop).2) (by omega)
  unfold deviceRead
  simp only
  rw [if_neg (Int.not_lt.mpr hpos)]

theorem length_reached_le (c : IoCall) : c.reached.length ≤ c.length := by
  have hle := c.user.length_readable_le c.buffer c.length
  unfold IoCall.reached
  simp only
  split
  · exact hle
  · exact (List.length_take_le' _ _).trans hle

/-- The string that a write gets hold of has the length of the call exactly when all its bytes could be
    loaded and none is a NUL; and then it is these bytes. -/
theorem cstr_reached_eq_iff {message : List UInt8} (hlen : message.length = c.length) :
    cstr c.reached = message ↔ c.user.readable c.buffer c.length = message ∧ 0 ∉ message := by
  have hle := c.user.length_readable_le c.buffer c.length
  unfold IoCall.reached
  by_cases h : (c.user.readable c.buffer c.length).length = c.length
  · simp only [if_pos h]
    constructor
    · intro hc
      have hall : cstr (c.user.readable c.buffer c.length) = c.user.readable c.buffer c.length :=
        (List.takeWhile_prefix _).eq_of_length (by rw [← cstr, hc, hlen, h])
      obtain rfl := hall.symm.trans hc
      exact ⟨rfl, cstr_eq_self_iff.mp hall⟩
    · rintro ⟨rfl, h0⟩
      exact cstr_eq_self_iff.mpr h0
  · simp only [if_neg h]
    refine iff_of_false (fun hc => h ?_) fun hc => h (hc.1 ▸ hlen)
    have h1 := length_cstr_le ((c.user.readable c.buffer c.length).take c.stop)
    have h2 := List.length_take_le' c.stop (c.user.readable c.buffer c.length)
    rw [hc, hlen] at h1
    omega

/-- **No failure is reported.** Every write for which there is memory and every read return their count,
    whatever faults they meet. The record of the write shows a message of that length if and only if
    these are the bytes that could be loaded, with no NUL among them, and the record has room for them.
    The read leaves alone what is not among the twelve bytes from its buffer on. -/
theorem io_returns_length (k : Printk) (c : IoCall) :
    (∃ io record, deviceWrite k c true = some io ∧ io.ret = c.length ∧
      io.log = [.write c.length, .received record] ∧
      ∀ message : List UInt8, message.length = c.length →
        (record = receivedHead c.length ++ message ↔
          c.user.readable c.buffer c.length = message ∧ 0 ∉ message ∧
            k.Holds (receivedHead c.length ++ message))) ∧
      (deviceRead c).ret = c.length ∧
      ∀ a, 12 ≤ (a - c.buffer).toNat → (deviceRead c).user.load a = c.user.load a := by
  refine ⟨⟨_, _, deviceWrite_eq k c, rfl, rfl, fun message hlen => ?_⟩, ?_, fun a ha => ?_⟩
  · rw [← and_assoc, ← cstr_reached_eq_iff hlen, ← keep_eq_iff]
    constructor
    · intro hrec
      have hpre := keep_prefix k (receivedHead c.length ++ cstr c.reached)
      have hshort : (cstr c.reached).length ≤ message.length := by
        rw [hlen]
        exact (length_cstr_le _).trans (length_reached_le c)
      rw [hrec, List.prefix_append_right_inj] at hpre
      have htext : cstr c.reached = message := (hpre.eq_of_length_le hshort).symm
      exact ⟨htext, htext ▸ hrec⟩
    · rintro ⟨rfl, hkeep⟩
      exact hkeep
  · rw [deviceRead_eq]
  · have hput (bs : List UInt8) (hbs : bs.length ≤ 12) :
        (c.user.put c.buffer bs).load a = c.user.load a := by
      simp only [UserMem.put, List.getElem?_eq_none (Nat.le_trans hbs ha)]
    rw [deviceRead_eq]
    show (copyToUser c.user c.buffer answer c.stop).1.load a = c.user.load a
    unfold copyToUser
    split
    · exact hput answer (Nat.le_of_eq length_answer)
    · exact hput _ ((List.length_take_le' _ _).trans (Nat.le_of_eq length_answer))

/-! ## `main.c` -/

/-- `sizeof(char *) * 1024`. -/
abbrev blockLen : Nat := 8192

/-- "This is from user space!". -/
def message : List UInt8 := ascii "This is from user space!"

/-- The block after `memset(read_msg, 0, sizeof(read_msg))`. -/
def memset (block : List UInt8) : List UInt8 := List.replicate 8 0 ++ block.drop 8

/-- The call of `write`, with the string constant at `addr`. -/
def mainWrite (addr : UInt64) : IoCall := ⟨.block addr message, addr, message.length, 0, by decide⟩

/-- The call of `read`, with the block at `addr`. -/
def mainRead (addr : UInt64) (block : List UInt8) : IoCall :=
  ⟨.block addr (memset block), addr, 1024, 0, by decide⟩

/-- `main` from the successful `open` on, with the contents of the block that `malloc` returns and the
    addresses of the message and the block: what `device_write` prints, and the text behind "read from
    core: "; `none` is a read past the end of the block. -/
def main (k : Printk) (messageAt blockAt : UInt64) (block : List.Vector UInt8 blockLen) :
    Option (List IoLine × List UInt8) :=
  (deviceWrite k (mainWrite messageAt) true).bind fun w =>
    let r := deviceRead (mainRead blockAt block.1)
    (printStr (r.user.readable blockAt blockLen)).map fun text => (w.log, text)

/-- The block after the read. -/
theorem readable_mainRead (addr : UInt64) (block : List.Vector UInt8 blockLen) :
    (deviceRead (mainRead addr block.1)).user.readable addr blockLen =
      answer ++ block.1.drop 12 := by
  have hlen : block.1.length = 8192 := block.2
  have hmem : (memset block.1).length = 8192 := by
    rw [memset, List.length_append, List.length_replicate, List.length_drop, hlen]
  have hroom : (UserMem.block addr (memset block.1)).room addr answer.length = answer.length := by
    rw [UserMem.room_block addr _ (by rw [hmem]; decide), hmem]
    decide
  have hdrop : (memset block.1).drop 12 = block.1.drop 12 := by
    rw [memset, List.drop_append, List.drop_of_length_le (by simp), List.length_replicate,
      List.drop_drop, List.nil_append]
  have hcopy : (copyToUser (.block addr (memset block.1)) addr answer 0).1 =
      .block addr (answer ++ block.1.drop 12) := by
    unfold copyToUser
    rw [if_pos hroom, UserMem.load_put_block addr _ _ (by rw [hmem]; decide), length_answer, hdrop]
  have hall : (answer ++ block.1.drop 12).length = 8192 := by
    rw [List.length_append, List.length_drop, hlen, length_answer]
  rw [deviceRead_eq]
  show (copyToUser (.block addr (memset block.1)) addr answer 0).1.readable addr blockLen = _
  rw [hcopy, UserMem.readable_block addr _ (by rw [hall]; decide),
    List.take_of_length_le (Nat.le_of_eq hall)]

theorem zero_notMem_answer : 0 ∉ answer := by decide

/-- A record has room for the message of `main`. -/
theorem keep_message (k : Printk) :
    k.keep (receivedHead 24 ++ message ++ [10]) = receivedHead 24 ++ message := by
  have hlen : (receivedHead 24 ++ message).length = 58 := by decide
  have hlarge := k.large
  exact keep_of_lt (by omega)

/-- **The program and its driver.** The driver receives the whole message. What `main` prints is the
    answer of the driver followed by what `malloc` has left behind it in the block, up to the first NUL;
    so it is the answer if and only if the thirteenth byte of the block was zero, and the print leaves
    the block if and only if there was no zero from there on. -/
theorem main_prints_iff (k : Printk) (messageAt blockAt : UInt64)
    (block : List.Vector UInt8 blockLen) :
    (main k messageAt blockAt block =
        some ([.write 24, .received (receivedHead 24 ++ message)], answer) ↔
      block.1[12]? = some 0) ∧
      (main k messageAt blockAt block = none ↔ 0 ∉ block.1.drop 12) := by
  have hmsg : (mainWrite messageAt).reached = message := by
    have hread : (UserMem.block messageAt message).readable messageAt message.length = message := by
      rw [UserMem.readable_block messageAt message (by decide), List.take_length]
    unfold IoCall.reached
    simp only [mainWrite, hread, if_true]
  have hlog : (mainWrite messageAt).length = 24 := show message.length = 24 by decide
  have hmain : main k messageAt blockAt block = (printStr (answer ++ block.1.drop 12)).map
      fun text => ([.write 24, .received (receivedHead 24 ++ message)], text) := by
    have hr := readable_mainRead blockAt block
    unfold main
    simp only [deviceWrite_eq, Option.bind_some, hr, hmsg, hlog,
      show cstr message = message by decide, keep_message]
  have hanswer : cstr answer = answer := cstr_eq_self_iff.mpr zero_notMem_answer
  have hfirst : (0 ∈ answer ∨ (block.1.drop 12).head? = some 0) ↔ block.1[12]? = some 0 := by
    rw [List.head?_drop]
    exact or_iff_right zero_notMem_answer
  rw [hmain]
  constructor
  · rw [← hfirst, ← printStr_append_eq_iff, hanswer, Option.map_eq_some_iff]
    exact ⟨fun ⟨text, ht, he⟩ => by rw [ht, (Prod.mk.inj he).2], fun ht => ⟨answer, ht, rfl⟩⟩
  · have h0 : 0 ∈ answer ++ block.1.drop 12 ↔ 0 ∈ block.1.drop 12 := by
      rw [List.mem_append]
      exact or_iff_right zero_notMem_answer
    rw [Option.map_eq_none_iff, printStr, ← h0]
    split
    · next h => exact iff_of_false (fun hn => by cases hn) fun hn => hn h
    · next h => exact iff_of_true rfl h

end KernelMagic.CharDevice
