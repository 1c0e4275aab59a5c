/-
  `my_ioctl` of `ioctl/ioctl_demo.c`: a register of one `int` that user space sets and reads.

  `device_status` is the four bytes of the `int`. A call comes with its command, its argument, which
  is an address, and the memory of the caller. What is printed with `printk` is left out.

  The register is the destination of `copy_from_user` itself, and a copy that faults has already
  changed it: its prefix is there and the rest is zero. `register_iff` says exactly when that does not
  matter.
-/
import KernelMagic.Lib.UserCopy

namespace KernelMagic.Ioctl

open KernelMagic.Lib

/-- `_IOC`. -/
def ioc (dir type nr size : UInt32) : UInt32 := dir <<< 30 ||| size <<< 16 ||| type <<< 8 ||| nr

/-- `MY_IOCTL_MAGIC`. -/
def myIoctlMagic : UInt32 := 107

/-- `sizeof(int)`. -/
abbrev sizeofInt : Nat := 4

/-- `MY_IOCTL_SET_STATUS`, `_IOW(MY_IOCTL_MAGIC, 1, int)`. -/
def myIoctlSetStatus : UInt32 := ioc 1 myIoctlMagic 1 4

/-- `MY_IOCTL_GET_STATUS`, `_IOR(MY_IOCTL_MAGIC, 2, int)`. -/
def myIoctlGetStatus : UInt32 := ioc 2 myIoctlMagic 2 4

/-- `EFAULT`. -/
def efault : Int := 14

/-- `ENOTTY`. -/
def enotty : Int := 25

/-- `device_status`. -/
abbrev Status : Type := List.Vector UInt8 sizeofInt

/-- The initial value of `device_status`. -/
def initial : Status := List.Vector.replicate sizeofInt 0

/-- One call; `stop` is how far a copy gets that faults. -/
structure Call where
  cmd : UInt32
  arg : UInt64
  user : UserMem
  stop : Nat

/-- What a call returns, and the register and the caller's memory after it. -/
structure Result where
  ret : Int
  status : Status
  user : UserMem

/-- `my_ioctl`. -/
def myIoctl (deviceStatus : Status) (c : Call) : Result :=
  if c.cmd = myIoctlSetStatus then
    let copy := copyFromUser c.user c.arg sizeofInt c.stop
    { ret := if copy.2 ≠ 0 then -efault else 0
      status := ⟨copy.1, length_copyFromUser _ _ _ _⟩
      user := c.user }
  else if c.cmd = myIoctlGetStatus then
    let copy := copyToUser c.user c.arg deviceStatus.1 c.stop
    { ret := if copy.2 ≠ 0 then -efault else 0
      status := deviceStatus
      user := copy.1 }
  else { ret := -enotty, status := deviceStatus, user := c.user }

/-- The register after a sequence of calls. -/
def after (calls : List Call) : Status := calls.foldl (fun s c => (myIoctl s c).status) initial

/-- `P` holds of each call with the calls before it. -/
def Before (calls : List Call) (P : List Call → Call → Prop) : Prop :=
  ∀ earlier c later, calls = earlier ++ c :: later → P earlier c

/-! ## A register -/

/-- The value that a call to set the register gives: what is at its argument. -/
def Call.given (c : Call) : List UInt8 := c.user.readable c.arg sizeofInt

/-- The value given by the most recent call to set the register that has returned 0. -/
def lastSet (calls : List Call) : List UInt8 :=
  (calls.foldl (fun g c =>
    ((myIoctl g.1 c).status,
      if c.cmd = myIoctlSetStatus ∧ (myIoctl g.1 c).ret = 0 then c.given else g.2))
    (initial, initial.1)).2

/-- What a register with the value `last` does at a call. -/
structure Keeps (deviceStatus : Status) (last : List UInt8) (c : Call) : Prop where
  get : c.cmd = myIoctlGetStatus → (myIoctl deviceStatus c).ret = 0 →
    (myIoctl deviceStatus c).user.readable c.arg sizeofInt = last
  error : (myIoctl deviceStatus c).ret ≠ 0 → (myIoctl deviceStatus c).status = deviceStatus

/-- A call to set the register that faults leaves it as it is when its value is `value`: what has been
    copied is already there, and the rest is zero. -/
def Harmless (value : List UInt8) (c : Call) : Prop :=
  c.cmd = myIoctlSetStatus → c.given.length ≠ sizeofInt →
    value = c.given.take c.stop ++
      List.replicate (sizeofInt - (c.given.take c.stop).length) 0

variable {s : Status} {c : Call} {calls : List Call} {last : List UInt8}

theorem get_ne_set : myIoctlGetStatus ≠ myIoctlSetStatus := by decide

theorem myIoctl_set (h : c.cmd = myIoctlSetStatus) :
    (myIoctl s c).status.1 = (copyFromUser c.user c.arg sizeofInt c.stop).1 ∧
      ((myIoctl s c).ret = 0 ↔ c.given.length = sizeofInt) := by
  have hz := copyFromUser_zero_iff c.user c.arg sizeofInt c.stop
  unfold myIoctl
  rw [if_pos h]
  refine ⟨rfl, ?_⟩
  simp only
  rw [Call.given, ← hz]
  split
  · next hne => exact iff_of_false (by decide) hne
  · next he => exact iff_of_true rfl (not_not.mp he)

theorem myIoctl_get (h : c.cmd = myIoctlGetStatus) :
    (myIoctl s c).status = s ∧
      ((myIoctl s c).ret = 0 → (myIoctl s c).user.readable c.arg sizeofInt = s.1) := by
  have hlen : s.1.length = sizeofInt := s.2
  unfold myIoctl
  rw [if_neg (by rw [h]; exact get_ne_set), if_pos h]
  refine ⟨rfl, fun h0 => ?_⟩
  simp only at h0 ⊢
  split at h0
  · exact absurd h0 (by decide)
  · next he =>
    have hr := readable_copyToUser (by rw [hlen]; decide) (not_not.mp he)
    rwa [hlen] at hr

theorem myIoctl_other (h1 : c.cmd ≠ myIoctlSetStatus) (h2 : c.cmd ≠ myIoctlGetStatus) :
    myIoctl s c = ⟨-enotty, s, c.user⟩ := by
  unfold myIoctl
  rw [if_neg h1, if_neg h2]

/-- Only a call to set the register can change it. -/
theorem status_of_ne_set (h : c.cmd ≠ myIoctlSetStatus) : (myIoctl s c).status = s := by
  by_cases hg : c.cmd = myIoctlGetStatus
  · exact (myIoctl_get hg).1
  · rw [myIoctl_other h hg]

/-- A call that returns an error leaves the register as it is if and only if it is harmless. -/
theorem harmless_iff :
    ((myIoctl s c).ret ≠ 0 → (myIoctl s c).status = s) ↔ Harmless s.1 c := by
  by_cases hs : c.cmd = myIoctlSetStatus
  · obtain ⟨hstatus, hret⟩ := myIoctl_set (s := s) hs
    constructor
    · intro h _ hlen
      have heq := congrArg Subtype.val (h fun h0 => hlen (hret.mp h0))
      rw [hstatus, copyFromUser_of_fault hlen] at heq
      exact heq.symm
    · intro h hne
      have hlen : c.given.length ≠ sizeofInt := fun hl => hne (hret.mpr hl)
      apply Subtype.ext
      rw [hstatus, copyFromUser_of_fault hlen]
      exact (h hs hlen).symm
  · exact iff_of_true (fun _ => status_of_ne_set hs) fun h => absurd h hs

/-! ## Sequences of calls -/

theorem after_snoc (calls : List Call) (c : Call) :
    after (calls ++ [c]) = (myIoctl (after calls) c).status := by
  unfold after
  rw [List.foldl_append, List.foldl_cons, List.foldl_nil]

/-- The record of the last value goes along with the register. -/
theorem lastSet_fold (calls : List Call) :
    calls.foldl (fun g c =>
      ((myIoctl g.1 c).status,
        if c.cmd = myIoctlSetStatus ∧ (myIoctl g.1 c).ret = 0 then c.given else g.2))
      (initial, initial.1) = (after calls, lastSet calls) := by
  refine Prod.ext ?_ rfl
  induction calls using List.reverseRecOn with
  | nil => rfl
  | append_singleton calls c ih =>
    rw [List.foldl_append, List.foldl_cons, List.foldl_nil, after_snoc]
    simp only [ih]

theorem lastSet_snoc (calls : List Call) (c : Call) :
    lastSet (calls ++ [c]) =
      if c.cmd = myIoctlSetStatus ∧ (myIoctl (after calls) c).ret = 0 then c.given
      else lastSet calls := by
  conv_lhs => unfold lastSet
  rw [List.foldl_append, lastSet_fold, List.foldl_cons, List.foldl_nil]

/-- One more call that is harmless. -/
theorem lastSet_step (h : (after calls).1 = lastSet calls) (hc : Harmless (after calls).1 c) :
    (after (calls ++ [c])).1 = lastSet (calls ++ [c]) := by
  rw [after_snoc, lastSet_snoc]
  by_cases hs : c.cmd = myIoctlSetStatus
  · obtain ⟨hstatus, hret⟩ := myIoctl_set (s := after calls) hs
    by_cases h0 : (myIoctl (after calls) c).ret = 0
    · rw [if_pos ⟨hs, h0⟩, hstatus, copyFromUser_of_readable (hret.mp h0)]
      rfl
    · rw [if_neg fun h => h0 h.2, harmless_iff.mpr hc h0]
      exact h
  · rw [if_neg fun h => hs h.1, status_of_ne_set hs]
    exact h

theorem before_snoc {P : List Call → Call → Prop} :
    Before (calls ++ [c]) P ↔ Before calls P ∧ P calls c := by
  constructor
  · refine fun h => ⟨fun earlier x later he => h earlier x (later ++ [c]) ?_, h calls c [] rfl⟩
    rw [he, List.append_assoc, List.cons_append]
  · rintro ⟨hcalls, hc⟩ earlier x later he
    rcases List.eq_nil_or_concat later with rfl | ⟨l, y, rfl⟩
    · obtain ⟨rfl, hx⟩ := List.append_inj' he rfl
      obtain rfl := (List.cons.inj hx).1
      exact hc
    · rw [List.concat_eq_append, ← List.cons_append, ← List.append_assoc] at he
      obtain ⟨rfl, -⟩ := List.append_inj' he rfl
      exact hcalls earlier x l rfl

/-- As long as every call is harmless the register holds the last value. -/
theorem after_eq_lastSet (h : Before calls fun earlier c => Harmless (after earlier).1 c) :
    (after calls).1 = lastSet calls := by
  induction calls using List.reverseRecOn with
  | nil => rfl
  | append_singleton calls c ih =>
    rw [before_snoc] at h
    exact lastSet_step (ih h.1) h.2

/-- The condition can be read off the values that have been set. -/
theorem harmless_after_iff (calls : List Call) :
    (Before calls fun earlier c => Harmless (after earlier).1 c) ↔
      Before calls fun earlier c => Harmless (lastSet earlier) c := by
  induction calls using List.reverseRecOn with
  | nil => exact iff_of_true (fun _ _ _ he => by simp at he) fun _ _ _ he => by simp at he
  | append_singleton calls c ih =>
    rw [before_snoc, before_snoc, ← ih]
    exact and_congr_right fun h => by rw [after_eq_lastSet h]

/-- **Register.** In a sequence of calls every answer is the last value set and every call that returns
    an error leaves the register as it is, if and only if for each call to set it that faults the last
    value set is what the call has copied, followed by zeros. -/
theorem register_iff (calls : List Call) :
    (Before calls fun earlier c => Keeps (after earlier) (lastSet earlier) c) ↔
      Before calls fun earlier c => Harmless (lastSet earlier) c := by
  rw [← harmless_after_iff]
  constructor
  · intro h earlier c later he
    exact harmless_iff.mp (h earlier c later he).error
  · intro h earlier c later he
    have hpre : Before earlier fun earlier c => Harmless (after earlier).1 c := by
      intro e x l hx
      refine h e x (l ++ c :: later) ?_
      rw [he, hx, List.append_assoc, List.cons_append]
    refine ⟨fun hg h0 => ?_, harmless_iff.mpr (h earlier c later he)⟩
    rw [(myIoctl_get hg).2 h0]
    exact after_eq_lastSet hpre

/-- A process with 3344 at address 0 and the following bytes zero; other addresses fault. -/
def process : UserMem where
  load := fun a => if a < 8 then some (if a = 0 then 16 else if a = 1 then 13 else 0) else none
  writable := fun a => a < 8

/-- 3344 is set, and a second call to set the register faults at once. -/
def faultedSet : List Call :=
  [⟨myIoctlSetStatus, 0, process, 0⟩, ⟨myIoctlSetStatus, 4096, process, 0⟩]

/-- The call that reads it back, to address 4. -/
def readBack : Call := ⟨myIoctlGetStatus, 4, process, 0⟩

theorem register_cleared :
    lastSet faultedSet = [16, 13, 0, 0] ∧ (myIoctl (after faultedSet) readBack).ret = 0 ∧
      (myIoctl (after faultedSet) readBack).user.readable 4 sizeofInt = [0, 0, 0, 0] ∧
      ¬ Before (faultedSet ++ [readBack]) fun earlier c =>
        Keeps (after earlier) (lastSet earlier) c := by
  have hlast : lastSet faultedSet = [16, 13, 0, 0] := by decide
  have hget : (myIoctl (after faultedSet) readBack).user.readable 4 sizeofInt = [0, 0, 0, 0] := by
    decide
  refine ⟨hlast, by decide, hget, fun h => ?_⟩
  have hk := (h faultedSet readBack [] rfl).get rfl (by decide)
  rw [hlast, show readBack.arg = 4 from rfl, hget] at hk
  exact absurd hk (by decide)

end KernelMagic.Ioctl
