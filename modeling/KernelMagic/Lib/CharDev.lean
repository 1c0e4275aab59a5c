/-
  The registries of the kernel that a driver of character devices uses: regions of device numbers,
  classes, cdevs and devices, with the calls that add to them and take from them.

  A call that registers something is given its answer, an error or success, with the number or the
  address that the kernel picks. It fails all the same where it cannot succeed: when a major number, a
  class of that name or the memory is in use. Major 0 asks for a dynamic number and is never given out.

  What can be registered can be unregistered again, and then the registry is as before (`_undo`).
-/
import Mathlib

namespace KernelMagic.Lib.CharDev

/-- A negative error code. -/
abbrev Errno : Type := { e : Int // e < 0 }

def ebusy : Errno := ⟨-16, by decide⟩

def eexist : Errno := ⟨-17, by decide⟩

def enodev : Errno := ⟨-19, by decide⟩

abbrev Addr : Type := Nat

/-- `dev_t`. -/
structure DevT where
  major : Nat
  minor : Nat
  deriving DecidableEq

/-- `struct char_device_struct`; `cdev` is set by `register_chrdev`. -/
structure Region where
  major : Nat
  baseminor : Nat
  count : Nat
  name : String
  cdev : Option Addr := none
  deriving DecidableEq

structure Class where
  addr : Addr
  name : String
  deriving DecidableEq

/-- A cdev and the device numbers it serves. -/
structure Cdev where
  addr : Addr
  dev : DevT
  count : Nat
  deriving DecidableEq

structure Device where
  cls : Addr
  devt : DevT
  name : String
  deriving DecidableEq

/-- What is registered. -/
@[ext] structure Registry where
  regions : Finset Region
  classes : Finset Class
  cdevs : Finset Cdev
  devices : Finset Device
  deriving DecidableEq

/-- A `struct class *`, which may be an error pointer. -/
inductive ClassPtr where
  | null
  | error (e : Errno)
  | valid (addr : Addr)
  deriving DecidableEq

namespace Registry

def addRegion (reg : Registry) (r : Region) : Registry := { reg with regions := insert r reg.regions }

def addClass (reg : Registry) (c : Class) : Registry := { reg with classes := insert c reg.classes }

def addCdev (reg : Registry) (c : Cdev) : Registry := { reg with cdevs := insert c reg.cdevs }

def addDevice (reg : Registry) (d : Device) : Registry := { reg with devices := insert d reg.devices }

end Registry

/-! ## What can be registered -/

def Registry.MajorFree (reg : Registry) (major : Nat) : Prop :=
  major ≠ 0 ∧ ∀ r ∈ reg.regions, r.major ≠ major

def Registry.ClassFree (reg : Registry) (addr : Addr) (name : String) : Prop :=
  (∀ c ∈ reg.classes, c.addr ≠ addr ∧ c.name ≠ name) ∧ ∀ d ∈ reg.devices, d.cls ≠ addr

def Registry.CdevFree (reg : Registry) (addr : Addr) : Prop := ∀ c ∈ reg.cdevs, c.addr ≠ addr

instance (reg : Registry) (major : Nat) : Decidable (reg.MajorFree major) :=
  inferInstanceAs (Decidable (_ ∧ _))

instance (reg : Registry) (addr : Addr) (name : String) : Decidable (reg.ClassFree addr name) :=
  inferInstanceAs (Decidable (_ ∧ _))

instance (reg : Registry) (addr : Addr) : Decidable (reg.CdevFree addr) :=
  inferInstanceAs (Decidable (∀ c ∈ reg.cdevs, _))

/-- The region that unregistering these numbers is about. -/
def Region.Is (r : Region) (dev : DevT) (count : Nat) : Prop :=
  r.major = dev.major ∧ r.baseminor = dev.minor ∧ r.count = count

instance (r : Region) (dev : DevT) (count : Nat) : Decidable (r.Is dev count) :=
  inferInstanceAs (Decidable (_ ∧ _))

/-- A call to allocate a region succeeds. -/
def Registry.Allocates (reg : Registry) (ans : Except Errno Nat) : Prop :=
  ∃ major, ans = .ok major ∧ reg.MajorFree major

/-- A call to create a class succeeds. -/
def Registry.CreatesClass (reg : Registry) (ans : Except Errno Addr) (name : String) : Prop :=
  ∃ addr, ans = .ok addr ∧ reg.ClassFree addr name

/-- A call to add a cdev succeeds. -/
def Registry.AddsCdev (reg : Registry) (ans : Except Errno Unit) (addr : Addr) : Prop :=
  ans = .ok () ∧ reg.CdevFree addr

instance (reg : Registry) : (ans : Except Errno Nat) → Decidable (reg.Allocates ans)
  | .error _ => isFalse fun ⟨_, h, _⟩ => nomatch h
  | .ok major => decidable_of_iff (reg.MajorFree major)
      ⟨fun h => ⟨major, rfl, h⟩, fun ⟨_, h, hf⟩ => Except.ok.inj h ▸ hf⟩

instance (reg : Registry) (name : String) :
    (ans : Except Errno Addr) → Decidable (reg.CreatesClass ans name)
  | .error _ => isFalse fun ⟨_, h, _⟩ => nomatch h
  | .ok addr => decidable_of_iff (reg.ClassFree addr name)
      ⟨fun h => ⟨addr, rfl, h⟩, fun ⟨_, h, hf⟩ => Except.ok.inj h ▸ hf⟩

instance (reg : Registry) (addr : Addr) :
    (ans : Except Errno Unit) → Decidable (reg.AddsCdev ans addr)
  | .error _ => isFalse fun h => nomatch h.1
  | .ok () => decidable_of_iff (reg.CdevFree addr) ⟨fun h => ⟨rfl, h⟩, And.right⟩

/-! ## The calls

  Each gives what it returns and the registry after it. -/

/-- `alloc_chrdev_region`. -/
def allocChrdevRegion (reg : Registry) (ans : Except Errno Nat) (baseminor count : Nat)
    (name : String) : Except Errno DevT × Registry :=
  match ans with
  | .error e => (.error e, reg)
  | .ok major =>
    if reg.MajorFree major then
      (.ok ⟨major, baseminor⟩, reg.addRegion ⟨major, baseminor, count, name, none⟩)
    else (.error ebusy, reg)

def unregisterChrdevRegion (reg : Registry) (dev : DevT) (count : Nat) : Registry :=
  { reg with regions := reg.regions.filter fun r => ¬ r.Is dev count }

/-- `register_chrdev` with major 0: a region of 256 minors, and a cdev for it. -/
def registerChrdev (reg : Registry) (ans : Except Errno Nat) (cdev : Addr) (name : String) :
    Except Errno Nat × Registry :=
  match ans with
  | .error e => (.error e, reg)
  | .ok major =>
    if reg.MajorFree major then
      (.ok major,
        (reg.addRegion ⟨major, 0, 256, name, some cdev⟩).addCdev ⟨cdev, ⟨major, 0⟩, 256⟩)
    else (.error ebusy, reg)

/-- `unregister_chrdev`, which goes by the number alone. -/
def unregisterChrdev (reg : Registry) (major : Nat) : Registry :=
  { reg with
    regions := reg.regions.filter fun r => ¬ r.Is ⟨major, 0⟩ 256
    cdevs := reg.cdevs.filter fun c =>
      ¬ ∃ r ∈ reg.regions, r.Is ⟨major, 0⟩ 256 ∧ r.cdev = some c.addr }

def classCreate (reg : Registry) (ans : Except Errno Addr) (name : String) : ClassPtr × Registry :=
  match ans with
  | .error e => (.error e, reg)
  | .ok addr =>
    if reg.ClassFree addr name then (.valid addr, reg.addClass ⟨addr, name⟩)
    else (.error eexist, reg)

def classDestroy (reg : Registry) : ClassPtr → Registry
  | .valid addr => { reg with classes := reg.classes.filter fun c => ¬ c.addr = addr }
  | .null => reg
  | .error _ => reg

def cdevAdd (reg : Registry) (ans : Except Errno Unit) (addr : Addr) (dev : DevT) (count : Nat) :
    Except Errno Unit × Registry :=
  match ans with
  | .error e => (.error e, reg)
  | .ok () =>
    if reg.CdevFree addr then (.ok (), reg.addCdev ⟨addr, dev, count⟩)
    else (.error ebusy, reg)

def cdevDel (reg : Registry) (addr : Addr) : Registry :=
  { reg with cdevs := reg.cdevs.filter fun c => ¬ c.addr = addr }

/-- `device_create`; in an invalid class it fails. -/
def deviceCreate (reg : Registry) (ans : Except Errno Unit) (cls : ClassPtr) (devt : DevT)
    (name : String) : Except Errno Unit × Registry :=
  match cls with
  | .valid addr =>
    match ans with
    | .error e => (.error e, reg)
    | .ok () => (.ok (), reg.addDevice ⟨addr, devt, name⟩)
  | .null => (.error enodev, reg)
  | .error _ => (.error enodev, reg)

/-- `device_destroy`; `none` is a fault, and `faults` says whether an error pointer for the class is
    one. -/
def deviceDestroy (faults : Bool) (reg : Registry) (cls : ClassPtr) (devt : DevT) :
    Option Registry :=
  match cls with
  | .valid addr =>
    some { reg with devices := reg.devices.filter fun d => ¬ (d.cls = addr ∧ d.devt = devt) }
  | .null => some reg
  | .error _ => if faults then none else some reg

/-! ## What the calls do -/

variable {reg : Registry}

theorem allocChrdevRegion_of {ans : Except Errno Nat} (h : reg.Allocates ans)
    (baseminor count : Nat) (name : String) :
    ∃ major, reg.MajorFree major ∧ allocChrdevRegion reg ans baseminor count name =
      (.ok ⟨major, baseminor⟩, reg.addRegion ⟨major, baseminor, count, name, none⟩) := by
  obtain ⟨major, rfl, hf⟩ := h
  exact ⟨major, hf, if_pos hf⟩

theorem allocChrdevRegion_of_not {ans : Except Errno Nat} (h : ¬ reg.Allocates ans)
    (baseminor count : Nat) (name : String) :
    ∃ e, allocChrdevRegion reg ans baseminor count name = (.error e, reg) := by
  match ans with
  | .error e => exact ⟨e, rfl⟩
  | .ok major => exact ⟨ebusy, if_neg fun hf => h ⟨major, rfl, hf⟩⟩

theorem registerChrdev_of {ans : Except Errno Nat} (h : reg.Allocates ans) (cdev : Addr)
    (name : String) :
    ∃ major, reg.MajorFree major ∧ (registerChrdev reg ans cdev name).2 =
      (reg.addRegion ⟨major, 0, 256, name, some cdev⟩).addCdev ⟨cdev, ⟨major, 0⟩, 256⟩ := by
  obtain ⟨major, rfl, hf⟩ := h
  refine ⟨major, hf, ?_⟩
  unfold registerChrdev
  simp only [if_pos hf]

theorem registerChrdev_of_not {ans : Except Errno Nat} (h : ¬ reg.Allocates ans) (cdev : Addr)
    (name : String) : (registerChrdev reg ans cdev name).2 = reg := by
  match ans with
  | .error e => rfl
  | .ok major =>
    unfold registerChrdev
    simp only [if_neg fun hf => h ⟨major, rfl, hf⟩]

theorem classCreate_of {ans : Except Errno Addr} {name : String} (h : reg.CreatesClass ans name) :
    ∃ addr, reg.ClassFree addr name ∧ classCreate reg ans name =
      (.valid addr, reg.addClass ⟨addr, name⟩) := by
  obtain ⟨addr, rfl, hf⟩ := h
  exact ⟨addr, hf, if_pos hf⟩

theorem classCreate_of_not {ans : Except Errno Addr} {name : String}
    (h : ¬ reg.CreatesClass ans name) : ∃ e, classCreate reg ans name = (.error e, reg) := by
  match ans with
  | .error e => exact ⟨e, rfl⟩
  | .ok addr => exact ⟨eexist, if_neg fun hf => h ⟨addr, rfl, hf⟩⟩

theorem createsClass_addRegion {ans : Except Errno Addr} {name : String} (r : Region) :
    (reg.addRegion r).CreatesClass ans name ↔ reg.CreatesClass ans name := Iff.rfl

/-- Regions and cdevs have nothing to do with classes. -/
theorem classCreate_frame {reg' : Registry} {ans : Except Errno Addr} {name : String}
    {cls : ClassPtr} (h : classCreate reg ans name = (cls, reg')) :
    reg'.regions = reg.regions ∧ reg'.cdevs = reg.cdevs := by
  by_cases hc : reg.CreatesClass ans name
  · obtain ⟨a, -, hcreate⟩ := classCreate_of hc
    obtain ⟨-, rfl⟩ := Prod.mk.inj (h.symm.trans hcreate)
    exact ⟨rfl, rfl⟩
  · obtain ⟨e, hcreate⟩ := classCreate_of_not hc
    obtain ⟨-, rfl⟩ := Prod.mk.inj (h.symm.trans hcreate)
    exact ⟨rfl, rfl⟩

theorem addsCdev_classCreate {reg' : Registry} {ans : Except Errno Addr} {name : String}
    {cls : ClassPtr} (h : classCreate reg ans name = (cls, reg')) (ans' : Except Errno Unit)
    (addr : Addr) : reg'.AddsCdev ans' addr ↔ reg.AddsCdev ans' addr := by
  unfold Registry.AddsCdev Registry.CdevFree
  rw [(classCreate_frame h).2]

theorem cdevAdd_of {ans : Except Errno Unit} {addr : Addr} (h : reg.AddsCdev ans addr) (dev : DevT)
    (count : Nat) :
    cdevAdd reg ans addr dev count = (.ok (), reg.addCdev ⟨addr, dev, count⟩) := by
  obtain ⟨rfl, hf⟩ := h
  exact if_pos hf

theorem cdevAdd_of_not {ans : Except Errno Unit} {addr : Addr} (h : ¬ reg.AddsCdev ans addr)
    (dev : DevT) (count : Nat) : ∃ e, cdevAdd reg ans addr dev count = (.error e, reg) := by
  match ans with
  | .error e => exact ⟨e, rfl⟩
  | .ok () => exact ⟨ebusy, if_neg fun hf => h ⟨rfl, hf⟩⟩

/-! ## Register and unregister -/

section Entries

variable {α : Type} [DecidableEq α] {s : Finset α} {x : α} {p : α → Prop} [DecidablePred p]

/-- An entry that is the only one with `p` is all that is taken away with it. -/
theorem filter_insert_undo (hx : p x) (hs : ∀ y ∈ s, ¬ p y) :
    (insert x s).filter (fun y => ¬ p y) = s := by
  rw [Finset.filter_insert, if_neg (not_not.mpr hx), Finset.filter_eq_self.mpr hs]

end Entries

theorem unregisterChrdevRegion_addRegion {major : Nat} (h : reg.MajorFree major)
    (baseminor count : Nat) (name : String) (cdev : Option Addr) :
    unregisterChrdevRegion (reg.addRegion ⟨major, baseminor, count, name, cdev⟩)
      ⟨major, baseminor⟩ count = reg := by
  unfold unregisterChrdevRegion Registry.addRegion
  simp only [filter_insert_undo (p := fun r : Region => r.Is ⟨major, baseminor⟩ count)
    (show Region.Is ⟨major, baseminor, count, name, cdev⟩ _ _ from ⟨rfl, rfl, rfl⟩)
    fun r hr his => h.2 r hr his.1]

theorem addRegion_ne {major : Nat} (h : reg.MajorFree major) {r : Region} (hr : r.major = major) :
    r ∈ (reg.addRegion r).regions ∧ r ∉ reg.regions :=
  ⟨Finset.mem_insert_self _ _, fun hmem => h.2 r hmem hr⟩

theorem addClass_ne {addr : Addr} {name : String} (h : reg.ClassFree addr name) :
    reg.addClass ⟨addr, name⟩ ≠ reg := by
  intro he
  have hmem : (⟨addr, name⟩ : Class) ∈ reg.classes := by
    rw [← congrArg Registry.classes he]
    exact Finset.mem_insert_self _ _
  exact (h.1 _ hmem).1 rfl

theorem classDestroy_addClass {addr : Addr} {name : String} (h : reg.ClassFree addr name) :
    classDestroy (reg.addClass ⟨addr, name⟩) (.valid addr) = reg := by
  unfold classDestroy Registry.addClass
  simp only [filter_insert_undo (p := fun c : Class => c.addr = addr) (x := ⟨addr, name⟩) rfl
    fun c hc => (h.1 c hc).1]

theorem cdevDel_addCdev {addr : Addr} (h : reg.CdevFree addr) (dev : DevT) (count : Nat) :
    cdevDel (reg.addCdev ⟨addr, dev, count⟩) addr = reg := by
  unfold cdevDel Registry.addCdev
  simp only [filter_insert_undo (p := fun c : Cdev => c.addr = addr) (x := ⟨addr, dev, count⟩) rfl h]

/-- A device in a new class, created or not. -/
theorem deviceDestroy_create {addr : Addr} (h : ∀ d ∈ reg.devices, d.cls ≠ addr) (faults : Bool)
    (ans : Except Errno Unit) (devt : DevT) (name : String) :
    deviceDestroy faults (deviceCreate reg ans (.valid addr) devt name).2 (.valid addr) devt =
      some reg := by
  have hnot : ∀ d ∈ reg.devices, ¬ (d.cls = addr ∧ d.devt = devt) := fun d hd he => h d hd he.1
  match ans with
  | .error e =>
    unfold deviceDestroy deviceCreate
    simp only [Finset.filter_eq_self.mpr hnot]
  | .ok () =>
    unfold deviceDestroy deviceCreate Registry.addDevice
    simp only [filter_insert_undo (p := fun d : Device => d.cls = addr ∧ d.devt = devt)
      (x := ⟨addr, devt, name⟩) ⟨rfl, rfl⟩ hnot]

/-- The regions play no part in the creation of a device. -/
theorem unregisterChrdevRegion_create (ans : Except Errno Unit) (cls : ClassPtr) (devt dev : DevT)
    (name : String) (count : Nat) :
    unregisterChrdevRegion (deviceCreate reg ans cls devt name).2 dev count =
      (deviceCreate (unregisterChrdevRegion reg dev count) ans cls devt name).2 := by
  match cls, ans with
  | .valid _, .ok () => rfl
  | .valid _, .error _ => rfl
  | .null, _ => rfl
  | .error _, _ => rfl

/-- A region stays registered when the numbers of another are unregistered. -/
theorem mem_unregisterChrdev {r : Region} {major : Nat} (hr : r ∈ reg.regions)
    (hne : r.major ≠ major) : r ∈ (unregisterChrdev reg major).regions :=
  Finset.mem_filter.mpr ⟨hr, fun his => hne his.1⟩

/-- Unregistering by a number changes nothing if and only if there is no such region. -/
theorem unregisterChrdev_eq_iff (major : Nat) :
    unregisterChrdev reg major = reg ↔ ∀ r ∈ reg.regions, ¬ r.Is ⟨major, 0⟩ 256 := by
  constructor
  · intro h
    exact Finset.filter_eq_self.mp (congrArg Registry.regions h)
  · intro h
    have hcdevs : ∀ c ∈ reg.cdevs,
        ¬ ∃ r ∈ reg.regions, r.Is ⟨major, 0⟩ 256 ∧ r.cdev = some c.addr :=
      fun _ _ ⟨r, hr, his, _⟩ => h r hr his
    unfold unregisterChrdev
    rw [Finset.filter_eq_self.mpr h, Finset.filter_eq_self.mpr hcdevs]

end KernelMagic.Lib.CharDev
