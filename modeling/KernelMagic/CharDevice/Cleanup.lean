/-
  When the modules with a character device clean up after themselves.

  * `driver_demo.c` unregisters major 0 for the major that it was given, so its region stays.
  * `driver_demo_new.c` returns the error of `cdev_add` with its region and its class registered.
  * `ioctl_demo.c` unregisters its region there, but not its class.
  * In the last two, a class that could not be created is an error pointer for `device_destroy`.

  Nothing else is left behind (`cleanup_iff`).
-/
import KernelMagic.CharDevice.Main

namespace KernelMagic.CharDevice

open KernelMagic.Lib KernelMagic.Lib.CharDev

/-- `CLASS_NAME` of the two modules with a class. -/
def Module.className : Module → String
  | .driverDemo => ""
  | .driverDemoNew => "driver_connect"
  | .ioctlDemo => "my_class"

/-- The condition for a load: a region is not followed by a failing `cdev_add`; in `ioctl_demo.c`, a
    region and a class are not. -/
def LoadMeets (m : Module) (reg : Registry) (ans : Answers) : Prop :=
  match m with
  | .driverDemo => True
  | .driverDemoNew => ¬ (reg.Allocates ans.major ∧ ¬ reg.AddsCdev ans.cdevAdd ans.cdev)
  | .ioctlDemo =>
    ¬ (reg.Allocates ans.major ∧ reg.CreatesClass ans.cls m.className ∧
      ¬ reg.AddsCdev ans.cdevAdd ans.cdev)

/-- The condition for an unload: the class was created, or an error pointer does no harm. For
    `driver_demo.c`: nothing was registered by the load, and nothing under major 0 before it. -/
def UnloadMeets (m : Module) (faults : Bool) (l : Loaded) : Prop :=
  match m with
  | .driverDemo =>
    ¬ l.before.Allocates l.ans.major ∧ ∀ r ∈ l.before.regions, ¬ r.Is ⟨0, 0⟩ 256
  | _ => l.before.CreatesClass l.ans.cls m.className ∨ faults = false

def Meets (m : Module) (faults : Bool) (s : State) : Act → Prop
  | .load ans => s.status = .unloaded → LoadMeets m s.reg ans
  | .unload => ∀ l, s.status = .loaded l → UnloadMeets m faults l

/-! ## The modules with a class -/

section Class

variable (deviceName className : String) (cdevAddFailed : Registry → DevT → Errno → Int × Registry)
  {reg : Registry} {ans : Answers}

/-- Without a region the load fails and changes nothing. -/
theorem initWith_noRegion (h : ¬ reg.Allocates ans.major) :
    ∃ st, initWith deviceName className cdevAddFailed reg ans = ⟨-1, st, reg⟩ := by
  obtain ⟨e, he⟩ := allocChrdevRegion_of_not h 0 1 deviceName
  unfold initWith
  simp only [he]
  exact ⟨_, rfl⟩

/-- With a region and no cdev it takes the error path, whether there is a class or not. -/
theorem initWith_noCdev (h : reg.Allocates ans.major) (hadd : ¬ reg.AddsCdev ans.cdevAdd ans.cdev) :
    ∃ major cls reg' e, reg.MajorFree major ∧
      classCreate (reg.addRegion ⟨major, 0, 1, deviceName, none⟩) ans.cls className = (cls, reg') ∧
      initWith deviceName className cdevAddFailed reg ans =
        ⟨(cdevAddFailed reg' ⟨major, 0⟩ e).1, ⟨⟨major, 0⟩, cls, ans.cdev⟩,
          (cdevAddFailed reg' ⟨major, 0⟩ e).2⟩ := by
  obtain ⟨major, hf, halloc⟩ := allocChrdevRegion_of h 0 1 deviceName
  obtain ⟨⟨cls, reg'⟩, hcls⟩ : ∃ c,
      classCreate (reg.addRegion ⟨major, 0, 1, deviceName, none⟩) ans.cls className = c := ⟨_, rfl⟩
  obtain ⟨e, he⟩ :=
    cdevAdd_of_not (fun h' => hadd ((addsCdev_classCreate hcls _ _).mp h')) ⟨major, 0⟩ 1
  refine ⟨major, cls, reg', e, hf, hcls, ?_⟩
  unfold initWith
  simp only [halloc, hcls, he]

/-- With a region and a cdev it succeeds. -/
theorem initWith_done (h : reg.Allocates ans.major) (hadd : reg.AddsCdev ans.cdevAdd ans.cdev) :
    ∃ major cls reg', reg.MajorFree major ∧
      classCreate (reg.addRegion ⟨major, 0, 1, deviceName, none⟩) ans.cls className = (cls, reg') ∧
      initWith deviceName className cdevAddFailed reg ans =
        ⟨0, ⟨⟨major, 0⟩, cls, ans.cdev⟩,
          (deviceCreate (reg'.addCdev ⟨ans.cdev, ⟨major, 0⟩, 1⟩) ans.device cls ⟨major, 0⟩
            deviceName).2⟩ := by
  obtain ⟨major, hf, halloc⟩ := allocChrdevRegion_of h 0 1 deviceName
  obtain ⟨⟨cls, reg'⟩, hcls⟩ : ∃ c,
      classCreate (reg.addRegion ⟨major, 0, 1, deviceName, none⟩) ans.cls className = c := ⟨_, rfl⟩
  have he := cdevAdd_of ((addsCdev_classCreate hcls ans.cdevAdd ans.cdev).mpr hadd) ⟨major, 0⟩ 1
  refine ⟨major, cls, reg', hf, hcls, ?_⟩
  unfold initWith
  simp only [halloc, hcls, he]

/-- After a load with a class the exit function takes away what the load has registered. -/
theorem exitWith_class (faults : Bool) {major : Nat} {addr : Addr} (hf : reg.MajorFree major)
    (hc : reg.ClassFree addr className) (hadd : reg.CdevFree ans.cdev) :
    exitWith faults (deviceCreate (((reg.addRegion ⟨major, 0, 1, deviceName, none⟩).addClass
      ⟨addr, className⟩).addCdev ⟨ans.cdev, ⟨major, 0⟩, 1⟩) ans.device (.valid addr) ⟨major, 0⟩
        deviceName).2 ⟨⟨major, 0⟩, .valid addr, ans.cdev⟩ = .done reg := by
  have hregion : unregisterChrdevRegion (((reg.addRegion ⟨major, 0, 1, deviceName, none⟩).addClass
      ⟨addr, className⟩).addCdev ⟨ans.cdev, ⟨major, 0⟩, 1⟩) ⟨major, 0⟩ 1 =
      (reg.addClass ⟨addr, className⟩).addCdev ⟨ans.cdev, ⟨major, 0⟩, 1⟩ :=
    congrArg (fun r : Registry => (r.addClass ⟨addr, className⟩).addCdev ⟨ans.cdev, ⟨major, 0⟩, 1⟩)
      (unregisterChrdevRegion_addRegion hf 0 1 deviceName none)
  have hcdev : cdevDel ((reg.addClass ⟨addr, className⟩).addCdev ⟨ans.cdev, ⟨major, 0⟩, 1⟩)
      ans.cdev = reg.addClass ⟨addr, className⟩ :=
    cdevDel_addCdev (show (reg.addClass ⟨addr, className⟩).CdevFree ans.cdev from hadd) _ _
  have hdevices : ∀ d ∈ ((reg.addClass ⟨addr, className⟩).addCdev
      ⟨ans.cdev, ⟨major, 0⟩, 1⟩).devices, d.cls ≠ addr := hc.2
  unfold exitWith
  simp only [unregisterChrdevRegion_create, hregion]
  rw [deviceDestroy_create hdevices]
  simp only [hcdev, classDestroy_addClass hc]

/-- After a load without one it gets past `device_destroy` if the error pointer does no harm. -/
theorem exitWith_noClass (faults : Bool) {major : Nat} {e : Errno} (hf : reg.MajorFree major)
    (hadd : reg.CdevFree ans.cdev) :
    exitWith faults (deviceCreate ((reg.addRegion ⟨major, 0, 1, deviceName, none⟩).addCdev
      ⟨ans.cdev, ⟨major, 0⟩, 1⟩) ans.device (.error e) ⟨major, 0⟩ deviceName).2
        ⟨⟨major, 0⟩, .error e, ans.cdev⟩ = .done reg ↔ faults = false := by
  have hregion : unregisterChrdevRegion ((reg.addRegion ⟨major, 0, 1, deviceName, none⟩).addCdev
      ⟨ans.cdev, ⟨major, 0⟩, 1⟩) ⟨major, 0⟩ 1 = reg.addCdev ⟨ans.cdev, ⟨major, 0⟩, 1⟩ :=
    congrArg (fun r : Registry => r.addCdev ⟨ans.cdev, ⟨major, 0⟩, 1⟩)
      (unregisterChrdevRegion_addRegion hf 0 1 deviceName none)
  unfold exitWith
  simp only [deviceCreate, hregion, deviceDestroy]
  match faults with
  | true => exact iff_of_false nofun nofun
  | false =>
    refine iff_of_true ?_ rfl
    simp only [Bool.false_eq_true, if_false, classDestroy, cdevDel_addCdev hadd]

/-- A load that has been given its region and its cdev succeeds, and the unload brings the registry back
    if there was a class or the error pointer does no harm. -/
theorem exit_initWith (faults : Bool) (h : reg.Allocates ans.major)
    (hadd : reg.AddsCdev ans.cdevAdd ans.cdev) :
    (initWith deviceName className cdevAddFailed reg ans).ret = 0 ∧
      (exitWith faults (initWith deviceName className cdevAddFailed reg ans).reg
          (initWith deviceName className cdevAddFailed reg ans).statics = .done reg ↔
        reg.CreatesClass ans.cls className ∨ faults = false) := by
  obtain ⟨major, cls, reg', hf, hcls, hinit⟩ :=
    initWith_done deviceName className cdevAddFailed h hadd
  rw [hinit]
  refine ⟨rfl, ?_⟩
  by_cases hc : reg.CreatesClass ans.cls className
  · obtain ⟨addr, hfree, hcreate⟩ :=
      classCreate_of ((createsClass_addRegion ⟨major, 0, 1, deviceName, none⟩).mpr hc)
    obtain ⟨rfl, rfl⟩ := Prod.mk.inj (hcls.symm.trans hcreate)
    exact iff_of_true (exitWith_class _ _ faults hf hfree hadd.2) (.inl hc)
  · obtain ⟨e, hcreate⟩ :=
      classCreate_of_not (mt (createsClass_addRegion ⟨major, 0, 1, deviceName, none⟩).mp hc)
    obtain ⟨rfl, rfl⟩ := Prod.mk.inj (hcls.symm.trans hcreate)
    rw [or_iff_right hc]
    exact exitWith_noClass deviceName faults hf hadd.2

/-- Without a region or a cdev the load fails, if the error path does. -/
theorem initWith_ret (hfail : ∀ reg devNum e, (cdevAddFailed reg devNum e).1 ≠ 0) :
    (initWith deviceName className cdevAddFailed reg ans).ret = 0 ↔
      reg.Allocates ans.major ∧ reg.AddsCdev ans.cdevAdd ans.cdev := by
  by_cases h : reg.Allocates ans.major
  · by_cases hadd : reg.AddsCdev ans.cdevAdd ans.cdev
    · exact iff_of_true (exit_initWith deviceName className cdevAddFailed false h hadd).1 ⟨h, hadd⟩
    · obtain ⟨major, cls, reg', e, -, -, hinit⟩ :=
        initWith_noCdev deviceName className cdevAddFailed h hadd
      rw [hinit]
      exact iff_of_false (hfail _ _ _) fun hn => hadd hn.2
  · obtain ⟨st, hinit⟩ := initWith_noRegion deviceName className cdevAddFailed h
    rw [hinit]
    exact iff_of_false (show (-1 : Int) ≠ 0 by decide) fun hn => h hn.1

/-- A failed load is clean unless it has taken an error path that leaves something behind; `Left` says
    when it does. -/
theorem initWith_clean_iff (Left : Prop) (hfail : ∀ reg devNum e, (cdevAddFailed reg devNum e).1 ≠ 0)
    (hpath : ∀ major cls reg' e, reg.MajorFree major →
      classCreate (reg.addRegion ⟨major, 0, 1, deviceName, none⟩) ans.cls className = (cls, reg') →
      ((cdevAddFailed reg' ⟨major, 0⟩ e).2 = reg ↔ ¬ Left)) :
    ((initWith deviceName className cdevAddFailed reg ans).ret ≠ 0 →
        (initWith deviceName className cdevAddFailed reg ans).reg = reg) ↔
      ¬ (reg.Allocates ans.major ∧ Left ∧ ¬ reg.AddsCdev ans.cdevAdd ans.cdev) := by
  by_cases h : reg.Allocates ans.major
  · by_cases hadd : reg.AddsCdev ans.cdevAdd ans.cdev
    · have hret := (exit_initWith deviceName className cdevAddFailed false h hadd).1
      exact iff_of_true (fun hne => absurd hret hne) fun hn => hn.2.2 hadd
    · obtain ⟨major, cls, reg', e, hf, hcls, hinit⟩ :=
        initWith_noCdev deviceName className cdevAddFailed h hadd
      rw [hinit]
      constructor
      · exact fun himp hn => (hpath major cls reg' e hf hcls).mp (himp (hfail _ _ _)) hn.2.1
      · exact fun hn _ => (hpath major cls reg' e hf hcls).mpr fun hl => hn ⟨h, hl, hadd⟩
  · obtain ⟨st, hinit⟩ := initWith_noRegion deviceName className cdevAddFailed h
    rw [hinit]
    exact iff_of_true (fun _ => rfl) fun hn => h hn.1

end Class

/-! ## Loads -/

variable {m : Module} {faults : Bool} {reg : Registry} {ans : Answers}

/-- The region is still there on the error path of `driver_demo_new.c`. -/
theorem driverDemoNew_clean_iff :
    ((DriverDemoNew.demoModuleInit reg ans).ret ≠ 0 →
        (DriverDemoNew.demoModuleInit reg ans).reg = reg) ↔
      ¬ (reg.Allocates ans.major ∧ ¬ reg.AddsCdev ans.cdevAdd ans.cdev) := by
  rw [← true_and (¬ reg.AddsCdev ans.cdevAdd ans.cdev)]
  refine initWith_clean_iff "module_connect" "driver_connect" (fun reg _ ret => (ret, reg)) True
    (fun _ _ e => Int.ne_of_lt e.2) ?_
  intro major cls reg' e hf hcls
  refine iff_of_false (fun he => ?_) fun h => h trivial
  obtain ⟨hmem, hnot⟩ := addRegion_ne hf (r := ⟨major, 0, 1, "module_connect", none⟩) rfl
  rw [← (classCreate_frame hcls).1, show reg' = reg from he] at hmem
  exact hnot hmem

/-- The class is still there on the error path of `ioctl_demo.c`. -/
theorem ioctlDemo_clean_iff :
    ((IoctlDemo.myModuleInit reg ans).ret ≠ 0 → (IoctlDemo.myModuleInit reg ans).reg = reg) ↔
      ¬ (reg.Allocates ans.major ∧ reg.CreatesClass ans.cls "my_class" ∧
        ¬ reg.AddsCdev ans.cdevAdd ans.cdev) := by
  refine initWith_clean_iff "my_device" "my_class"
    (fun reg devNum _ => (-1, unregisterChrdevRegion reg devNum 1)) _
    (fun _ _ _ => show (-1 : Int) ≠ 0 by decide) ?_
  intro major cls reg' e hf hcls
  have hregion := unregisterChrdevRegion_addRegion hf 0 1 "my_device" none
  by_cases hc : reg.CreatesClass ans.cls "my_class"
  · obtain ⟨addr, hfree, hcreate⟩ :=
      classCreate_of ((createsClass_addRegion ⟨major, 0, 1, "my_device", none⟩).mpr hc)
    obtain ⟨-, rfl⟩ := Prod.mk.inj (hcls.symm.trans hcreate)
    refine iff_of_false (fun he => ?_) (not_not.mpr hc)
    have hleft : unregisterChrdevRegion ((reg.addRegion ⟨major, 0, 1, "my_device", none⟩).addClass
        ⟨addr, "my_class"⟩) ⟨major, 0⟩ 1 = reg.addClass ⟨addr, "my_class"⟩ :=
      congrArg (fun r : Registry => r.addClass ⟨addr, "my_class"⟩) hregion
    exact addClass_ne (show reg.ClassFree addr "my_class" from hfree) (hleft.symm.trans he)
  · obtain ⟨e', hcreate⟩ :=
      classCreate_of_not (mt (createsClass_addRegion ⟨major, 0, 1, "my_device", none⟩).mp hc)
    obtain ⟨-, rfl⟩ := Prod.mk.inj (hcls.symm.trans hcreate)
    exact iff_of_true hregion hc

/-- A load that fails leaves the registry as it was if and only if it meets the condition. -/
theorem load_iff : ((m.init reg ans).ret ≠ 0 → (m.init reg ans).reg = reg) ↔ LoadMeets m reg ans := by
  match m with
  | .driverDemo => exact iff_of_true (fun h => absurd rfl h) trivial
  | .driverDemoNew => exact driverDemoNew_clean_iff
  | .ioctlDemo => exact ioctlDemo_clean_iff

/-! ## Unloads -/

variable {l : Loaded}

/-- The region of `driver_demo.c` is not the one that it unregisters. -/
theorem driverDemo_exit_iff (before : Registry) (ans : Answers) :
    DriverDemo.demoModuleExit (DriverDemo.demoModuleInit before ans).reg = .done before ↔
      ¬ before.Allocates ans.major ∧ ∀ r ∈ before.regions, ¬ r.Is ⟨0, 0⟩ 256 := by
  unfold DriverDemo.demoModuleExit DriverDemo.demoModuleInit
  simp only [Unload.done.injEq]
  by_cases h : before.Allocates ans.major
  · obtain ⟨major, hf, hreg⟩ := registerChrdev_of h ans.cdev "module_connect"
    refine iff_of_false (fun he => ?_) fun hn => hn.1 h
    obtain ⟨hmem, hnot⟩ :=
      addRegion_ne hf (r := ⟨major, 0, 256, "module_connect", some ans.cdev⟩) rfl
    rw [hreg] at he
    have hleft : ⟨major, 0, 256, "module_connect", some ans.cdev⟩ ∈ before.regions := by
      rw [← congrArg Registry.regions he]
      exact mem_unregisterChrdev hmem hf.1
    exact hnot hleft
  · rw [registerChrdev_of_not h, unregisterChrdev_eq_iff]
    exact (and_iff_right h).symm

/-- An unload brings back the registry from before the load if and only if it meets the condition. -/
theorem exit_iff (hret : (m.init l.before l.ans).ret = 0) :
    m.exit faults (m.init l.before l.ans).reg (m.init l.before l.ans).statics = .done l.before ↔
      UnloadMeets m faults l := by
  match m with
  | .driverDemo => exact driverDemo_exit_iff l.before l.ans
  | .driverDemoNew =>
    obtain ⟨h, hadd⟩ := (initWith_ret _ _ _ fun _ _ e => Int.ne_of_lt e.2).mp hret
    exact (exit_initWith _ _ _ faults h hadd).2
  | .ioctlDemo =>
    obtain ⟨h, hadd⟩ :=
      (initWith_ret _ _ _ fun _ _ _ => show (-1 : Int) ≠ 0 by decide).mp hret
    exact (exit_initWith _ _ _ faults h hadd).2

/-! ## Runs -/

variable {s s' : State} {a : Act}

/-- A loaded module is what its load has made of the registry before it. -/
def Inv (m : Module) (s : State) : Prop :=
  ∀ l, s.status = .loaded l → (m.init l.before l.ans).ret = 0 ∧
    (m.init l.before l.ans).statics = l.statics ∧ (m.init l.before l.ans).reg = s.reg

theorem inv_insmod (hi : Inv m s) : Inv m (insmod m s ans) := by
  unfold insmod
  split
  · intro l hl
    simp only at hl
    split at hl
    · next hret =>
      obtain rfl := Status.loaded.inj hl
      exact ⟨hret, rfl, rfl⟩
    · exact absurd hl nofun
  · exact hi
  · exact hi

theorem inv_rmmod (hi : Inv m s) : Inv m (rmmod m faults s) := by
  unfold rmmod
  split
  · split
    · exact fun l hl => absurd hl nofun
    · exact fun l hl => absurd hl nofun
  · exact hi
  · exact hi

theorem inv_step (hi : Inv m s) (h : step m faults s a = some s') : Inv m s' := by
  match a with
  | .load ans =>
    obtain rfl := Option.some.inj h
    exact inv_insmod hi
  | .unload =>
    obtain rfl := Option.some.inj h
    exact inv_rmmod hi

/-- A load is clean if it is not tried, and else by its condition. -/
theorem cleans_load : Cleans m faults s (.load ans) ↔ Meets m faults s (.load ans) := by
  unfold Cleans Meets insmod
  match s.status with
  | .unloaded =>
    simp only [true_and, forall_const]
    exact load_iff
  | .loaded l => exact iff_of_true (fun _ => rfl) nofun
  | .stuck => exact iff_of_true (fun _ => rfl) nofun

theorem cleans_unload (hi : Inv m s) :
    Cleans m faults s .unload ↔ Meets m faults s .unload := by
  refine forall_congr' fun l => forall_congr' fun hl => ?_
  obtain ⟨hret, hst, hreg⟩ := hi l hl
  rw [← exit_iff hret, hst, hreg]
  unfold rmmod
  simp only [hl]
  match m.exit faults s.reg l.statics with
  | .done reg => exact ⟨fun h => congrArg _ h.2, fun h => ⟨rfl, Unload.done.inj h⟩⟩
  | .fault reg => exact iff_of_false (fun h => absurd h.1 nofun) nofun

/-- **Cleanup.** In a sequence of loads and unloads every failed load and every unload brings back the
    registry from before the load if and only if each meets its condition. -/
theorem cleanup_iff (m : Module) (faults : Bool) (reg : Registry) (as : List Act) :
    Along (step m faults) (Cleans m faults) ⟨reg, .unloaded⟩ as ↔
      Along (step m faults) (Meets m faults) ⟨reg, .unloaded⟩ as := by
  have hstep : ∀ s a, ∃ s', step m faults s a = some s' := by
    intro s a
    match a with
    | .load ans => exact ⟨_, rfl⟩
    | .unload => exact ⟨_, rfl⟩
  obtain ⟨t, hr⟩ := exists_run hstep ⟨reg, .unloaded⟩ as
  have hinit : Inv m ⟨reg, .unloaded⟩ := fun _ hl => absurd hl nofun
  refine along_congr (fun s a s' (hi : Inv m s) hs => ⟨inv_step hi hs, ?_⟩) hinit hr
  match a with
  | .load ans => exact cleans_load
  | .unload => exact cleans_unload hi

/-- Nothing is registered. -/
def nothing : Registry := ⟨∅, ∅, ∅, ∅⟩

/-- Everything is granted. -/
def granted : Answers := ⟨.ok 240, .ok 1, 2, .ok (), .ok ()⟩

/-- There is no memory for the cdev. -/
def noCdev : Answers := { granted with cdevAdd := .error ⟨-12, by decide⟩ }

/-- The class of `ioctl_demo.c` is left by a failed load, the region of `driver_demo_new.c` as well, and
    the region of `driver_demo.c` by an unload. -/
theorem cleanup_leaves :
    (insmod .ioctlDemo ⟨nothing, .unloaded⟩ noCdev).reg.classes = {⟨1, "my_class"⟩} ∧
      (insmod .driverDemoNew ⟨nothing, .unloaded⟩ noCdev).reg.regions =
        {⟨240, 0, 1, "module_connect", none⟩} ∧
      (rmmod .driverDemo false (insmod .driverDemo ⟨nothing, .unloaded⟩ granted)).reg.regions =
        {⟨240, 0, 256, "module_connect", some 2⟩} ∧
      ¬ Along (step .ioctlDemo false) (Cleans .ioctlDemo false) ⟨nothing, .unloaded⟩
        [.load noCdev] ∧
      ¬ Along (step .driverDemoNew false) (Cleans .driverDemoNew false) ⟨nothing, .unloaded⟩
        [.load noCdev] ∧
      ¬ Along (step .driverDemo false) (Cleans .driverDemo false) ⟨nothing, .unloaded⟩
        [.load granted, .unload] := by
  refine ⟨by decide, by decide, by decide, fun h => ?_, fun h => ?_, fun h => ?_⟩
  · have hreg := h.1 fun hn => absurd hn.2 (by decide)
    exact absurd hreg (by decide)
  · have hreg := h.1 fun hn => absurd hn.2 (by decide)
    exact absurd hreg (by decide)
  · have hreg := ((h.2 _ rfl).1 _ rfl).2
    exact absurd hreg (by decide)

end KernelMagic.CharDevice
