/-
  The load and the unload of three modules with a character device: `driver_demo/driver_demo.c`,
  `driver_demo/driver_demo_new.c` and `ioctl/ioctl_demo.c`.

  A load gets the answers of the calls it makes, and new memory for its variables. A load that returns
  an error leaves no module behind. While a module is loaded its name is taken, and a further load does
  not get as far as its init function. A fault in the exit function leaves a module that can neither be
  unloaded nor loaded again.

  `before` and `ans` of a loaded module are the registry before its load and the answers to it; the
  module does not see them.
-/
import KernelMagic.Lib.History
import KernelMagic.Lib.CharDev

namespace KernelMagic.CharDevice

open KernelMagic.Lib KernelMagic.Lib.CharDev

/-- What the calls of a load are answered; `cdev` is the memory of its cdev. -/
structure Answers where
  major : Except Errno Nat
  cls : Except Errno Addr
  cdev : Addr
  cdevAdd : Except Errno Unit
  device : Except Errno Unit

/-- The variables `dev_num` and `driver_class`, and where the cdev is. -/
structure Statics where
  devNum : DevT := ⟨0, 0⟩
  driverClass : ClassPtr := .null
  cdev : Addr

/-- What an init function returns, the variables and the registry after it. -/
structure Load where
  ret : Int
  statics : Statics
  reg : Registry

/-- The end of an exit function. -/
inductive Unload where
  | done (reg : Registry)
  | fault (reg : Registry)
  deriving DecidableEq

/-! ## The functions of the modules -/

/-- The init function of the two modules with a class; `cdevAddFailed` is its error path behind
    `cdev_add`. -/
def initWith (deviceName className : String) (cdevAddFailed : Registry → DevT → Errno → Int × Registry)
    (reg : Registry) (ans : Answers) : Load :=
  let (region, reg) := allocChrdevRegion reg ans.major 0 1 deviceName
  match region with
  | .error _ => ⟨-1, { cdev := ans.cdev }, reg⟩
  | .ok devNum =>
    let (driverClass, reg) := classCreate reg ans.cls className
    let (ret, reg) := cdevAdd reg ans.cdevAdd ans.cdev devNum 1
    match ret with
    | .error e =>
      let (ret, reg) := cdevAddFailed reg devNum e
      ⟨ret, ⟨devNum, driverClass, ans.cdev⟩, reg⟩
    | .ok () =>
      let (_, reg) := deviceCreate reg ans.device driverClass devNum deviceName
      ⟨0, ⟨devNum, driverClass, ans.cdev⟩, reg⟩

/-- The exit function of the two. -/
def exitWith (faults : Bool) (reg : Registry) (st : Statics) : Unload :=
  let reg := unregisterChrdevRegion reg st.devNum 1
  match deviceDestroy faults reg st.driverClass st.devNum with
  | none => .fault reg
  | some reg => .done (classDestroy (cdevDel reg st.cdev) st.driverClass)

namespace DriverDemo

/-- `demo_module_init`, which drops the major number. -/
def demoModuleInit (reg : Registry) (ans : Answers) : Load :=
  let (_, reg) := registerChrdev reg ans.major ans.cdev "module_connect"
  ⟨0, { cdev := ans.cdev }, reg⟩

/-- `demo_module_exit`. -/
def demoModuleExit (reg : Registry) : Unload := .done (unregisterChrdev reg 0)

end DriverDemo

namespace DriverDemoNew

/-- `demo_module_init`. -/
def demoModuleInit : Registry → Answers → Load :=
  initWith "module_connect" "driver_connect" fun reg _ ret => (ret, reg)

/-- `demo_module_exit`. -/
def demoModuleExit : Bool → Registry → Statics → Unload := exitWith

end DriverDemoNew

namespace IoctlDemo

/-- `my_module_init`. -/
def myModuleInit : Registry → Answers → Load :=
  initWith "my_device" "my_class" fun reg devNum _ => (-1, unregisterChrdevRegion reg devNum 1)

/-- `my_module_exit`. -/
def myModuleExit : Bool → Registry → Statics → Unload := exitWith

end IoctlDemo

/-! ## Loads and unloads -/

inductive Module where
  | driverDemo
  | driverDemoNew
  | ioctlDemo
  deriving DecidableEq, Repr

def Module.init : Module → Registry → Answers → Load
  | .driverDemo => DriverDemo.demoModuleInit
  | .driverDemoNew => DriverDemoNew.demoModuleInit
  | .ioctlDemo => IoctlDemo.myModuleInit

def Module.exit : Module → Bool → Registry → Statics → Unload
  | .driverDemo => fun _ reg _ => DriverDemo.demoModuleExit reg
  | .driverDemoNew => DriverDemoNew.demoModuleExit
  | .ioctlDemo => IoctlDemo.myModuleExit

structure Loaded where
  statics : Statics
  before : Registry
  ans : Answers

inductive Status where
  | unloaded
  | loaded (l : Loaded)
  | stuck

structure State where
  reg : Registry
  status : Status := .unloaded

/-- `insmod` or `rmmod`. -/
inductive Act where
  | load (ans : Answers)
  | unload

def insmod (m : Module) (s : State) (ans : Answers) : State :=
  match s.status with
  | .unloaded =>
    let r := m.init s.reg ans
    ⟨r.reg, if r.ret = 0 then .loaded ⟨r.statics, s.reg, ans⟩ else .unloaded⟩
  | .loaded _ => s
  | .stuck => s

def rmmod (m : Module) (faults : Bool) (s : State) : State :=
  match s.status with
  | .loaded l =>
    match m.exit faults s.reg l.statics with
    | .done reg => ⟨reg, .unloaded⟩
    | .fault reg => ⟨reg, .stuck⟩
  | .unloaded => s
  | .stuck => s

def step (m : Module) (faults : Bool) (s : State) : Act → Option State
  | .load ans => some (insmod m s ans)
  | .unload => some (rmmod m faults s)

/-- A load that returns an error leaves the registry as it was, and an unload brings back the registry
    from before the load. -/
def Cleans (m : Module) (faults : Bool) (s : State) : Act → Prop
  | .load ans =>
    ¬ (s.status = .unloaded ∧ (m.init s.reg ans).ret = 0) → (insmod m s ans).reg = s.reg
  | .unload =>
    ∀ l, s.status = .loaded l →
      (rmmod m faults s).status = .unloaded ∧ (rmmod m faults s).reg = l.before

end KernelMagic.CharDevice
