/-
  `force_rmmod_init` of `del_module/force_rmmod.c`, which overwrites the reference counters of another
  module so that it can be unloaded.

  Each possible CPU has its own `incs` and `decs`, which count what was taken and given back on it; the
  reference count is the difference of the two sums, and `lsmod` shows it. An `unsigned long` has `w`
  bits. `modules` gives the counters of each loaded module, under its name.

  The parameters replace the two counters of the CPU that the load runs on. So the count loses what was
  taken there and not given back, and gets `m_incs - m_decs` instead (`refcount_init`). The recipe of
  the README, `m_incs=0` and the whole count for `m_decs`, is right only on a CPU on which as much was
  given back as was taken.
-/
import KernelMagic.Lib.PerCpu
import KernelMagic.Lib.CString

namespace KernelMagic.ForceRmmod

open KernelMagic.Lib

/-- `struct module_ref`. -/
structure ModuleRef (w : Nat) where
  incs : BitVec w
  decs : BitVec w
  deriving DecidableEq

/-- `mod->refptr`. -/
abbrev Refptr (cpus w : Nat) : Type := Fin cpus → ModuleRef w

/-- The loaded modules. -/
abbrev Modules (cpus w : Nat) : Type := List UInt8 → Option (Refptr cpus w)

/-- The parameters of the module: `modname`, and two of type `int`. -/
structure Params where
  modname : List UInt8
  mIncs : BitVec 32
  mDecs : BitVec 32

/-- The lines printed. -/
inductive Printk (w : Nat) where
  | modname (name : List UInt8)
  | findModule (name : List UInt8)
  | counts (incs decs : BitVec w)
  | findNothing
  deriving DecidableEq

/-- What the load returns, the modules after it, and what it prints. -/
structure Result (cpus w : Nat) where
  ret : Int
  modules : Modules cpus w
  log : List (Printk w)

variable {cpus w : Nat}

/-- The conversion of an `int` to `unsigned long`. -/
def ulong (w : Nat) (x : BitVec 32) : BitVec w := x.signExtend w

def incsSum (refptr : Refptr cpus w) : BitVec w := perCpuSum fun cpu => (refptr cpu).incs

def decsSum (refptr : Refptr cpus w) : BitVec w := perCpuSum fun cpu => (refptr cpu).decs

/-- The reference count. -/
def refcount (refptr : Refptr cpus w) : BitVec w := incsSum refptr - decsSum refptr

/-- `force_rmmod_init` on a CPU. -/
def forceRmmodInit (modules : Modules cpus w) (cpu : Fin cpus) (p : Params) : Result cpus w :=
  match modules p.modname with
  | none => { ret := 0, modules := modules, log := [.modname p.modname, .findNothing] }
  | some refptr =>
    let refptr := thisCpuWrite refptr cpu { refptr cpu with decs := ulong w p.mDecs }
    let refptr := thisCpuWrite refptr cpu { refptr cpu with incs := ulong w p.mIncs }
    { ret := 0
      modules := Function.update modules p.modname (some refptr)
      log := [.modname p.modname, .findModule p.modname,
        .counts (incsSum refptr) (decsSum refptr)] }

/-! ## The count after a load -/

variable {modules : Modules cpus w} {refptr : Refptr cpus w} {p : Params}

/-- What a load leaves of the counters of the target: the parameters, on one CPU. -/
theorem init_modules (cpu : Fin cpus) (hmod : modules p.modname = some refptr) :
    (forceRmmodInit modules cpu p).modules p.modname =
      some (thisCpuWrite refptr cpu ⟨ulong w p.mIncs, ulong w p.mDecs⟩) := by
  unfold forceRmmodInit thisCpuWrite
  simp only [hmod, Function.update_self, Function.update_idem]

/-- A sum over the CPUs, of one of the two counters. -/
theorem perCpuSum_field (get : ModuleRef w → BitVec w) (cpu : Fin cpus) (r : ModuleRef w) :
    perCpuSum (fun i => get (thisCpuWrite refptr cpu r i)) =
      perCpuSum (fun i => get (refptr i)) - get (refptr cpu) + get r := by
  rw [← perCpuSum_write]
  congr 1
  funext i
  unfold thisCpuWrite
  exact Function.apply_update (fun _ => get) refptr cpu r i

/-- The count without the share of the CPU, and the difference of the parameters. -/
theorem refcount_write (cpu : Fin cpus) (r : ModuleRef w) :
    refcount (thisCpuWrite refptr cpu r) =
      refcount refptr - ((refptr cpu).incs - (refptr cpu).decs) + (r.incs - r.decs) := by
  unfold refcount incsSum decsSum
  rw [perCpuSum_field ModuleRef.incs, perCpuSum_field ModuleRef.decs]
  abel

/-- With any parameters, the count is 0 after a load if and only if they make up for what the other
    CPUs have taken and not given back. -/
theorem refcount_init (cpu : Fin cpus) (hmod : modules p.modname = some refptr) :
    ∃ after, (forceRmmodInit modules cpu p).modules p.modname = some after ∧
      (refcount after = 0 ↔ ulong w p.mDecs - ulong w p.mIncs =
        refcount refptr - ((refptr cpu).incs - (refptr cpu).decs)) := by
  refine ⟨_, init_modules cpu hmod, ?_⟩
  rw [refcount_write, ← neg_sub (ulong w p.mDecs), ← sub_eq_add_neg, sub_eq_zero]
  exact eq_comm

/-- **Recipe.** A load with 0 for `m_incs` and the reference count for `m_decs` makes the count 0 if
    and only if as much was given back as was taken on the CPU that it runs on. -/
theorem recipe_iff (modules : Modules cpus w) (refptr : Refptr cpus w) (cpu : Fin cpus)
    (name : List UInt8) (mDecs : BitVec 32) (hmod : modules name = some refptr)
    (hc : ulong w mDecs = refcount refptr) :
    ∃ after, (forceRmmodInit modules cpu ⟨name, 0, mDecs⟩).modules name = some after ∧
      (refcount after = 0 ↔ (refptr cpu).incs = (refptr cpu).decs) := by
  obtain ⟨after, hafter, hiff⟩ := refcount_init (p := ⟨name, 0, mDecs⟩) cpu hmod
  refine ⟨after, hafter, hiff.trans ?_⟩
  have hzero : ulong w 0 = 0 := by
    rw [ulong, BitVec.signExtend_eq_setWidth_of_msb_false (by decide)]
    exact BitVec.setWidth_zero w 32
  simp only [hzero, hc, sub_zero]
  rw [eq_comm, sub_eq_self, sub_eq_zero]

/-- The name of a module. -/
def target : List UInt8 := ascii "target"

/-- The module is loaded, with these counters. -/
def loaded (refptr : Refptr cpus w) : Modules cpus w :=
  Function.update (fun _ => none) target (some refptr)

/-- It was taken on the first of two CPUs; on the second, twice, and given back. -/
def elsewhere : Refptr 2 64 := ![⟨1, 0⟩, ⟨2, 2⟩]

theorem recipe_elsewhere :
    ulong 64 1 = refcount elsewhere ∧ (elsewhere 1).incs = (elsewhere 1).decs ∧
      ∃ after, (forceRmmodInit (loaded elsewhere) 1 ⟨target, 0, 1⟩).modules target = some after ∧
        refcount after = 0 := by
  have hc : ulong 64 1 = refcount elsewhere := by decide
  have hown : (elsewhere 1).incs = (elsewhere 1).decs := by decide
  obtain ⟨after, hafter, hiff⟩ :=
    recipe_iff (loaded elsewhere) elsewhere 1 target 1 (Function.update_self _ _ _) hc
  exact ⟨hc, hown, after, hafter, hiff.mpr hown⟩

/-- It was taken on the only CPU. -/
def here : Refptr 1 64 := ![⟨1, 0⟩]

/-- The count of a module that was taken once goes from 1 to `2 ^ 64 - 1`. -/
theorem recipe_here :
    ulong 64 1 = refcount here ∧
      ∃ after, (forceRmmodInit (loaded here) 0 ⟨target, 0, 1⟩).modules target = some after ∧
        (refcount after).toNat = 2 ^ 64 - 1 := by
  have hrun : ((forceRmmodInit (loaded here) 0 ⟨target, 0, 1⟩).modules target).map
      (fun after => (refcount after).toNat) = some (2 ^ 64 - 1) := by
    decide +kernel
  obtain ⟨after, hafter, hcount⟩ := Option.map_eq_some_iff.mp hrun
  exact ⟨by decide, after, hafter, hcount⟩

end KernelMagic.ForceRmmod
