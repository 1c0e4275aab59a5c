/-
  Variables with one copy for each CPU. A reader adds up the copies; a writer changes the copy of the
  CPU that it runs on, so it changes the sum by the difference to what that CPU had before.
-/
import Mathlib

namespace KernelMagic.Lib

variable {n : Nat} {M : Type}

/-- `for_each_possible_cpu(cpu) sum += x`, from 0. -/
def perCpuSum [Add M] [Zero M] (x : Fin n → M) : M :=
  (List.finRange n).foldl (fun sum cpu => sum + x cpu) 0

/-- `__this_cpu_write`. -/
def thisCpuWrite (x : Fin n → M) (cpu : Fin n) (v : M) : Fin n → M := Function.update x cpu v

theorem perCpuSum_eq [AddCommMonoid M] (x : Fin n → M) : perCpuSum x = ∑ cpu, x cpu := by
  rw [perCpuSum, Fin.sum_univ_def, List.sum_eq_foldl, List.foldl_map]

/-- What is kept of the other CPUs, and the new value. -/
theorem perCpuSum_write [AddCommGroup M] (x : Fin n → M) (cpu : Fin n) (v : M) :
    perCpuSum (thisCpuWrite x cpu v) = perCpuSum x - x cpu + v := by
  have hrest : x cpu + ∑ i ∈ Finset.univ \ {cpu}, x i = ∑ i, x i := by
    rw [Finset.sdiff_singleton_eq_erase]
    exact Finset.add_sum_erase _ x (Finset.mem_univ cpu)
  rw [perCpuSum_eq, perCpuSum_eq, thisCpuWrite, Finset.sum_update_of_mem (Finset.mem_univ cpu),
    ← hrest, add_sub_cancel_left, add_comm]

end KernelMagic.Lib
