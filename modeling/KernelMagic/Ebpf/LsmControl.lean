/-
  The hook `lsm_file_open` of `eBPF/lsm_control.bpf.c`, which is there to refuse to open `passwd`.

  `path` is the array on the stack, not cleared, and `name` what `d_name.name` points to; the name of
  the dentry is the string there, `cstr name`. `none` is a read that fails, which clears the array. The
  hook returns what an earlier program has decided, if that is not 0.

  The array takes the first 127 bytes of the name, and `str_equal` looks at the six letters of the
  target only, not at the NUL behind them. So every name that begins with the target is refused
  (`lsmFileOpen_eq`), a backup `passwd-` included.
-/
import KernelMagic.Lib.CString

namespace KernelMagic.LsmControl

open KernelMagic.Lib

/-- `EPERM`. -/
def eperm : Int32 := 1

/-- `char path[128]`. -/
abbrev Path : Type := List.Vector UInt8 128

/-- `"passwd"`. -/
def passwd : List UInt8 := ascii "passwd"

/-- `str_equal` from byte `i` on with `n` bytes to go; `none` is a read past the end of an array. -/
def strEqualFrom (a b : List UInt8) (i : Nat) : Nat → Option Bool
  | 0 => some true
  | n + 1 =>
    match a[i]?, b[i]? with
    | some x, some y => if x ≠ y then some false else strEqualFrom a b (i + 1) n
    | _, _ => none

def strEqual (a b : List UInt8) (len : Nat) : Option Bool := strEqualFrom a b 0 len

/-- `bpf_probe_read_kernel_str`. -/
def probeReadKernelStr (path : Path) : Option (List UInt8) → Path
  | none => List.Vector.replicate 128 0
  | some name => readStr path name

/-- What a call returns, and the lines it prints with `bpf_printk`. -/
structure Result where
  ret : Int32
  log : List (List UInt8)
  deriving DecidableEq

/-- `lsm_file_open`. -/
def lsmFileOpen (path : Path) (name : Option (List UInt8)) (ret : Int32) : Option Result :=
  if ret ≠ 0 then some ⟨ret, []⟩
  else
    let path := probeReadKernelStr path name
    let opened := ascii "LSM_TEST: open file " ++ cstr path.1 ++ ascii "\n"
    (strEqual path.1 (passwd ++ [0]) 6).map fun equal =>
      if equal then ⟨-eperm, [opened, ascii "LSM_TEST: block file"]⟩ else ⟨0, [opened]⟩

/-- What the answer to a request for `name` is to be: the target is denied, and nothing else. -/
structure DeniesTarget (ret : Int32) (name : List UInt8) (r : Int32) : Prop where
  earlier : ret ≠ 0 → r = ret
  target : ret = 0 → (r = -eperm ↔ name = passwd)
  others : ret = 0 → name ≠ passwd → r = 0

/-! ## The comparison -/

variable {a b : List UInt8}

/-- As far as both arrays go, the comparison is one of the next `n` bytes. -/
theorem strEqualFrom_eq (n i : Nat) (ha : i + n ≤ a.length) (hb : i + n ≤ b.length) :
    strEqualFrom a b i n = some (decide ((a.drop i).take n = (b.drop i).take n)) := by
  induction n generalizing i with
  | zero => simp [strEqualFrom]
  | succ n ih =>
    have hia : i < a.length := by omega
    have hib : i < b.length := by omega
    rw [strEqualFrom, List.getElem?_eq_getElem hia, List.getElem?_eq_getElem hib,
      List.drop_eq_getElem_cons hia, List.drop_eq_getElem_cons hib, List.take_succ_cons,
      List.take_succ_cons]
    simp only [ih (i + 1) (by omega) (by omega), List.cons.injEq]
    by_cases hab : a[i] = b[i]
    · simp [hab]
    · simp [hab]

/-- With the length of a string in `b`, it asks whether `a` begins with that string. -/
theorem strEqual_prefix {s : List UInt8} (ha : s.length ≤ a.length) (hs : 0 ∉ s) (r : List UInt8) :
    strEqual a (s ++ r) s.length = some (decide (s <+: cstr a)) := by
  have hlen : s.length ≤ (s ++ r).length := by
    rw [List.length_append]
    omega
  rw [strEqual, strEqualFrom_eq _ 0 (by omega) (by omega), List.drop_zero, List.drop_zero,
    List.take_left, Option.some_inj, decide_eq_decide, prefix_cstr_iff hs, List.prefix_iff_eq_take]
  exact eq_comm

/-! ## The hook -/

theorem length_passwd : passwd.length = 6 := by decide

theorem zero_notMem_passwd : 0 ∉ passwd := by decide

/-- The hook returns, and it refuses the names that begin with the target. -/
theorem lsmFileOpen_eq (path : Path) (mem : List UInt8) (ret : Int32) :
    ∃ log, lsmFileOpen path (some mem) ret =
      some ⟨if ret ≠ 0 then ret else if passwd <+: cstr mem then -eperm else 0, log⟩ := by
  unfold lsmFileOpen
  by_cases hret : ret = 0
  · have hp : (probeReadKernelStr path (some mem)).1.length = 128 := (probeReadKernelStr path _).2
    have hseen : cstr (probeReadKernelStr path (some mem)).1 = (cstr mem).take 127 :=
      cstr_readStr path mem
    -- the array is longer than the target, so what is cut off does not matter
    have hcut : passwd <+: (cstr mem).take 127 ↔ passwd <+: cstr mem := by
      rw [List.prefix_take_iff, length_passwd]
      exact and_iff_left (by decide)
    have heq : strEqual (probeReadKernelStr path (some mem)).1 (passwd ++ [0]) 6 =
        some (decide (passwd <+: cstr mem)) := by
      rw [← length_passwd, strEqual_prefix (by rw [hp, length_passwd]; decide) zero_notMem_passwd,
        hseen, Option.some_inj, decide_eq_decide]
      exact hcut
    simp only [hret, ne_eq, not_true_eq_false, if_false, heq, Option.map_some]
    by_cases hpre : passwd <+: cstr mem
    · simp [hpre]
    · simp [hpre]
  · exact ⟨[], by simp [hret]⟩

/-- **Target.** The answer is the one for the target alone if and only if an earlier program has
    decided, or the name does not go on behind a first `passwd`. -/
theorem denies_target_iff (path : Path) (mem : List UInt8) (ret : Int32) :
    ∃ r, lsmFileOpen path (some mem) ret = some r ∧
      (DeniesTarget ret (cstr mem) r.ret ↔
        ¬ (ret = 0 ∧ passwd <+: cstr mem ∧ cstr mem ≠ passwd)) := by
  obtain ⟨log, hr⟩ := lsmFileOpen_eq path mem ret
  refine ⟨_, hr, ?_⟩
  by_cases hret : ret = 0
  · by_cases hpre : passwd <+: cstr mem
    · simp only [hret, ne_eq, not_true_eq_false, if_false, hpre, if_true, true_and, not_not]
      constructor
      · exact fun h => (h.target rfl).mp rfl
      · intro heq
        exact ⟨fun h => absurd rfl h, fun _ => iff_of_true rfl heq, fun _ h => absurd heq h⟩
    · have hne : cstr mem ≠ passwd := fun h => hpre (h ▸ List.prefix_rfl)
      simp only [hret, ne_eq, not_true_eq_false, if_false, hpre, false_and, and_false,
        not_false_eq_true, iff_true]
      exact ⟨fun h => absurd rfl h, fun _ => iff_of_false (by decide) hne, fun _ _ => rfl⟩
  · simp only [hret, ne_eq, not_false_eq_true, if_true, false_and, iff_true]
    exact ⟨fun _ => rfl, fun h => absurd h hret, fun h => absurd h hret⟩

/-- The backup beside the target. -/
def backup : List UInt8 := ascii "passwd-"

theorem backup_denied :
    ∃ r, lsmFileOpen (List.Vector.replicate 128 0) (some (backup ++ [0])) 0 = some r ∧
      r.ret = -eperm ∧ ¬ DeniesTarget 0 (cstr (backup ++ [0])) r.ret := by
  have hrun : (lsmFileOpen (List.Vector.replicate 128 0) (some (backup ++ [0])) 0).map Result.ret =
      some (-eperm) := by
    decide +kernel
  obtain ⟨r, hr, hret⟩ := Option.map_eq_some_iff.mp hrun
  refine ⟨r, hr, hret, fun h => ?_⟩
  exact absurd ((h.target rfl).mp hret) (by decide)

end KernelMagic.LsmControl
