/-
  Paths and their lexical normal form: the components between the slashes, without the empty ones and
  `.`, and with each `..` taking away the name before it. A `..` that finds no name stays, so in the
  normal form of a relative path they all stand in front, and there is one exactly when some first part
  of the path has more `..` than names (`mem_normal_iff`).
-/
import Mathlib

namespace KernelMagic.Lib

def slash : UInt8 := 47

/-- `.` and `..`. -/
def dot : List UInt8 := [46]

def dotdot : List UInt8 := [46, 46]

def components (path : List UInt8) : List (List UInt8) := path.splitOn slash

/-- A component that goes one level down. -/
def isName (c : List UInt8) : Bool := c ≠ [] ∧ c ≠ dot ∧ c ≠ dotdot

/-- One more component; the stack has the last one on top. -/
def enter (stack : List (List UInt8)) (c : List UInt8) : List (List UInt8) :=
  if isName c then c :: stack
  else if c = dotdot then
    match stack with
    | [] => [dotdot]
    | top :: below => if top = dotdot then dotdot :: top :: below else below
  else stack

def normal (path : List UInt8) : List (List UInt8) := ((components path).foldl enter []).reverse

/-- A relative path stays inside the relative directory `dir`. -/
def Inside (dir path : List UInt8) : Prop :=
  ∃ rest, normal path = normal dir ++ rest ∧ dotdot ∉ rest

/-- Some first part of the components has more `..` than `depth` and its names together. -/
def Climbs (depth : Nat) (cs : List (List UInt8)) : Prop :=
  ∃ pre, pre <+: cs ∧ depth + pre.countP isName < pre.count dotdot

variable {stack cs : List (List UInt8)} {c : List UInt8} {depth : Nat}

theorem isName_dotdot : isName dotdot = false := by decide

theorem ne_dotdot_of_isName (h : isName c = true) : c ≠ dotdot := by
  rintro rfl
  cases h

theorem enter_name (h : isName c = true) : enter stack c = c :: stack := if_pos h

theorem enter_skip (h : isName c = false) (hc : c ≠ dotdot) : enter stack c = stack := by
  unfold enter
  rw [if_neg (by rw [h]; exact Bool.false_ne_true), if_neg hc]

theorem enter_up {top : List UInt8} (h : top ≠ dotdot) : enter (top :: stack) dotdot = stack := by
  unfold enter
  rw [if_neg (by rw [isName_dotdot]; exact Bool.false_ne_true), if_pos rfl]
  exact if_neg h

/-- A `..` on the stack is never taken away. -/
theorem dotdot_mem_enter (h : dotdot ∈ stack) (c : List UInt8) : dotdot ∈ enter stack c := by
  by_cases hn : isName c = true
  · rw [enter_name hn]
    exact List.mem_cons_of_mem _ h
  by_cases hc : c = dotdot
  · subst hc
    match stack with
    | top :: below =>
      by_cases ht : top = dotdot
      · subst ht
        exact List.mem_cons_self
      · rw [enter_up ht]
        exact (List.mem_cons.mp h).resolve_left (Ne.symm ht)
  · rw [enter_skip (Bool.not_eq_true _ ▸ hn) hc]
    exact h

theorem dotdot_mem_foldl (h : dotdot ∈ stack) (cs : List (List UInt8)) :
    dotdot ∈ cs.foldl enter stack := by
  induction cs generalizing stack with
  | nil => exact h
  | cons c cs ih => exact ih (dotdot_mem_enter h c)

/-- The empty part does not climb, so a part that does has the first component. -/
theorem climbs_cons :
    Climbs depth (c :: cs) ↔
      ∃ pre, pre <+: cs ∧ depth + (c :: pre).countP isName < (c :: pre).count dotdot := by
  constructor
  · rintro ⟨pre, hpre, hlt⟩
    obtain rfl | ⟨rest, rfl, hrest⟩ := List.prefix_cons_iff.mp hpre
    · exact absurd hlt (Nat.not_lt_zero _)
    · exact ⟨rest, hrest, hlt⟩
  · rintro ⟨pre, hpre, hlt⟩
    exact ⟨c :: pre, (List.prefix_cons_inj c).mpr hpre, hlt⟩

theorem climbs_name (h : isName c = true) : Climbs depth (c :: cs) ↔ Climbs (depth + 1) cs := by
  rw [climbs_cons, Climbs]
  have hne : (c == dotdot) = false := beq_false_of_ne (ne_dotdot_of_isName h)
  simp only [List.countP_cons, List.count_cons, h, hne, if_true, Bool.false_eq_true, if_false,
    Nat.add_zero]
  simp only [Nat.add_assoc, Nat.add_comm 1]

theorem climbs_skip (h : isName c = false) (hc : c ≠ dotdot) :
    Climbs depth (c :: cs) ↔ Climbs depth cs := by
  rw [climbs_cons, Climbs]
  have hne : (c == dotdot) = false := beq_false_of_ne hc
  simp only [List.countP_cons, List.count_cons, h, hne, Bool.false_eq_true, if_false, Nat.add_zero]

theorem climbs_up : Climbs (depth + 1) (dotdot :: cs) ↔ Climbs depth cs := by
  rw [climbs_cons, Climbs]
  refine exists_congr fun pre => and_congr_right fun _ => ?_
  rw [List.countP_cons, List.count_cons, isName_dotdot, beq_self_eq_true, if_pos rfl,
    if_neg Bool.false_ne_true]
  omega

theorem climbs_out (cs : List (List UInt8)) : Climbs 0 (dotdot :: cs) :=
  climbs_cons.mpr ⟨[], List.nil_prefix, by decide⟩

/-- By induction on the components; the stack has as many names as the part so far is deep. -/
theorem dotdot_mem_foldl_iff (h : dotdot ∉ stack) (cs : List (List UInt8)) :
    dotdot ∈ cs.foldl enter stack ↔ Climbs stack.length cs := by
  induction cs generalizing stack with
  | nil =>
    refine iff_of_false h ?_
    rintro ⟨pre, hpre, hlt⟩
    rw [List.prefix_nil.mp hpre] at hlt
    exact absurd hlt (Nat.not_lt_zero _)
  | cons c cs ih =>
    rw [List.foldl_cons]
    by_cases hn : isName c = true
    · have hc : dotdot ∉ c :: stack := by
        rw [List.mem_cons, not_or]
        exact ⟨Ne.symm (ne_dotdot_of_isName hn), h⟩
      rw [enter_name hn, ih hc, climbs_name hn]
      rfl
    by_cases hc : c = dotdot
    · subst hc
      match stack with
      | [] => exact iff_of_true (dotdot_mem_foldl List.mem_cons_self cs) (climbs_out cs)
      | top :: below =>
        rw [List.mem_cons, not_or] at h
        rw [enter_up (Ne.symm h.1), ih h.2, List.length_cons, climbs_up]
    · rw [enter_skip (Bool.not_eq_true _ ▸ hn) hc, ih h,
        climbs_skip (Bool.not_eq_true _ ▸ hn) hc]

theorem mem_normal_iff (path : List UInt8) : dotdot ∈ normal path ↔ Climbs 0 (components path) := by
  rw [normal, List.mem_reverse, dotdot_mem_foldl_iff List.not_mem_nil]
  rfl

/-- `./` in front says nothing. -/
theorem normal_here (path : List UInt8) : normal (dot ++ slash :: path) = normal path := by
  have hc : components (dot ++ slash :: path) = dot :: components path := by
    unfold components
    simp [List.splitOn, List.splitOnP_cons_eq_if_modifyHead, dot, slash]
  rw [normal, hc, List.foldl_cons, enter_skip (by decide) (by decide)]
  rfl

/-- Inside the directory one is in. -/
theorem inside_here (path : List UInt8) :
    Inside (dot ++ [slash]) (dot ++ slash :: path) ↔ ¬ Climbs 0 (components path) := by
  have hdir : normal (dot ++ [slash]) = [] := by decide +kernel
  rw [← mem_normal_iff, ← normal_here, Inside, hdir]
  constructor
  · rintro ⟨rest, hrest, hn⟩
    rw [hrest]
    exact hn
  · intro hn
    exact ⟨_, rfl, hn⟩

end KernelMagic.Lib
