/-
  The unlink tracer `eBPF/test.bpf.c`: a probe on the entry of `do_unlinkat` that stores the name, and
  one on its exit that emits an event with the return value and the stored name. The two meet in
  `infomap`, under the upper half of `bpf_get_current_pid_tgid()`, the process.

  A schedule is the probes in the order in which they fire; each is one step. The helpers answer as
  the schedule says: `update` whether `bpf_map_update_elem` succeeds, `reserve` the memory of the
  record that `bpf_ringbuf_reserve` gives, which is not cleared. A name is `none` for a NULL
  `name_ptr`, else the bytes it points to; a read of it that fails leaves the zeros of the array, as an
  empty name does. `calls` are the calls between entry and exit, and `exits` those that have ended;
  the probes see neither.

  Two calls of one process that overlap share an entry of the map: the second name replaces the first,
  and the first exit deletes what the second would need (`overlapping_calls`). Calls are reported
  one for one, each with its own name, in every run in which no entry fires while another call of the
  process is under way (`Alone`).

  The entries themselves do not leak, overlapping or not and whatever fails (`Held`): each exit leaves
  the process without an entry, so one that is there has been stored by a call that is under way.
-/
import KernelMagic.Lib.Machine
import KernelMagic.Lib.CString

namespace KernelMagic.Unlink

open KernelMagic.Lib

/-- `char[256]`. -/
abbrev Filename := List.Vector UInt8 256

/-- `struct event`. -/
structure Event where
  pid : UInt32
  ret : Int
  filename : Filename
  deriving DecidableEq

/-- `infomap`. -/
abbrev Infomap := UInt32 → Option Filename

/-- `bpf_get_current_pid_tgid() >> 32` as a `pid_t`. -/
def tgid (pidTgid : UInt64) : UInt32 := (pidTgid >>> 32).toUInt32

/-! ## The probes -/

def doUnlinkatEntry (infomap : Infomap) (pidTgid : UInt64) (name : Option (List UInt8))
    (update : Bool) : Infomap :=
  match name with
  | none => infomap
  | some name =>
    if update then
      Function.update infomap (tgid pidTgid) (some (readStr (List.Vector.replicate 256 0) name))
    else infomap

def doUnlinkatExit (infomap : Infomap) (pidTgid : UInt64) (error : Int)
    (reserve : Option Filename) : Infomap × Option Event :=
  match infomap (tgid pidTgid) with
  | none => (infomap, none)
  | some cached =>
    match reserve with
    | none => (Function.update infomap (tgid pidTgid) none, none)
    | some old =>
      (Function.update infomap (tgid pidTgid) none,
        some ⟨tgid pidTgid, error, readStr old cached.1⟩)

/-! ## Schedules -/

/-- A call of `do_unlinkat` by a thread. -/
structure Call where
  thread : UInt64
  name : Option (List UInt8)
  deriving DecidableEq, Repr

structure Exit where
  call : Call
  error : Int
  deriving DecidableEq, Repr

structure State where
  infomap : Infomap := fun _ => none
  rb : List Event := []
  calls : List Call := []
  exits : List Exit := []

inductive Act where
  | entry (thread : UInt64) (name : Option (List UInt8)) (update : Bool)
  | exit (thread : UInt64) (error : Int) (reserve : Option Filename)

def init : State := {}

/-- A thread is in at most one call, and leaves only a call that it is in. -/
def step (s : State) : Act → Option State
  | .entry t name update =>
    if ∃ k ∈ s.calls, k.thread = t then none
    else some { s with
      infomap := doUnlinkatEntry s.infomap t name update
      calls := ⟨t, name⟩ :: s.calls }
  | .exit t error reserve =>
    (s.calls.find? fun k => k.thread = t).map fun k =>
      { s with
        infomap := (doUnlinkatExit s.infomap t error reserve).1
        rb := s.rb ++ (doUnlinkatExit s.infomap t error reserve).2.toList
        calls := s.calls.filter fun k => k.thread ≠ t
        exits := s.exits ++ [⟨k, error⟩] }

/-- The helpers succeed and the name is not NULL. -/
def Act.Assumed : Act → Prop
  | .entry _ name update => name.isSome = true ∧ update = true
  | .exit _ _ reserve => reserve.isSome = true

instance : (a : Act) → Decidable a.Assumed
  | .entry _ name update => inferInstanceAs (Decidable (name.isSome = true ∧ update = true))
  | .exit _ _ reserve => inferInstanceAs (Decidable (reserve.isSome = true))

/-- An entry fires while no other call of the process is under way. -/
def Alone (s : State) : Act → Prop
  | .entry t _ _ => ∀ k ∈ s.calls, tgid k.thread ≠ tgid t
  | .exit _ _ _ => True

instance (s : State) : (a : Act) → Decidable (Alone s a)
  | .entry t _ _ => inferInstanceAs (Decidable (∀ k ∈ s.calls, tgid k.thread ≠ tgid t))
  | .exit _ _ _ => isTrue trivial

/-- The event tells the return value and the name of the call. -/
def Reported (x : Exit) (e : Event) : Prop :=
  e.pid = tgid x.call.thread ∧ e.ret = x.error ∧
    ∃ name, x.call.name = some name ∧ cstr e.filename.1 = (cstr name).take 255

/-! ## Calls that do not overlap -/

/-- `stored`: the map has the name of each call under way. `single`: a process has one call. -/
structure Inv (s : State) : Prop where
  stored : ∀ k ∈ s.calls, ∃ name, k.name = some name ∧
    s.infomap (tgid k.thread) = some (readStr (List.Vector.replicate 256 0) name)
  single : ∀ k ∈ s.calls, ∀ k' ∈ s.calls, tgid k.thread = tgid k'.thread →
    k.thread = k'.thread
  reported : List.Forall₂ Reported s.exits s.rb

variable {s s' : State}

theorem entry_inv (hi : Inv s) {t : UInt64} {name : List UInt8}
    (ha : ∀ k ∈ s.calls, tgid k.thread ≠ tgid t) :
    Inv { s with
      infomap := doUnlinkatEntry s.infomap t (some name) true
      calls := ⟨t, some name⟩ :: s.calls } := by
  refine ⟨?_, ?_, hi.reported⟩
  · intro k hk
    rcases List.mem_cons.mp hk with rfl | hk
    · refine ⟨name, rfl, ?_⟩
      simp only [doUnlinkatEntry, if_true, Function.update_self]
    · obtain ⟨n, hn, hm⟩ := hi.stored k hk
      refine ⟨n, hn, ?_⟩
      simp only [doUnlinkatEntry, if_true, Function.update_of_ne (ha k hk)]
      exact hm
  · intro k hk k' hk' he
    rcases List.mem_cons.mp hk with rfl | hk
    · rcases List.mem_cons.mp hk' with rfl | hk'
      · rfl
      · exact absurd he.symm (ha k' hk')
    · rcases List.mem_cons.mp hk' with rfl | hk'
      · exact absurd he (ha k hk)
      · exact hi.single k hk k' hk' he

/-- What the exit probe finds and emits. -/
theorem Inv.exit_eq (hi : Inv s) {k : Call} (hk : k ∈ s.calls) (error : Int) (old : Filename) :
    ∃ e, doUnlinkatExit s.infomap k.thread error (some old) =
        (Function.update s.infomap (tgid k.thread) none, some e) ∧ Reported ⟨k, error⟩ e := by
  obtain ⟨name, hn, hm⟩ := hi.stored k hk
  unfold doUnlinkatExit
  rw [hm]
  refine ⟨_, rfl, rfl, rfl, name, hn, ?_⟩
  -- the name has been cut once, and fits the second time
  simp only [cstr_readStr, List.take_take, Nat.min_self]

theorem exit_inv (hi : Inv s) {k : Call} (hk : k ∈ s.calls) (error : Int) (old : Filename) :
    Inv { s with
      infomap := (doUnlinkatExit s.infomap k.thread error (some old)).1
      rb := s.rb ++ (doUnlinkatExit s.infomap k.thread error (some old)).2.toList
      calls := s.calls.filter fun k' => k'.thread ≠ k.thread
      exits := s.exits ++ [⟨k, error⟩] } := by
  obtain ⟨e, he, hrep⟩ := hi.exit_eq hk error old
  rw [he]
  refine ⟨?_, ?_, ?_⟩
  · intro k' hk'
    obtain ⟨hmem, hne⟩ := List.mem_filter.mp hk'
    obtain ⟨name, hn, hm⟩ := hi.stored k' hmem
    have hkey : tgid k'.thread ≠ tgid k.thread :=
      fun h => of_decide_eq_true hne (hi.single k' hmem k hk h)
    refine ⟨name, hn, ?_⟩
    simp only [Function.update_of_ne hkey]
    exact hm
  · intro k₁ h₁ k₂ h₂
    exact hi.single k₁ (List.mem_filter.mp h₁).1 k₂ (List.mem_filter.mp h₂).1
  · exact List.rel_append hi.reported (.cons hrep .nil)

theorem inv_step {a : Act} (hi : Inv s) (ha : a.Assumed ∧ Alone s a) (h : step s a = some s') :
    Inv s' := by
  obtain ⟨ha, hal⟩ := ha
  cases a with
  | entry t name update =>
    obtain ⟨hname, rfl⟩ := ha
    obtain ⟨name, rfl⟩ := Option.isSome_iff_exists.mp hname
    simp only [step] at h
    split at h
    · cases h
    · cases h
      exact entry_inv hi hal
  | exit t error reserve =>
    obtain ⟨old, rfl⟩ := Option.isSome_iff_exists.mp ha
    obtain ⟨k, hk, rfl⟩ := Option.map_eq_some_iff.mp h
    obtain rfl : k.thread = t := by simpa using List.find?_some hk
    exact exit_inv hi (List.mem_of_find?_eq_some hk) error old

theorem exits_reported (acts : List Act) (s : State) (ha : ∀ a ∈ acts, a.Assumed)
    (hal : Along step Alone init acts) (hr : run step init acts = some s) :
    List.Forall₂ Reported s.exits s.rb := by
  have h0 : Inv init := ⟨fun _ h => absurd h List.not_mem_nil, fun _ h => absurd h List.not_mem_nil, .nil⟩
  have hP := (along_of_forall (P := fun _ a => a.Assumed) (fun _ _ h => h) init acts ha).and hal
  exact (run_inv (fun _ _ _ hi hp hs => inv_step hi hp hs) h0 hP hr).reported

/-- Thread `t` of process `p`. -/
def thread (p t : UInt32) : UInt64 := p.toUInt64 <<< 32 ||| t.toUInt64

def blank : Filename := List.Vector.replicate 256 0

/-- Two processes remove a file each at the same time, and one of them then another. -/
def twoProcesses : List Act :=
  [.entry (thread 1 1) (some [97]) true, .entry (thread 2 2) (some [98]) true,
    .exit (thread 1 1) 0 (some blank), .entry (thread 1 3) (some [99]) true,
    .exit (thread 2 2) (-2) (some blank), .exit (thread 1 3) 0 (some blank)]

theorem exits_reported_twoProcesses :
    ∃ s, run step init twoProcesses = some s ∧ s.rb.map Event.ret = [0, -2, 0] ∧
      List.Forall₂ Reported s.exits s.rb := by
  have h : (run step init twoProcesses).map (fun s => s.rb.map Event.ret) = some [0, -2, 0] := by
    decide +kernel
  obtain ⟨s, hr, hs⟩ := Option.map_eq_some_iff.mp h
  exact ⟨s, hr, hs, exits_reported twoProcesses s (by decide) (by decide +kernel) hr⟩

/-- Two threads of one process remove `a` and `b` at the same time. -/
def overlap : List Act :=
  [.entry (thread 1 1) (some [97]) true, .entry (thread 1 2) (some [98]) true,
    .exit (thread 1 1) 0 (some blank), .exit (thread 1 2) (-2) (some blank)]

/-- There is one event, with the result of the first call and the name of the second. -/
theorem overlapping_calls :
    ∃ s, (∀ a ∈ overlap, a.Assumed) ∧ run step init overlap = some s ∧
      s.exits = [⟨⟨thread 1 1, some [97]⟩, 0⟩, ⟨⟨thread 1 2, some [98]⟩, -2⟩] ∧
      s.rb.map (fun e => (e.ret, cstr e.filename.1)) = [(0, [98])] ∧
      ¬ List.Forall₂ Reported s.exits s.rb := by
  have h : (run step init overlap).map
      (fun s => (s.exits, s.rb.map fun e => (e.ret, cstr e.filename.1))) =
        some ([⟨⟨thread 1 1, some [97]⟩, 0⟩, ⟨⟨thread 1 2, some [98]⟩, -2⟩], [(0, [98])]) := by
    decide +kernel
  obtain ⟨s, hr, hs⟩ := Option.map_eq_some_iff.mp h
  obtain ⟨hex, hrb⟩ := Prod.mk.inj hs
  refine ⟨s, by decide, hr, hex, hrb, fun hf => ?_⟩
  have hlen := hf.length_eq
  have hone := congrArg List.length hrb
  rw [hex] at hlen
  rw [List.length_map] at hone
  rw [hone] at hlen
  cases hlen

/-! ## Entries of the map -/

/-- The map has an entry for a process only while one of its calls is under way. -/
def Held (s : State) : Prop :=
  ∀ p, (s.infomap p).isSome = true → ∃ k ∈ s.calls, tgid k.thread = p

theorem doUnlinkatEntry_of_ne (m : Infomap) (t : UInt64) (name : Option (List UInt8))
    (update : Bool) {p : UInt32} (hp : p ≠ tgid t) : doUnlinkatEntry m t name update p = m p := by
  unfold doUnlinkatEntry
  cases name with
  | none => rfl
  | some name =>
    cases update with
    | false => rfl
    | true => exact Function.update_of_ne hp _ _

/-- On every path the exit probe leaves no entry for the process. -/
theorem doUnlinkatExit_eq (m : Infomap) (t : UInt64) (error : Int) (reserve : Option Filename) :
    (doUnlinkatExit m t error reserve).1 = Function.update m (tgid t) none := by
  unfold doUnlinkatExit
  cases hm : m (tgid t) with
  | none =>
    have hself : Function.update m (tgid t) none = m := by
      rw [← hm, Function.update_eq_self]
    rw [hself]
  | some cached =>
    cases reserve <;> rfl

theorem held_step {a : Act} (hs : Held s) (h : step s a = some s') : Held s' := by
  cases a with
  | entry t name update =>
    simp only [step] at h
    split at h
    · cases h
    · cases h
      intro p hp
      by_cases ht : p = tgid t
      · exact ⟨⟨t, name⟩, List.mem_cons_self, ht.symm⟩
      · simp only [doUnlinkatEntry_of_ne _ _ _ _ ht] at hp
        obtain ⟨k, hk, hkp⟩ := hs p hp
        exact ⟨k, List.mem_cons_of_mem _ hk, hkp⟩
  | exit t error reserve =>
    obtain ⟨k, hk, rfl⟩ := Option.map_eq_some_iff.mp h
    intro p hp
    simp only [doUnlinkatExit_eq] at hp
    have ht : p ≠ tgid t := by
      rintro rfl
      rw [Function.update_self] at hp
      cases hp
    rw [Function.update_of_ne ht] at hp
    obtain ⟨j, hj, hjp⟩ := hs p hp
    refine ⟨j, List.mem_filter.mpr ⟨hj, ?_⟩, hjp⟩
    -- the thread that leaves is of another process
    exact decide_eq_true fun he => ht (by rw [← hjp, he])

theorem infomap_held (acts : List Act) (s : State) (hr : run step init acts = some s) :
    (∀ p, (s.infomap p).isSome = true → ∃ k ∈ s.calls, tgid k.thread = p) ∧
      (s.calls = [] → ∀ p, s.infomap p = none) := by
  have h0 : Held init := fun _ h => Bool.noConfusion h
  have hs : Held s := run_keeps hr h0 fun _ _ _ hi h => held_step hi h
  refine ⟨hs, fun hc p => ?_⟩
  by_contra hne
  obtain ⟨k, hk, -⟩ := hs p (Option.isSome_iff_ne_none.mpr hne)
  rw [hc] at hk
  cases hk

/-- After the overlapping calls have ended the map is empty again; the last reservation fails. -/
theorem infomap_held_overlap :
    ∃ s, run step init [.entry (thread 1 1) (some [97]) true, .entry (thread 1 2) none true,
        .exit (thread 1 2) 0 none, .exit (thread 1 1) 0 none] = some s ∧
      s.exits.length = 2 ∧ ∀ p, s.infomap p = none := by
  have h : (run step init [.entry (thread 1 1) (some [97]) true, .entry (thread 1 2) none true,
      .exit (thread 1 2) 0 none, .exit (thread 1 1) 0 none]).map
        (fun s => (s.exits.length, s.calls)) = some (2, []) := by
    decide +kernel
  obtain ⟨s, hr, hs⟩ := Option.map_eq_some_iff.mp h
  obtain ⟨hlen, hcalls⟩ := Prod.mk.inj hs
  exact ⟨s, hr, hlen, (infomap_held _ s hr).2 hcalls⟩

end KernelMagic.Unlink
