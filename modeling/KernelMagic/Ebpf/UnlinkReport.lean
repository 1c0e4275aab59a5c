/-
  What `eBPF/test.c` prints of the events of the unlink tracer, in every run, also of calls that overlap
  and helpers that fail.

  An overlapping call can cost an event, and an event can have the name of the other call, but nothing
  comes from elsewhere (`Told`): an event is of an exit of its process, with the return value of that
  exit, and its name has been passed to a call of the same process. Each exit is told of at most once
  and in order.
-/
import KernelMagic.Ebpf.Unlink

namespace KernelMagic.Unlink

open KernelMagic.Lib

/-- `handle_event`: the PID and the name that it prints; `none` is a read past the end of the field. -/
def handleEvent (e : Event) : Option (UInt32 × List UInt8) :=
  (printStr e.filename.1).map fun filename => (e.pid, filename)

/-- A call that has begun, and may have ended. -/
def Entered (s : State) (k : Call) : Prop := k ∈ s.calls ∨ ∃ x ∈ s.exits, x.call = k

/-- The map has a name that a call of the process has been given. -/
def Given (s : State) (p : UInt32) (f : Filename) : Prop :=
  ∃ k name, Entered s k ∧ tgid k.thread = p ∧ k.name = some name ∧
    f = readStr (List.Vector.replicate 256 0) name

/-- The event and its line tell of the exit, with the name of a call of the same process. -/
def Told (s : State) (x : Exit) (e : Event) : Prop :=
  e.ret = x.error ∧ ∃ k name, Entered s k ∧ tgid k.thread = tgid x.call.thread ∧ k.name = some name ∧
    handleEvent e = some (tgid x.call.thread, (cstr name).take 255)

structure Traced (s : State) : Prop where
  nodup : (s.calls.map Call.thread).Nodup
  given : ∀ p f, s.infomap p = some f → Given s p f
  told : ∃ xs, xs.Sublist s.exits ∧ List.Forall₂ (Told s) xs s.rb

variable {s s' : State} {a : Act} {x : Exit} {e : Event} {p : UInt32} {f : Filename} {k : Call}
  {t : UInt64} {error : Int}

/-! ## One step -/

/-- The state after an entry. -/
def entered (s : State) (k : Call) (update : Bool) : State :=
  { s with infomap := doUnlinkatEntry s.infomap k.thread k.name update, calls := k :: s.calls }

/-- The state after the exit of a call. -/
def left (s : State) (k : Call) (error : Int) (reserve : Option Filename) : State :=
  { s with
    infomap := (doUnlinkatExit s.infomap k.thread error reserve).1
    rb := s.rb ++ (doUnlinkatExit s.infomap k.thread error reserve).2.toList
    calls := s.calls.filter fun k' => k'.thread ≠ k.thread
    exits := s.exits ++ [⟨k, error⟩] }

theorem step_cases (h : step s a = some s') :
    (∃ k update, (∀ j ∈ s.calls, j.thread ≠ k.thread) ∧ s' = entered s k update) ∨
      ∃ k error reserve, k ∈ s.calls ∧ s' = left s k error reserve := by
  cases a with
  | entry t name update =>
    simp only [step] at h
    split at h
    · cases h
    · next hnew =>
      refine .inl ⟨⟨t, name⟩, update, fun j hj ht => hnew ⟨j, hj, ht⟩, ?_⟩
      exact (Option.some.inj h).symm
  | exit t error reserve =>
    obtain ⟨k, hk, rfl⟩ := Option.map_eq_some_iff.mp h
    obtain rfl : k.thread = t := by simpa using List.find?_some hk
    exact .inr ⟨k, error, reserve, List.mem_of_find?_eq_some hk, rfl⟩

theorem doUnlinkatEntry_eq (m : Infomap) (t : UInt64) (name : Option (List UInt8)) (update : Bool) :
    doUnlinkatEntry m t name update = m ∨ ∃ n, name = some n ∧
      doUnlinkatEntry m t name update =
        Function.update m (tgid t) (some (readStr (List.Vector.replicate 256 0) n)) := by
  cases name with
  | none => exact .inl rfl
  | some n =>
    cases update with
    | false => exact .inl rfl
    | true => exact .inr ⟨n, rfl, rfl⟩

theorem doUnlinkatExit_event (m : Infomap) (t : UInt64) (error : Int) (reserve : Option Filename) :
    (doUnlinkatExit m t error reserve).2 = none ∨ ∃ f old, m (tgid t) = some f ∧
      (doUnlinkatExit m t error reserve).2 = some ⟨tgid t, error, readStr old f.1⟩ := by
  unfold doUnlinkatExit
  cases hm : m (tgid t) with
  | none => exact .inl rfl
  | some f =>
    cases reserve with
    | none => exact .inl rfl
    | some old => exact .inr ⟨f, old, rfl, rfl⟩

theorem entered_entered (hj : Entered s k) (j : Call) (update : Bool) :
    Entered (entered s j update) k := hj.imp_left (List.mem_cons_of_mem _)

/-- A call that ends is among those that have ended. -/
theorem entered_left (ht : Traced s) {j : Call} (hj : j ∈ s.calls) (hk : Entered s k) (error : Int)
    (reserve : Option Filename) : Entered (left s j error reserve) k := by
  rcases hk with hk | ⟨x, hx, rfl⟩
  · by_cases he : k.thread = j.thread
    · obtain rfl : k = j := List.inj_on_of_nodup_map ht.nodup hk hj he
      exact .inr ⟨⟨k, error⟩, List.mem_append_right _ List.mem_cons_self, rfl⟩
    · exact .inl (List.mem_filter.mpr ⟨hk, decide_eq_true he⟩)
  · exact .inr ⟨x, List.mem_append_left _ hx, rfl⟩

theorem Given.mono (hg : Given s p f) (hk : ∀ k, Entered s k → Entered s' k) : Given s' p f := by
  obtain ⟨k, name, hent, hrest⟩ := hg
  exact ⟨k, name, hk k hent, hrest⟩

theorem Told.mono (ht : Told s x e) (hk : ∀ k, Entered s k → Entered s' k) : Told s' x e := by
  obtain ⟨hret, k, name, hent, hrest⟩ := ht
  exact ⟨hret, k, name, hk k hent, hrest⟩

/-- The event of an exit that finds a name. -/
theorem told_exit (hg : Given s (tgid k.thread) f) (old : Filename) :
    Told s ⟨k, error⟩ ⟨tgid k.thread, error, readStr old f.1⟩ := by
  obtain ⟨j, name, hent, hp, hname, rfl⟩ := hg
  refine ⟨rfl, j, name, hent, hp, hname, ?_⟩
  have hzero : (0 : UInt8) ∈ (readStr old (readStr (List.Vector.replicate 256 0) name).1).1 :=
    List.mem_append_right _ List.mem_cons_self
  unfold handleEvent printStr
  rw [if_pos hzero, Option.map_some, cstr_readStr, cstr_readStr, List.take_take, Nat.min_self]

theorem entry_traced (ht : Traced s) (hnew : ∀ j ∈ s.calls, j.thread ≠ k.thread) (update : Bool) :
    Traced (entered s k update) := by
  have hmono : ∀ j, Entered s j → Entered (entered s k update) j :=
    fun j hj => entered_entered hj k update
  refine ⟨?_, fun p f hf => ?_, ?_⟩
  · refine List.nodup_cons.mpr ⟨fun hmem => ?_, ht.nodup⟩
    obtain ⟨j, hj, he⟩ := List.mem_map.mp hmem
    exact hnew j hj he
  · rcases doUnlinkatEntry_eq s.infomap k.thread k.name update with he | ⟨name, hname, he⟩
    · exact (ht.given p f (by rw [← he]; exact hf)).mono hmono
    · simp only [entered, he] at hf
      by_cases hp : p = tgid k.thread
      · rw [hp, Function.update_self] at hf
        exact ⟨k, name, .inl List.mem_cons_self, hp.symm, hname, (Option.some.inj hf).symm⟩
      · rw [Function.update_of_ne hp] at hf
        exact (ht.given p f hf).mono hmono
  · obtain ⟨xs, hxs, hall⟩ := ht.told
    exact ⟨xs, hxs, hall.imp fun _ _ h => h.mono hmono⟩

theorem exit_traced (ht : Traced s) (hk : k ∈ s.calls) (error : Int) (reserve : Option Filename) :
    Traced (left s k error reserve) := by
  have hmono : ∀ j, Entered s j → Entered (left s k error reserve) j :=
    fun j hj => entered_left ht hk hj error reserve
  refine ⟨?_, fun p f hf => ?_, ?_⟩
  · exact (List.filter_sublist.map _).nodup ht.nodup
  · simp only [left, doUnlinkatExit_eq] at hf
    by_cases hp : p = tgid k.thread
    · rw [hp, Function.update_self] at hf
      cases hf
    · rw [Function.update_of_ne hp] at hf
      exact (ht.given p f hf).mono hmono
  · obtain ⟨xs, hxs, hall⟩ := ht.told
    have hall' := hall.imp fun _ _ (h : Told s _ _) => h.mono hmono
    have hsub : xs.Sublist (s.exits ++ [⟨k, error⟩]) := hxs.trans (List.sublist_append_left _ _)
    rcases doUnlinkatExit_event s.infomap k.thread error reserve with he | ⟨f, old, hm, he⟩
    · refine ⟨xs, hsub, ?_⟩
      simp only [left, he, Option.toList_none, List.append_nil] at hall' ⊢
      exact hall'
    · refine ⟨xs ++ [⟨k, error⟩], hxs.append_right _, ?_⟩
      have htold : Told _ ⟨k, error⟩ _ := (told_exit (ht.given _ f hm) old).mono hmono
      simp only [left, he, Option.toList_some] at hall' htold ⊢
      exact List.rel_append hall' (.cons htold .nil)

theorem traced_step (ht : Traced s) (h : step s a = some s') : Traced s' := by
  rcases step_cases h with ⟨k, update, hnew, rfl⟩ | ⟨k, error, reserve, hk, rfl⟩
  · exact entry_traced ht hnew update
  · exact exit_traced ht hk error reserve

/-! ## Runs -/

/-- **Nothing comes from elsewhere.** In every run, whatever calls overlap and whatever fails: the events
    are of different exits, in their order, each with the return value of its exit; and the line that is
    printed for it has the process of that exit and, cut to 255 bytes, a name that has been passed to a
    call of that process. -/
theorem lines_attributed (acts : List Act) (s : State) (hr : run step init acts = some s) :
    ∃ xs, xs.Sublist s.exits ∧ List.Forall₂ (Told s) xs s.rb := by
  have h0 : Traced init := ⟨.nil, fun p f hf => (by cases hf), [], .slnil, .nil⟩
  exact (run_keeps hr h0 fun _ _ _ ht h => traced_step ht h).told

/-- Of the two overlapping calls the first exit is told of, with the name of the second call. -/
theorem attributed_overlap :
    ∃ s, run step init overlap = some s ∧ s.exits.length = 2 ∧ s.rb.length = 1 ∧
      ∃ xs, xs.Sublist s.exits ∧ List.Forall₂ (Told s) xs s.rb := by
  have h : (run step init overlap).map (fun s => (s.exits.length, s.rb.length)) = some (2, 1) := by
    decide +kernel
  obtain ⟨s, hr, hs⟩ := Option.map_eq_some_iff.mp h
  obtain ⟨hex, hrb⟩ := Prod.mk.inj hs
  exact ⟨s, hr, hex, hrb, lines_attributed overlap s hr⟩

end KernelMagic.Unlink
