/-
  A submit behind the fill loop that fails. The main loop is left by `break` as it is when the copy is
  over, so the drain loop runs with whatever is under way: reads that are queued, reads and writes that
  are in flight. It does what it always does: it waits for as many completions as there are writes,
  takes each that is no error for a finished write, and returns 0.

  Nothing is submitted any more, so the completions come in the order of the schedule, behind those
  that are in the queue (`arrivals`). `copyFile_failed_submit`: with `k` writes outstanding it returns an
  error, and takes no read for a write, exactly when one of the first `k` completions is an error, or
  the call that waits for it fails, and those before it are writes. With none outstanding it returns 0
  at once (`copyFile_failed_first`).
-/
import KernelMagic.FileUring2.Work

namespace KernelMagic.FileUring2

open KernelMagic.Lib

/-- The completion that the drain loop takes for a finished write in this step. -/
def drains (s : State) : Act → Option (Cqe Req)
  | .complete _ _ => none
  | .prog b =>
    if s.pc = .drain ∧ s.writes ≠ 0 ∧ ¬ b.cqeErr < 0 then
      s.ring.cq.head?.filter fun c : Cqe Req => 0 ≤ c.res
    else none

/-- All of them in a run from `s`. -/
def drainedIn (source : List UInt8) (s : State) (acts : List Act) : List (Cqe Req) :=
  record (step source) (fun l s a => l ++ (drains s a).toList) [] s acts

/-- What the drain loop takes for a finished write has a record in the write phase. -/
def TakesWrites (s : State) (a : Act) : Prop :=
  ∀ c ∈ drains s a, ∀ d ∈ s.heap.cell c.req.data, d.read = false

/-- The answers that the program gets. -/
def answers : List Act → List Answers
  | [] => []
  | .complete _ _ :: acts => answers acts
  | .prog b :: acts => b :: answers acts

/-- The completions of these requests in flight, as they come in while nothing is submitted. -/
def arrivals : List Req → List Act → List (Cqe Req)
  | _, [] => []
  | fl, .complete i res :: acts =>
    (fl[i]?.map (Cqe.mk · res)).toList ++ arrivals (fl.eraseIdx i) acts
  | fl, .prog _ :: acts => arrivals fl acts

/-- The wait for completion `j` fails, or the completion is an error. -/
def Fails (bs : List Answers) (cs : List (Cqe Req)) (j : Nat) : Prop :=
  (∃ b ∈ bs[j]?, b.cqeErr < 0) ∨ ∃ c ∈ cs[j]?, c.res < 0

/-- Completion `j` is that of a write. -/
def IsWrite (cs : List (Cqe Req)) (j : Nat) : Prop := ∃ c ∈ cs[j]?, c.req.read = false

/-- An error is among the first `k` completions, and those before it are writes. -/
def Spared (k : Nat) (bs : List Answers) (cs : List (Cqe Req)) : Prop :=
  ∃ j < k, Fails bs cs j ∧ ∀ i < j, IsWrite cs i

theorem not_spared_zero (bs : List Answers) (cs : List (Cqe Req)) : ¬ Spared 0 bs cs := by
  rintro ⟨j, hj, -⟩
  exact absurd hj (Nat.not_lt_zero j)

theorem spared_of_fails {k : Nat} {bs : List Answers} {cs : List (Cqe Req)} (hk : k ≠ 0)
    (h : Fails bs cs 0) : Spared k bs cs :=
  ⟨0, Nat.pos_of_ne_zero hk, h, fun i hi => absurd hi (Nat.not_lt_zero i)⟩

theorem isWrite_cons {c : Cqe Req} {cs : List (Cqe Req)} {j : Nat} :
    (∀ i < j + 1, IsWrite (c :: cs) i) ↔ c.req.read = false ∧ ∀ i < j, IsWrite cs i := by
  constructor
  · intro h
    obtain ⟨c', hc, hw⟩ := h 0 (Nat.succ_pos j)
    obtain rfl : c = c' := Option.some.inj hc
    exact ⟨hw, fun i hi => h (i + 1) (Nat.succ_lt_succ hi)⟩
  · rintro ⟨hw, h⟩ i hi
    match i with
    | 0 => exact ⟨c, rfl, hw⟩
    | i + 1 => exact h i (Nat.lt_of_succ_lt_succ hi)

/-- The first completion is no error. -/
theorem spared_cons {k : Nat} {b : Answers} {bs : List Answers} {c : Cqe Req} {cs : List (Cqe Req)}
    (hb : ¬ b.cqeErr < 0) (hc : 0 ≤ c.res) :
    Spared (k + 1) (b :: bs) (c :: cs) ↔ c.req.read = false ∧ Spared k bs cs := by
  constructor
  · rintro ⟨j, hj, hfail, hw⟩
    match j with
    | 0 =>
      rcases hfail with ⟨b', hb', herr⟩ | ⟨c', hc', hneg⟩
      · obtain rfl : b = b' := Option.some.inj hb'
        exact absurd herr hb
      · obtain rfl : c = c' := Option.some.inj hc'
        omega
    | j + 1 =>
      obtain ⟨hread, hw⟩ := isWrite_cons.mp hw
      exact ⟨hread, j, Nat.lt_of_succ_lt_succ hj, hfail, hw⟩
  · rintro ⟨hread, j, hj, hfail, hw⟩
    exact ⟨j + 1, Nat.succ_lt_succ hj, hfail, isWrite_cons.mpr ⟨hread, hw⟩⟩

section Step

variable {source : List UInt8} {size : Nat} {s s' : State} {a : Act} {b : Answers}

/-! ## One step behind the main loop -/

/-- All that a turn of the drain loop can do. -/
theorem drainStep_cases (hs : Sound source s) (hpc : s.pc = .drain) (h : drainStep s b = some s') :
    (s.writes = 0 ∧ drains s (.prog b) = none ∧ s' = { s with pc := .ret 0 }) ∨
    (s.writes ≠ 0 ∧ drains s (.prog b) = none ∧ s' = { s with pc := .ret 1 } ∧
      (b.cqeErr < 0 ∨ ∃ c ∈ s.ring.cq[0]?, c.res < 0)) ∨
    ∃ c cs d, s.writes ≠ 0 ∧ ¬ b.cqeErr < 0 ∧ s.ring.cq = c :: cs ∧ 0 ≤ c.res ∧
      drains s (.prog b) = some c ∧ s.heap.cell c.req.data = some d ∧ c.req.read = d.read ∧
      s'.pc = .drain ∧ s'.writes = s.writes - 1 ∧
      s'.ring = { s.ring with cq := cs } := by
  unfold drainStep at h
  split at h
  · next hw =>
    cases h
    exact .inl ⟨hw, if_neg fun hc => hc.2.1 hw, rfl⟩
  next hw =>
  split at h
  · next herr =>
    cases h
    exact .inr (.inl ⟨hw, if_neg fun hc => hc.2.2 herr, rfl, .inl herr⟩)
  next herr =>
  obtain ⟨c, hc, h⟩ := Option.map_eq_some_iff.mp h
  have hdr : drains s (.prog b) = s.ring.cq.head?.filter fun c => 0 ≤ c.res :=
    if_pos ⟨hpc, hw, herr⟩
  rw [hc] at hdr
  obtain ⟨cs, hcq⟩ := List.head?_eq_some_iff.mp hc
  obtain ⟨d, hd, hj⟩ := hs.flight.job (IoRing.head_mem_pending hcq)
  subst h
  split
  · next hneg =>
    refine .inr (.inl ⟨hw, ?_, rfl, .inr ⟨c, by rw [hcq]; rfl, hneg⟩⟩)
    rw [hdr]
    exact Option.filter_some_neg (by simpa using hneg)
  · next hneg =>
    have h0 : 0 ≤ c.res := by omega
    refine .inr (.inr ⟨c, cs, d, hw, herr, hcq, h0, ?_, hd, hj.read, ?_⟩)
    · rw [hdr]
      exact Option.filter_some_pos (by simpa using h0)
    · simp only [hd]
      refine ⟨hpc, rfl, ?_⟩
      simp only [cqeSeen, IoRing.advance, hcq]
      rfl

theorem drains_of_ne (hpc : s.pc ≠ .drain) : drains s a = none := by
  cases a with
  | complete i res => rfl
  | prog b => exact if_neg fun hc => hpc hc.1

/-- The kernel does not touch the program's variables; a request in flight becomes a completion. -/
theorem kernelStep_queues (hs : Sound source s) {i : Nat} {res : Int}
    (h : step source s (.complete i res) = some s') :
    ∃ q, s.ring.inflight[i]? = some q ∧ s'.pc = s.pc ∧ s'.writes = s.writes ∧
      s'.ring.inflight = s.ring.inflight.eraseIdx i ∧ s'.ring.cq = s.ring.cq ++ [⟨q, res⟩] := by
  obtain ⟨q, d, d', dest, hq, -, -, rfl⟩ := kernelStep_cases hs.alive.live h
  exact ⟨q, hq, rfl, rfl, rfl, rfl⟩

/-- The first step, which fails to submit. -/
theorem submitStep_failed (hpc : s.pc = .submit) (hh : s.hadReads ≠ s.reads)
    (hfail : (s.ring.submit b.submit).2 < 0) (h : step source s (.prog b) = some s') :
    s'.pc = .drain ∧ s'.writes = s.writes ∧ s'.ring = s.ring := by
  simp only [step, progStep, hpc, submitStep, hh, hfail, ne_eq, not_false_eq_true, if_true] at h
  cases h
  refine ⟨rfl, rfl, ?_⟩
  cases hb : b.submit with
  | all =>
    rw [hb] at hfail
    simp only [IoRing.submit_all] at hfail
    omega
  | taken n =>
    rw [hb] at hfail
    simp only [IoRing.submit] at hfail
    omega
  | error e => simp [submitRing, IoRing.submit, hb]

/-! ## Runs -/

theorem takesWrites_of_none (h : drains s a = none) : TakesWrites s a := by
  intro c hc
  rw [h] at hc
  cases hc

/-- When `copy_file` has returned, only the kernel goes on. -/
theorem run_ret {acts : List Act} {n : Int} (hpc : s.pc = .ret n) (hs : Sound source s)
    (hr : run (step source) s acts = some s') :
    s'.pc = .ret n ∧ Along (step source) TakesWrites s acts := by
  induction acts generalizing s with
  | nil =>
    cases hr
    exact ⟨hpc, trivial⟩
  | cons a acts ih =>
    obtain ⟨t, ht, hr'⟩ := run_cons_eq_some.mp hr
    obtain ⟨hret, halong⟩ := ih (step_ret hs hpc ht) (sound_next hs ht) hr'
    rw [along_cons ht]
    exact ⟨hret, takesWrites_of_none (drains_of_ne (by simp [hpc])), halong⟩

/-- The completions that the drain loop gets from here on. -/
def coming (s : State) (acts : List Act) : List (Cqe Req) :=
  s.ring.cq ++ arrivals s.ring.inflight acts

theorem coming_complete (hs : Sound source s) {i : Nat} {res : Int}
    (h : step source s (.complete i res) = some s') (acts : List Act) :
    s'.pc = s.pc ∧ s'.writes = s.writes ∧ coming s (.complete i res :: acts) = coming s' acts := by
  obtain ⟨q, hq, hpc, hw, hfl, hcq⟩ := kernelStep_queues hs h
  refine ⟨hpc, hw, ?_⟩
  simp only [coming, arrivals, hq, hfl, hcq, Option.map_some, Option.toList_some, List.append_assoc]

theorem coming_drained {b : Answers} {c : Cqe Req} {cs : List (Cqe Req)} (hcq : s.ring.cq = c :: cs)
    (hring : s'.ring = { s.ring with cq := cs }) (acts : List Act) :
    coming s (.prog b :: acts) = c :: coming s' acts := by
  simp only [coming, arrivals, hcq, hring, List.cons_append]

/-- A completion that the drain loop takes is that of a write if its record says so. -/
theorem takesWrites_iff {c : Cqe Req} {d : IoData} (hdr : drains s a = some c)
    (hd : s.heap.cell c.req.data = some d) (hread : c.req.read = d.read) :
    TakesWrites s a ↔ c.req.read = false := by
  constructor
  · intro h
    rw [hread]
    exact h c hdr d hd
  · intro h e he x hx
    obtain rfl : c = e := Option.some.inj (hdr.symm.trans he)
    obtain rfl : d = x := Option.some.inj (hd.symm.trans hx)
    exact hread.symm.trans h

theorem toNat_ne_zero {w : UInt64} (hw : w ≠ 0) : w.toNat ≠ 0 :=
  fun h0 => hw (UInt64.toNat_inj.mp h0)

/-- Behind the main loop, in a run that comes to its end. -/
theorem returned_iff {acts : List Act} (hpc : s.pc = .drain) (hs : Sound source s)
    (hr : run (step source) s acts = some s') (hret : ∃ n, s'.pc = .ret n) :
    (s'.pc ≠ .ret 0 ∧ Along (step source) TakesWrites s acts) ↔
      Spared s.writes.toNat (answers acts) (coming s acts) := by
  induction acts generalizing s with
  | nil =>
    cases hr
    obtain ⟨n, hn⟩ := hret
    cases hpc.symm.trans hn
  | cons a acts ih =>
    obtain ⟨t, ht, hr'⟩ := run_cons_eq_some.mp hr
    have hst := sound_next hs ht
    rw [along_cons ht]
    cases a with
    | complete i res =>
      obtain ⟨hpc', hw, hcoming⟩ := coming_complete hs ht acts
      rw [hcoming, ← hw, answers, and_iff_right (takesWrites_of_none rfl)]
      exact ih (hpc'.trans hpc) hst hr'
    | prog b =>
      have hstep := ht
      simp only [step, progStep, hpc] at hstep
      rcases drainStep_cases hs hpc hstep with ⟨hw, -, rfl⟩ | ⟨hw, hdr, rfl, herr⟩ |
        ⟨c, cs, d, hw, herr, hcq, h0, hdr, hd, hread, hpc', hw', hring⟩
      · -- no write is outstanding
        rw [hw]
        exact iff_of_false (fun h => h.1 (run_ret rfl hst hr').1) (not_spared_zero _ _)
      · obtain ⟨hend, halong⟩ := run_ret (n := 1) rfl hst hr'
        refine iff_of_true ⟨by simp [hend], takesWrites_of_none hdr, halong⟩
          (spared_of_fails (toNat_ne_zero hw) ?_)
        rcases herr with herr | ⟨c, hc, hneg⟩
        · exact .inl ⟨b, rfl, herr⟩
        · refine .inr ⟨c, ?_, hneg⟩
          obtain ⟨cs, hcq⟩ := List.head?_eq_some_iff.mp (List.head?_eq_getElem?.trans hc)
          rw [coming, hcq]
          rfl
      · have hpos := Nat.pos_of_ne_zero (toNat_ne_zero hw)
        have hn : s.writes.toNat = t.writes.toNat + 1 := by
          rw [hw', toNat_sub_one hpos]
          omega
        rw [answers, coming_drained hcq hring, hn, spared_cons herr h0,
          takesWrites_iff hdr hd hread, ← ih hpc' hst hr', and_left_comm]

/-- Behind the main loop, in a run that still waits. -/
theorem waiting_iff {acts : List Act} (hpc : s.pc = .drain) (hs : Sound source s)
    (hr : run (step source) s acts = some s') (hend : s'.pc = .drain) :
    Along (step source) TakesWrites s acts ↔ ∀ i < (answers acts).length, IsWrite (coming s acts) i := by
  induction acts generalizing s with
  | nil => exact iff_of_true trivial fun i hi => absurd hi (Nat.not_lt_zero i)
  | cons a acts ih =>
    obtain ⟨t, ht, hr'⟩ := run_cons_eq_some.mp hr
    have hst := sound_next hs ht
    rw [along_cons ht]
    cases a with
    | complete i res =>
      obtain ⟨hpc', -, hcoming⟩ := coming_complete hs ht acts
      rw [hcoming, answers, and_iff_right (takesWrites_of_none rfl)]
      exact ih (hpc'.trans hpc) hst hr'
    | prog b =>
      have hstep := ht
      simp only [step, progStep, hpc] at hstep
      rcases drainStep_cases hs hpc hstep with ⟨-, -, rfl⟩ | ⟨-, -, rfl, -⟩ |
        ⟨c, cs, d, -, -, hcq, -, hdr, hd, hread, hpc', -, hring⟩
      · cases hend.symm.trans (run_ret rfl hst hr').1
      · cases hend.symm.trans (run_ret (n := 1) rfl hst hr').1
      · rw [answers, coming_drained hcq hring, List.length_cons, isWrite_cons,
          takesWrites_iff hdr hd hread, ih hpc' hst hr']

/-- The drain loop has `n` completions to wait for, of which `l` are taken. -/
def Drained (n : Nat) (l : List (Cqe Req)) (s : State) : Prop :=
  (s.pc = .drain ∧ l.length + s.writes.toNat = n) ∨ (s.pc = .ret 0 ∧ l.length = n) ∨
    (s.pc = .ret 1 ∧ l.length < n)

theorem Drained.step {n : Nat} {l : List (Cqe Req)} (hn : Drained n l s) (hs : Sound source s)
    (h : step source s a = some s') : Drained n (l ++ (drains s a).toList) s' := by
  rcases hn with ⟨hpc, hlen⟩ | ⟨hpc, hlen⟩ | ⟨hpc, hlen⟩
  · cases a with
    | complete i res =>
      obtain ⟨-, -, h1, h2, -⟩ := kernelStep_queues hs h
      refine .inl ⟨h1.trans hpc, ?_⟩
      rw [h2, drains, Option.toList_none, List.append_nil]
      exact hlen
    | prog b =>
      simp only [step, progStep, hpc] at h
      rcases drainStep_cases hs hpc h with ⟨hw, hd, rfl⟩ | ⟨hw, hd, rfl, -⟩ |
        ⟨c, cs, d, hw, -, -, -, hd, -, -, hpc', hw', -⟩
      · rw [hd, Option.toList_none, List.append_nil]
        rw [hw] at hlen
        exact .inr (.inl ⟨rfl, hlen⟩)
      · have hpos : 0 < s.writes.toNat := Nat.pos_of_ne_zero fun h0 => hw (UInt64.toNat_inj.mp h0)
        rw [hd, Option.toList_none, List.append_nil]
        exact .inr (.inr ⟨rfl, by omega⟩)
      · have hpos : 0 < s.writes.toNat := Nat.pos_of_ne_zero fun h0 => hw (UInt64.toNat_inj.mp h0)
        refine .inl ⟨hpc', ?_⟩
        rw [hd, hw', toNat_sub_one hpos, Option.toList_some, List.length_append, List.length_singleton]
        omega
  · rw [drains_of_ne (by simp [hpc]), Option.toList_none, List.append_nil]
    exact .inr (.inl ⟨step_ret hs hpc h, hlen⟩)
  · rw [drains_of_ne (by simp [hpc]), Option.toList_none, List.append_nil]
    exact .inr (.inr ⟨step_ret hs hpc h, hlen⟩)

/-- **Failed submit.** For every run of `copy_file` in which the submit behind the fill loop fails, in
    `u`. While it waits, its drain loop has taken no read for a finished write if and only if the
    completions it has got are writes. When it has returned, it has not returned 0 and has taken no
    read for a write if and only if there is an error among the first completions, as many as there
    were writes outstanding, and those before it are writes; and it has returned 0 exactly when it has
    taken that many. -/
theorem copyFile_failed_submit (source : List UInt8) (size : Nat) (acts acts' : List Act)
    (b : Answers) (u s : State) (hu : run (step source) (init size) acts = some u)
    (hpc : u.pc = .submit) (hh : u.hadReads ≠ u.reads) (hfail : (u.ring.submit b.submit).2 < 0)
    (hr : run (step source) u (.prog b :: acts') = some s) :
    (s.pc = .drain ∧ (Along (step source) TakesWrites u (.prog b :: acts') ↔
      ∀ i < (answers acts').length, IsWrite (coming u acts') i)) ∨
    ∃ n, s.pc = .ret n ∧
      ((n ≠ 0 ∧ Along (step source) TakesWrites u (.prog b :: acts')) ↔
        Spared (writesOf u.ring.pending) (answers acts') (coming u acts')) ∧
      (n = 0 ↔ (drainedIn source u (.prog b :: acts')).length = writesOf u.ring.pending) := by
  have hs := sound_run hu
  obtain ⟨v, hv, hr'⟩ := run_cons_eq_some.mp hr
  obtain ⟨hpc', hw, hring⟩ := submitStep_failed hpc hh hfail hv
  have hsv := sound_next hs hv
  have hnone : drains u (.prog b) = none := drains_of_ne (by simp [hpc])
  have hcount := (hs.counted (.inr (.inr (.inl hpc)))).writes
  have hcoming : coming v acts' = coming u acts' := by rw [coming, coming, hring]
  have hd := (record_keeps (I := fun l s => Sound source s ∧ Drained u.writes.toNat l s) (g := [])
    hr' ⟨hsv, .inl ⟨hpc', by simp [hw]⟩⟩
    fun _ _ _ _ hi h => ⟨sound_next hi.1 h, hi.2.step hi.1 h⟩).2
  rw [along_cons hv, and_iff_right (takesWrites_of_none hnone), drainedIn, record_cons hv, hnone,
    Option.toList_none, List.append_nil, ← hcount, ← hcoming, ← hw]
  rw [← hw] at hd
  rcases hd with ⟨hend, -⟩ | ⟨hend, hlen⟩ | ⟨hend, hlen⟩
  · exact .inl ⟨hend, waiting_iff hpc' hsv hr' hend⟩
  · have hiff := returned_iff hpc' hsv hr' ⟨0, hend⟩
    rw [hend] at hiff
    exact .inr ⟨0, hend, by simpa using hiff, fun _ => hlen, fun _ => rfl⟩
  · have hiff := returned_iff hpc' hsv hr' ⟨1, hend⟩
    rw [hend] at hiff
    exact .inr ⟨1, hend, by simpa using hiff, by simp, fun h => absurd h (Nat.ne_of_lt hlen)⟩

end Step

/-- Two chunks and two bytes. -/
def twoChunks : List UInt8 := List.replicate 65538 7

/-- Two chunks have been read, their writes are in flight, and the last read is queued. -/
def twoWritten : List Act :=
  [.prog {}, .prog {}, .prog {}, .prog { malloc := none }, .prog {}, .complete 0 32768,
    .complete 0 32768, .prog {}, .prog {}, .prog {}, .prog {}, .prog {}, .prog {}]

/-- The submit fails; one write is completed, the other fails. -/
def oneFailed : List Act :=
  [.prog { submit := .error 11 }, .complete 0 32768, .prog {}, .complete 0 (-28), .prog {}]

theorem copyFile_failed_submit_written :
    ∃ u s, run (step twoChunks) (init 65538) twoWritten = some u ∧
      run (step twoChunks) u oneFailed = some s ∧ writesOf u.ring.pending = 2 ∧ s.pc ≠ .ret 0 ∧
      Along (step twoChunks) TakesWrites u oneFailed := by
  have hrun : (run (step twoChunks) (init 65538) twoWritten).bind (fun u =>
      (run (step twoChunks) u oneFailed).map fun s => (u.pc, u.hadReads, u.reads, u.ring, s.pc)) =
      some (.submit, 0, 1, ⟨64, [⟨true, 65536, 2⟩], [⟨false, 0, 0⟩, ⟨false, 32768, 1⟩], []⟩,
        .ret 1) := by
    decide +kernel
  obtain ⟨u, hu, he⟩ := Option.bind_eq_some_iff.mp hrun
  obtain ⟨s, hs, he⟩ := Option.map_eq_some_iff.mp he
  simp only [Prod.mk.injEq] at he
  obtain ⟨hpc, hhad, hreads, hring, hret⟩ := he
  have hh : u.hadReads ≠ u.reads := by
    rw [hhad, hreads]
    decide
  have hwrites : writesOf u.ring.pending = 2 := by
    rw [hring]
    rfl
  have h := copyFile_failed_submit twoChunks 65538 twoWritten _ { submit := .error 11 } u s hu hpc hh
    (by simp [IoRing.submit]) hs
  rcases h with ⟨hdrain, -⟩ | ⟨n, hn, hiff, -⟩
  · cases hdrain.symm.trans hret
  · obtain rfl : n = 1 := by cases hn.symm.trans hret; rfl
    -- the first completion is a write, the second an error
    have hspared : Spared (writesOf u.ring.pending) (answers
        [.complete 0 32768, .prog {}, .complete 0 (-28), .prog {}])
        (coming u [.complete 0 32768, .prog {}, .complete 0 (-28), .prog {}]) := by
      rw [hwrites, coming, hring]
      refine ⟨1, by decide, .inr ⟨⟨⟨false, 32768, 1⟩, -28⟩, rfl, by decide⟩, fun i hi => ?_⟩
      obtain rfl : i = 0 := by omega
      exact ⟨⟨⟨false, 0, 0⟩, 32768⟩, rfl, rfl⟩
    exact ⟨u, s, hu, hs, hwrites, by simp [hret], (hiff.mpr hspared).2⟩

/-- Two bytes, the read of which is queued. -/
def oneQueued : List Act := [.prog {}, .prog {}, .prog {}]

/-- The first submit fails, and `copy_file` returns 0 with nothing copied. -/
theorem copyFile_failed_first :
    ∃ u s, run (step [7, 8]) (init 2) oneQueued = some u ∧ u.pc = .submit ∧
      u.hadReads ≠ u.reads ∧ (u.ring.submit (.error 11)).2 < 0 ∧
      run (step [7, 8]) u [.prog { submit := .error 11 }, .prog {}] = some s ∧
      s.pc = .ret 0 ∧ s.dest = [] := by
  have hrun : (run (step [7, 8]) (init 2) oneQueued).map (fun u => (u.pc, u.hadReads, u.reads)) =
      some (.submit, 0, 1) := by decide
  obtain ⟨u, hu, he⟩ := Option.map_eq_some_iff.mp hrun
  simp only [Prod.mk.injEq] at he
  obtain ⟨hpc, hhad, hreads⟩ := he
  have hend : (run (step [7, 8]) (init 2)
      (oneQueued ++ [.prog { submit := .error 11 }, .prog {}])).map (fun s => (s.pc, s.dest)) =
      some (.ret 0, []) := by decide
  obtain ⟨s, hs, hse⟩ := Option.map_eq_some_iff.mp hend
  obtain ⟨hret, hdest⟩ := Prod.mk.inj hse
  obtain ⟨u', hu', hs'⟩ := run_append_eq_some.mp hs
  obtain rfl : u = u' := Option.some.inj (hu.symm.trans hu')
  refine ⟨u, s, hu, hpc, ?_, by simp [IoRing.submit], hs', hret, hdest⟩
  rw [hhad, hreads]
  decide

end KernelMagic.FileUring2
