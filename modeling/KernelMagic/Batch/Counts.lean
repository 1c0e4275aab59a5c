/-
  The writes of a batch, counted twice. `main` fixes the number of completions that `write_cqe_recv`
  waits for when it submits the reads (`writes = reads`); `read_cqe_recv` prepares a write for each
  read that has not failed. `Tally` compares the two along one call of `read_cqe_recv`: they agree at
  its end if and only if none of the results it has taken is negative.

  `Fed` is what follows for the waits. While no read fails and the submits take everything, there are
  at least as many requests with the kernel as the two loops still wait for. `batch_waits_for_nothing`
  is a run in which a read fails: `write_cqe_recv` waits with no request anywhere.
-/
import KernelMagic.Batch.Sound

namespace KernelMagic.Batch

open KernelMagic.Lib

/-- The submits of this step (if there are any) take every queued request. -/
def Act.SubmitsAll : Act → Prop
  | .complete _ _ => True
  | .prog b => b.submit = .all

/-- One call of `read_cqe_recv`: the number of requests prepared before it, and the results it has
    taken. -/
structure Call where
  start : Nat
  results : List Int
  deriving DecidableEq, Repr

def Call.next (g : Call) (s : State) : Act → Call
  | .complete _ _ => g
  | .prog b =>
    if s.pc = .submit then ⟨s.posted.length, []⟩
    else ⟨g.start, g.results ++ (readTakes s (.prog b)).toList.map Cqe.res⟩

/-- The last call in a run. -/
def callIn (prg : Program) (source : List UInt8) (st : Stat) (acts : List Act) : Call :=
  record (step prg source) Call.next ⟨0, []⟩ (init st) acts

/-- The writes that the call has prepared. -/
def Call.writes (g : Call) (s : State) : Nat := (s.posted.drop g.start).countP fun x => !x.read

/-- The program waits for a completion in its next step. -/
def Waits (s : State) : Prop := (s.pc = .readRecv ∨ s.pc = .writeRecv) ∧ s.i < s.writes

/-- What `read_cqe_recv` takes up has not failed. -/
def ReadsSucceed (s : State) (a : Act) : Prop := ∀ c ∈ readTakes s a, 0 ≤ c.res

instance (s : State) (a : Act) : Decidable (ReadsSucceed s a) :=
  inferInstanceAs (Decidable (∀ c ∈ readTakes s a, 0 ≤ c.res))

variable {prg : Program} {source : List UInt8} {st : Stat} {s s' : State} {a : Act} {g : Call}

/-! ## One call of `read_cqe_recv` -/

structure Tally (g : Call) (s : State) : Prop where
  start : g.start ≤ s.posted.length
  writes : g.writes s = g.results.countP fun r => 0 ≤ r
  taken : g.results.length = s.i
  left : s.i ≤ s.writes

def Tallied (g : Call) (s : State) : Prop :=
  (s.pc = .readRecv → Tally g s) ∧ (s.pc = .readSubmit → Tally g s ∧ s.i = s.writes)

/-- The call goes on with the result `r`. -/
theorem Tally.take (ht : Tally g s) (hi : s.i < s.writes) {r : Int}
    (h1 : (s'.posted = s.posted ∧ r < 0) ∨
      ∃ off len, s'.posted = s.posted ++ [⟨false, off, len⟩] ∧ 0 ≤ r)
    (h2 : s'.i = s.i + 1) (h3 : s'.writes = s.writes) :
    Tally ⟨g.start, g.results ++ [r]⟩ s' := by
  have hstart := ht.start
  have hw := ht.writes
  unfold Call.writes at hw
  rcases h1 with ⟨hp, hr⟩ | ⟨off, len, hp, hr⟩
  · refine ⟨?_, ?_, ?_, ?_⟩
    · rw [hp]
      exact hstart
    · rw [Call.writes, hp, hw, List.countP_append, List.countP_singleton]
      simp [hr]
    · rw [List.length_append, List.length_singleton, ht.taken, h2]
    · omega
  · refine ⟨?_, ?_, ?_, ?_⟩
    · rw [hp, List.length_append]
      exact Nat.le_add_right_of_le hstart
    · rw [Call.writes, hp, List.drop_append_of_le_length hstart, List.countP_append, hw,
        List.countP_append, List.countP_singleton, List.countP_singleton]
      simp [hr]
    · rw [List.length_append, List.length_singleton, ht.taken, h2]
    · omega

theorem tallied_step (ht : Tallied g s) (hm : Move prg source s a s') : Tallied (g.next s a) s' := by
  cases hm with
  | completed i q d d' dest res ha hq hd htr =>
    subst ha
    exact ⟨fun h => ⟨(ht.1 h).start, (ht.1 h).writes, (ht.1 h).taken, (ht.1 h).left⟩, fun h =>
      ⟨⟨(ht.2 h).1.start, (ht.2 h).1.writes, (ht.2 h).1.taken, (ht.2 h).1.left⟩, (ht.2 h).2⟩⟩
  | ended b pc ha hpc r hr why hfree => rcases hpc with rfl | rfl <;> simp [Tallied]
  | submitted b ha hpc hret =>
    -- the call begins
    subst ha
    refine ⟨fun _ => ?_, fun h => by simp at h⟩
    rw [Call.next, if_pos hpc]
    refine ⟨Nat.le_refl _, ?_, rfl, Nat.zero_le _⟩
    simp [Call.writes]
  | readFailed b c cs d ha hpc hi htk hcq hd hres =>
    subst ha
    refine ⟨fun _ => ?_, fun h => by simp [hpc] at h⟩
    rw [Call.next, if_neg (by simp [hpc]), htk]
    exact (ht.1 hpc).take hi (.inl ⟨rfl, hres⟩) rfl rfl
  | readDone b c cs d ha hpc hi htk hcq hd hres hroom =>
    subst ha
    refine ⟨fun _ => ?_, fun h => by simp [hpc] at h⟩
    rw [Call.next, if_neg (by simp [hpc]), htk]
    exact (ht.1 hpc).take hi (.inr ⟨_, _, rfl, hres⟩) rfl rfl
  | readEnd b ha hpc hi =>
    subst ha
    refine ⟨fun h => by simp at h, fun _ => ?_⟩
    have htl := ht.1 hpc
    have hleft := htl.left
    rw [Call.next, if_neg (by simp [hpc]), readTakes_of_le hi]
    simp only [Option.toList_none, List.map_nil, List.append_nil]
    exact ⟨⟨htl.start, htl.writes, htl.taken, htl.left⟩, by omega⟩
  | writeDone b c cs d ha hpc hi htk hcq hd hres => simp [Tallied, hpc]
  | _ => simp [Tallied]

theorem tallied_run {acts : List Act} (hr : run (step prg source) (init st) acts = some s) :
    Tallied (callIn prg source st acts) s :=
  (record_keeps (I := fun g s => Sound s ∧ Tallied g s) hr
    ⟨sound_init st, by simp [init], by simp [init]⟩
    fun _ _ _ _ hi h => ⟨sound_next hi.1 h, tallied_step hi.2 (step_move hi.1.alive h)⟩).2

/-- The numbers at the end of a call. -/
theorem Tally.writes_iff (ht : Tally g s) (hi : s.i = s.writes) :
    g.results.length = s.writes ∧ (g.writes s = s.writes ↔ ∀ r ∈ g.results, 0 ≤ r) := by
  have hlen : g.results.length = s.writes := ht.taken.trans hi
  refine ⟨hlen, ?_⟩
  rw [ht.writes, ← hlen, List.countP_eq_length]
  simp

/-! ## Waiting -/

/-- There are enough requests with the kernel for what the program waits for, or queued for the
    submit before the wait. -/
def Fed (s : State) : Prop :=
  match s.pc with
  | .top => s.ring.sq.length = s.reads
  | .last => s.ring.sq.length = s.reads
  | .submit => s.ring.sq.length = s.reads
  | .readRecv => s.reads = 0 ∧ s.ring.sq.length = s.i ∧
      s.writes ≤ s.ring.inflight.length + s.ring.cq.length + s.i
  | .readSubmit => s.reads = 0 ∧ s.writes ≤ s.ring.sq.length
  | .writeRecv => s.reads = 0 ∧ s.ring.sq = [] ∧
      s.writes ≤ s.ring.inflight.length + s.ring.cq.length + s.i
  | .exit _ => True
  | .fault => True

theorem Fed.waits (hf : Fed s) (hw : Waits s) : s.ring.inflight ≠ [] ∨ s.ring.cq ≠ [] := by
  obtain ⟨hpc, hi⟩ := hw
  by_contra hne
  push Not at hne
  have hlen : s.writes ≤ s.ring.inflight.length + s.ring.cq.length + s.i := by
    rcases hpc with hpc | hpc
    · simp only [Fed, hpc] at hf
      exact hf.2.2
    · simp only [Fed, hpc] at hf
      exact hf.2.2
  rw [hne.1, hne.2, List.length_nil, List.length_nil] at hlen
  omega

/-- A completion by the kernel keeps the number of requests it has had. -/
theorem Fed.complete (hf : Fed s) {i : Nat} {q : Req} (hq : s.ring.inflight[i]? = some q)
    (res : Int) (h : Heap FileData) (dest : List UInt8) :
    Fed { s with
      ring := { s.ring with inflight := s.ring.inflight.eraseIdx i, cq := s.ring.cq ++ [⟨q, res⟩] }
      heap := h
      dest := dest } := by
  have hlt := (List.getElem?_eq_some_iff.mp hq).1
  have hsum : (s.ring.inflight.eraseIdx i).length + (s.ring.cq ++ [(⟨q, res⟩ : Cqe Req)]).length =
      s.ring.inflight.length + s.ring.cq.length := by
    rw [List.length_eraseIdx_of_lt hlt, List.length_append, List.length_singleton]
    omega
  unfold Fed at hf ⊢
  simp only [hsum]
  exact hf

theorem fed_step (hf : Fed s) (hr : ReadsSucceed s a) (ha : a.SubmitsAll)
    (hm : Move prg source s a s') : Fed s' := by
  cases hm with
  | completed i q d d' dest res ha hq hd ht => exact hf.complete hq res _ _
  | ended b pc hb hpc r hr why hfree => rcases hpc with rfl | rfl <;> trivial
  | queued b junk hb hpc hi hopen hmore hroom =>
    simp only [Fed, hpc] at hf
    simp only [Fed, List.length_append, List.length_singleton, hf]
  | closed b junk hb hpc hi hlast hroom =>
    simp only [Fed, hpc] at hf
    simp only [Fed, List.length_append, List.length_singleton, hf]
  | skipped b hb hpc hi =>
    simp only [Fed, hpc] at hf
    exact hf
  | submitted b hb hpc hret =>
    subst hb
    have hall : b.submit = .all := ha
    simp only [Fed, hpc] at hf
    rw [hall]
    refine ⟨rfl, rfl, ?_⟩
    simp only [IoRing.submit_all, List.length_append]
    omega
  | readFailed b c cs d hb hpc hi ht hcq hd hres =>
    have := hr c ht
    omega
  | readDone b c cs d hb hpc hi ht hcq hd hres hroom =>
    simp only [Fed, hpc] at hf ⊢
    obtain ⟨h0, hsq, hle⟩ := hf
    rw [hcq, List.length_cons] at hle
    refine ⟨h0, ?_, ?_⟩
    · rw [List.length_append, List.length_singleton, hsq]
    · simp only [IoRing.advance, hcq, List.drop_succ_cons, List.drop_zero]
      omega
  | readEnd b hb hpc hi =>
    simp only [Fed, hpc] at hf
    exact ⟨hf.1, by simp only; omega⟩
  | submittedWrites b hb hpc hret =>
    subst hb
    have hall : b.submit = .all := ha
    simp only [Fed, hpc] at hf
    rw [hall]
    refine ⟨hf.1, rfl, ?_⟩
    simp only [IoRing.submit_all, List.length_append]
    omega
  | writeDone b c cs d hb hpc hi ht hcq hd hres =>
    simp only [Fed, hpc] at hf ⊢
    obtain ⟨h0, hsq, hle⟩ := hf
    rw [hcq, List.length_cons] at hle
    refine ⟨h0, hsq, ?_⟩
    simp only [IoRing.advance, hcq, List.drop_succ_cons, List.drop_zero]
    omega
  | writeStop b hb hpc hi why ht =>
    simp only [Fed, hpc] at hf
    simp only [Fed, hf.1, hf.2.1, List.length_nil]
  | writeEnd b hb hpc hi =>
    simp only [Fed, hpc] at hf
    simp only [Fed, hf.1, hf.2.1, List.length_nil]
  | stop b hb hpc ho => trivial
  | again b hb hpc ho =>
    simp only [Fed, hpc] at hf
    exact hf

theorem fed_run {acts : List Act} (hr : run (step prg source) (init st) acts = some s)
    (hok : Along (step prg source) ReadsSucceed (init st) acts) (hsub : ∀ a ∈ acts, a.SubmitsAll) :
    Fed s := by
  have hP : Along (step prg source) (fun s a => ReadsSucceed s a ∧ a.SubmitsAll) (init st) acts :=
    hok.and (along_of_forall (fun _ _ h => h) _ _ hsub)
  have hstep : ∀ t a t', (Sound t ∧ Fed t) → (ReadsSucceed t a ∧ a.SubmitsAll) →
      step prg source t a = some t' → Sound t' ∧ Fed t' := fun t a t' hi hp h =>
    ⟨sound_next hi.1 h, fed_step hi.2 hp.1 hp.2 (step_move hi.1.alive h)⟩
  exact (run_inv hstep ⟨sound_init st, rfl⟩ hP hr).2

/-- **Counts.** In every run of either program, whatever fails: at the end of `read_cqe_recv` it has
    taken as many results as `main` has told it to, and it has prepared as many writes as
    `write_cqe_recv` will wait for if and only if none of these results is negative. If none ever is,
    and the submits take all queued requests, the programs never wait with no request under way. -/
theorem batch_counts (prg : Program) (source : List UInt8) (st : Stat) (acts : List Act) (s : State)
    (hr : run (step prg source) (init st) acts = some s) :
    (s.pc = .readSubmit → (callIn prg source st acts).results.length = s.writes ∧
      ((callIn prg source st acts).writes s = s.writes ↔
        ∀ r ∈ (callIn prg source st acts).results, 0 ≤ r)) ∧
    (Along (step prg source) ReadsSucceed (init st) acts → (∀ a ∈ acts, a.SubmitsAll) → Waits s →
      s.ring.inflight ≠ [] ∨ s.ring.cq ≠ []) := by
  refine ⟨fun hpc => ?_, fun hok hsub => (fed_run hr hok hsub).waits⟩
  obtain ⟨ht, hi⟩ := (tallied_run hr).2 hpc
  exact ht.writes_iff hi

/-- Two chunks of a file that has been cut to three bytes since `fstat`: both reads come back, the second
    first, and their writes are queued. -/
def readBack : List Act :=
  [.prog {}, .prog {}, .prog {}, .prog {}, .complete 1 0, .complete 0 3, .prog {}, .prog {},
    .prog {}]

/-- The writes are submitted, and the first of them has been waited for. -/
def firstWrite : List Act := readBack ++ [.prog {}, .complete 1 1, .prog {}]

theorem batch_counts_read :
    (∃ s, run (step multiBuffer [7, 8, 9]) (init (.regular 32769)) readBack = some s ∧
      s.writes = 2 ∧ (callIn multiBuffer [7, 8, 9] (.regular 32769) readBack).writes s = s.writes) ∧
    ∃ s, run (step multiBuffer [7, 8, 9]) (init (.regular 32769)) firstWrite = some s ∧
      Waits s ∧ (s.ring.inflight ≠ [] ∨ s.ring.cq ≠ []) := by
  have hrun : (run (step multiBuffer [7, 8, 9]) (init (.regular 32769)) readBack).map
      (fun s => (s.pc, s.writes)) = some (.readSubmit, 2) := by
    decide +kernel
  obtain ⟨s, hs, he⟩ := Option.map_eq_some_iff.mp hrun
  obtain ⟨hpc, hwrites⟩ := Prod.mk.inj he
  have hrun' : (run (step multiBuffer [7, 8, 9]) (init (.regular 32769)) firstWrite).map
      (fun s => (s.pc, s.i, s.writes)) = some (.writeRecv, 1, 2) := by
    decide +kernel
  obtain ⟨t, ht, he'⟩ := Option.map_eq_some_iff.mp hrun'
  simp only [Prod.mk.injEq] at he'
  obtain ⟨hpc', hi, htwo⟩ := he'
  have hcounts := (batch_counts multiBuffer _ (.regular 32769) readBack s hs).1 hpc
  have hwaits : Waits t := ⟨.inr hpc', by omega⟩
  exact ⟨⟨s, hs, hwrites, hcounts.2.mpr (by decide +kernel)⟩, t, ht, hwaits,
    (batch_counts multiBuffer _ (.regular 32769) firstWrite t ht).2 (by decide +kernel)
      (by simp [firstWrite, readBack, Act.SubmitsAll]) hwaits⟩

/-- Two bytes, the read of which fails. -/
def failedRead : List Act := [.prog {}, .prog {}, .complete 0 (-5), .prog {}, .prog {}, .prog {}]

/-- No write has been prepared, and `write_cqe_recv` waits for one. -/
theorem batch_waits_for_nothing :
    (∃ s, run (step singleBuffer [7, 8]) (init (.regular 2)) failedRead = some s ∧
      (callIn singleBuffer [7, 8] (.regular 2) failedRead).writes s = 0 ∧ s.writes = 1 ∧ Waits s ∧
      s.ring.pending = 0) ∧
    ∃ s, run (step multiBuffer [7, 8]) (init (.regular 2)) failedRead = some s ∧
      (callIn multiBuffer [7, 8] (.regular 2) failedRead).writes s = 0 ∧ s.writes = 1 ∧ Waits s ∧
      s.ring.pending = 0 := by
  have hend : ∀ prg : Program,
      (run (step prg [7, 8]) (init (.regular 2)) failedRead).map (fun s =>
        (s.pc, s.i, s.writes, s.ring, (callIn prg [7, 8] (.regular 2) failedRead).writes s)) =
        some (.writeRecv, 0, 1, { entries := depth }, 0) → ∃ s,
      run (step prg [7, 8]) (init (.regular 2)) failedRead = some s ∧
      (callIn prg [7, 8] (.regular 2) failedRead).writes s = 0 ∧ s.writes = 1 ∧ Waits s ∧
      s.ring.pending = 0 := by
    intro prg hrun
    obtain ⟨s, hs, he⟩ := Option.map_eq_some_iff.mp hrun
    simp only [Prod.mk.injEq] at he
    obtain ⟨hpc, hi, hw, hring, hcall⟩ := he
    refine ⟨s, hs, hcall, hw, ⟨.inr hpc, by omega⟩, ?_⟩
    rw [hring]
    rfl
  exact ⟨hend singleBuffer (by decide), hend multiBuffer (by decide)⟩

end KernelMagic.Batch
