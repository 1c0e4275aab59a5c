/-
  The work that is left for `copy_file`: every byte is to be read and to be written. A completion that
  the main loop takes up lowers it by the bytes that have been moved (`work_taken`), so a completion
  with a positive result is progress, one with a negative result other than `-EAGAIN` ends the copy,
  and one with the result 0 is neither: the request is queued again as it was. A read at or behind the
  end of the file is answered so, each time.

  `copyFile_progress` puts that together over runs. `copyFile_spins` is a file that has become one byte
  shorter than its size was: there is no bound on the completions that the main loop takes up.
-/
import KernelMagic.FileUring2.Submits

namespace KernelMagic.FileUring2

open KernelMagic.Lib

/-- What is still to be moved of the chunk of the record at `p`. -/
def jobWork (h : Heap IoData) (p : Nat) : Nat :=
  match h.cell p with
  | none => 0
  | some d => if d.read then d.iov.iovLen + d.firstLen else d.iov.iovLen

/-- The same for all pending requests. -/
def todo (h : Heap IoData) (P : Multiset (Cqe Req)) : Nat :=
  (P.map fun c => jobWork h c.req.data).sum

/-- The bytes still to be read plus the bytes still to be written. -/
def work (s : State) : Nat := 2 * s.insize + todo s.heap s.ring.pending

/-- The main loop gets on with what it takes up: `copy_file` returns, or the work becomes less. -/
def Progresses (source : List UInt8) (s : State) (a : Act) : Prop :=
  ∀ c ∈ taken s a, c.res ≠ -eagain → ∀ s', step source s a = some s' →
    (∃ n, s'.pc = .ret n) ∨ work s' < work s

/-- The main loop takes up no completion that has moved nothing. -/
def TakesBytes (s : State) (a : Act) : Prop := ∀ c ∈ taken s a, c.res ≠ 0

instance (s : State) (a : Act) : Decidable (TakesBytes s a) :=
  inferInstanceAs (Decidable (∀ c ∈ taken s a, c.res ≠ 0))

/-- The completions other than `-EAGAIN` that the main loop has taken up. -/
def answered (source : List UInt8) (size : Nat) (acts : List Act) : List (Cqe Req) :=
  record (step source) (fun l s a => l ++ (taken s a).toList.filter fun c => c.res ≠ -eagain) []
    (init size) acts

/-! ## The work of the pending requests -/

section Todo

variable {source dest : List UInt8} {h h' : Heap IoData} {P : Multiset (Cqe Req)} {c c' : Cqe Req}
  {d d' : IoData}

theorem jobWork_of_cell {p : Nat} (hd : h.cell p = some d) :
    jobWork h p = if d.read then d.iov.iovLen + d.firstLen else d.iov.iovLen := by
  unfold jobWork
  rw [hd]

theorem todo_cons (h : Heap IoData) (c : Cqe Req) (P : Multiset (Cqe Req)) :
    todo h (c ::ₘ P) = jobWork h c.req.data + todo h P := by
  unfold todo
  rw [Multiset.map_cons, Multiset.sum_cons]

theorem todo_congr (hc : ∀ c ∈ P, h'.cell c.req.data = h.cell c.req.data) :
    todo h' P = todo h P := by
  unfold todo
  refine congrArg Multiset.sum (Multiset.map_congr rfl fun c hm => ?_)
  unfold jobWork
  rw [hc c hm]

/-- One job changes. -/
theorem Flight.todo_put (hf : Flight source h (c ::ₘ P) dest) (c' : Cqe Req) (d' : IoData)
    (hd : h.cell c.req.data = some d) (hdata : c'.req.data = c.req.data) :
    todo (h.put c.req.data d') (c' ::ₘ P) =
      (if d'.read then d'.iov.iovLen + d'.firstLen else d'.iov.iovLen) + todo h P := by
  rw [todo_cons, hdata, jobWork_of_cell (Heap.cell_put_self d' hd),
    todo_congr fun _ hc => Heap.cell_put_ne _ _ (hf.not_mem hc)]

/-- One job is dropped. -/
theorem Flight.todo_free (hf : Flight source h (c ::ₘ P) dest) :
    todo (h.free c.req.data) P = todo h P :=
  todo_congr fun _ hc => Heap.cell_free_ne _ (hf.not_mem hc)

theorem Flight.todo_alloc (hf : Flight source h P dest) (hd : c.req.data = h.next) :
    todo (h.alloc d) (c ::ₘ P) =
      (if d.read then d.iov.iovLen + d.firstLen else d.iov.iovLen) + todo h P := by
  rw [todo_cons, hd, jobWork_of_cell (Heap.cell_alloc_self h d), todo_congr fun e he => ?_]
  obtain ⟨x, hx, -⟩ := hf.job he
  rw [Heap.cell_alloc_of_some d hx, hx]

end Todo

/-! ## One step -/

section Step

variable {source : List UInt8} {size : Nat} {s s' : State} {a : Act}

theorem Transfer.record_eq {dest dest' : List UInt8} {q : Req} {d d' : IoData} {res : Int}
    (ht : Transfer source dest q d res d' dest') :
    d'.read = d.read ∧ d'.iov = d.iov ∧ d'.firstLen = d.firstLen := by
  cases ht <;> exact ⟨rfl, rfl, rfl⟩

/-- The head of the queue and its job, when the main loop takes it up. -/
theorem Sound.head (hs : Sound source s) {c : Cqe Req} {cs : List (Cqe Req)} {d : IoData}
    (hcq : s.ring.cq = c :: cs) (hd : s.heap.cell c.req.data = some d) :
    Flight source s.heap (c ::ₘ (s.ring.advance 1).pending) s.dest ∧
      JobOk source s.dest c d ∧
      work s = 2 * s.insize +
        ((if d.read then d.iov.iovLen + d.firstLen else d.iov.iovLen) +
          todo s.heap (s.ring.advance 1).pending) := by
  have hP := IoRing.pending_advance hcq
  have hf := hs.flight
  rw [hP] at hf
  refine ⟨hf, hf.owned.head hd, ?_⟩
  rw [work, hP, todo_cons, jobWork_of_cell hd]

/-- A completion that the main loop takes up lowers the work by the bytes moved; a negative one ends
    the copy, unless it is `-EAGAIN`. -/
theorem work_taken (hs : Sound source s) (hm : Move source s a s') {c : Cqe Req}
    (hc : taken s a = some c) :
    (c.res < 0 ∧ c.res ≠ -eagain ∧ s'.pc = .ret 1 ∧ work s' = work s) ∨
      ((c.res = -eagain ∨ 0 ≤ c.res) ∧ s'.pc = .comp ∧ work s' + c.res.toNat = work s) := by
  cases hm with
  | completed i q d d' dest res ha hq hd ht =>
    subst ha
    cases hc
  | moved pc had g hctl =>
    obtain ⟨h1, h2, rfl⟩ := hctl.of_taken hc
    exact .inl ⟨h1, h2, rfl, rfl⟩
  | queued junk hpc hi hfull hroom =>
    cases (taken_pc hc).symm.trans hpc
  | submitted b ha hpc hh hret =>
    cases (taken_pc hc).symm.trans hpc
  | submitFailed b ha hpc hh hret =>
    cases (taken_pc hc).symm.trans hpc
  | again b c₁ cs d ha hpc ht hcq hd hres =>
    obtain rfl : c₁ = c := Option.some.inj (ht.symm.trans hc)
    obtain ⟨hf, hj, hw⟩ := hs.head hcq hd
    have hput := hf.todo_put ⟨⟨d.read, d.offset, c₁.req.data⟩, 0⟩ d hd rfl
    rw [Heap.put_eq_self hd] at hput
    refine .inr ⟨.inl hres, hpc, ?_⟩
    have h0 : c₁.res.toNat = 0 := by
      rw [hres]
      rfl
    rw [hw, h0, work, IoRing.pending_resend, hput]
    rfl
  | short b c₁ cs d ha hpc ht hcq hd hres hne =>
    obtain rfl : c₁ = c := Option.some.inj (ht.symm.trans hc)
    obtain ⟨hf, hj, hw⟩ := hs.head hcq hd
    have hle := hj.res
    have hput := hf.todo_put ⟨⟨d.read, d.offset + c₁.res.toNat, c₁.req.data⟩, 0⟩
      (d.resume c₁.res.toNat) hd rfl
    refine .inr ⟨.inr hres, hpc, ?_⟩
    have hlen : (d.resume c₁.res.toNat).iov.iovLen = d.iov.iovLen - c₁.res.toNat := rfl
    have hfirst : (d.resume c₁.res.toNat).firstLen = d.firstLen := rfl
    rw [work, IoRing.pending_resend, hput, hlen, hfirst]
    by_cases hr : d.read = true
    · rw [if_pos hr] at hw
      rw [if_pos (show (d.resume c₁.res.toNat).read = true from hr)]
      simp only
      omega
    · rw [if_neg hr] at hw
      rw [if_neg (show ¬ (d.resume c₁.res.toNat).read = true from hr)]
      simp only
      omega
  | readDone b c₁ cs d ha hpc ht hcq hd hres he hr =>
    obtain rfl : c₁ = c := Option.some.inj (ht.symm.trans hc)
    obtain ⟨hf, hj, hw⟩ := hs.head hcq hd
    have hput := hf.todo_put ⟨⟨false, d.firstOffset, c₁.req.data⟩, 0⟩ d.toWrite hd rfl
    refine .inr ⟨.inr hres, hpc, ?_⟩
    rw [hw, work, IoRing.pending_resend, hput, if_pos hr]
    simp only [IoData.toWrite, Bool.false_eq_true, if_false]
    omega
  | writeDone c₁ cs d hpc ht hcq hd hres he hr =>
    obtain rfl : c₁ = c := Option.some.inj (ht.symm.trans hc)
    obtain ⟨hf, hj, hw⟩ := hs.head hcq hd
    refine .inr ⟨.inr hres, hpc, ?_⟩
    rw [hw, work, hf.todo_free, if_neg (by simp [hr])]
    simp only
    omega
  | drainDone b c₁ cs d ha hpc hw herr hcq hd hres =>
    cases (taken_pc hc).symm.trans hpc

/-- No step makes more work. -/
theorem work_le (hs : Sound source s) (hm : Move source s a s') : work s' ≤ work s := by
  cases hc : taken s a with
  | some c =>
    rcases work_taken hs hm hc with ⟨-, -, -, h⟩ | ⟨-, -, h⟩
    · exact Nat.le_of_eq h
    · omega
  | none =>
    cases hm with
    | completed i q d d' dest res ha hq hd ht =>
      obtain ⟨P, hP, hP'⟩ := IoRing.pending_complete hq res
      have hf := hs.flight
      rw [hP] at hf
      obtain ⟨h1, h2, h3⟩ := ht.record_eq
      have hput := hf.todo_put (c := ⟨q, 0⟩) ⟨q, res⟩ d' hd rfl
      rw [work, work, hP, hP', hput, todo_cons, jobWork_of_cell hd, h1, h2, h3]
    | moved pc had g hctl => exact Nat.le_refl _
    | queued junk hpc hi hfull hroom =>
      have hts := thisSize_eq s.insize
      rw [work, work, IoRing.pending_prep, hs.flight.todo_alloc rfl]
      simp only [if_true]
      omega
    | submitted b ha hpc hh hret =>
      rw [work, work, IoRing.pending_submit]
    | submitFailed b ha hpc hh hret =>
      rw [work, work, IoRing.pending_submit]
    | again b c cs d ha hpc ht hcq hd hres => cases hc.symm.trans ht
    | short b c cs d ha hpc ht hcq hd hres hne => cases hc.symm.trans ht
    | readDone b c cs d ha hpc ht hcq hd hres he hr => cases hc.symm.trans ht
    | writeDone c cs d hpc ht hcq hd hres he hr => cases hc.symm.trans ht
    | drainDone b c cs d ha hpc hw herr hcq hd hres =>
      obtain ⟨hf, -, hw⟩ := hs.head hcq hd
      rw [hw, work, hf.todo_free]
      simp only
      omega

/-- The main loop gets on exactly when it takes up no completion with the result 0. -/
theorem progresses_iff (hs : Sound source s) (h : step source s a = some s') :
    Progresses source s a ↔ TakesBytes s a := by
  have hm := step_move hs.alive h
  have hagain : (-eagain : Int) ≠ 0 := by decide
  constructor
  · intro hp c hc h0
    rcases work_taken hs hm hc with ⟨hneg, -⟩ | ⟨-, hpc, hw⟩
    · omega
    · rcases hp c hc (by rw [h0]; exact hagain.symm) s' h with ⟨n, hn⟩ | hlt
      · cases hpc.symm.trans hn
      · omega
  · intro hb c hc hne t ht
    obtain rfl : s' = t := Option.some.inj (h.symm.trans ht)
    have h0 := hb c hc
    rcases work_taken hs hm hc with ⟨-, -, hret, -⟩ | ⟨hor, -, hw⟩
    · exact .inl ⟨1, hret⟩
    · exact .inr (by omega)

/-- A completion of the main loop is paid for by the work, except for one that ends the copy. -/
theorem answered_step (hs : Sound source s) (hb : TakesBytes s a) {l : List (Cqe Req)} {m : Nat}
    (h : step source s a = some s') (hl : l.length + work s ≤ m) :
    (l ++ (taken s a).toList.filter fun c => c.res ≠ -eagain).length + work s' ≤ m ∨
      s'.pc = .ret 1 ∧
        (l ++ (taken s a).toList.filter fun c => c.res ≠ -eagain).length + work s' ≤ m + 1 := by
  have hm := step_move hs.alive h
  have hle := work_le hs hm
  rw [List.length_append]
  cases hc : taken s a with
  | none =>
    left
    simp only [Option.toList_none, List.filter_nil, List.length_nil]
    omega
  | some c =>
    have h1 : ((some c).toList.filter fun c => c.res ≠ -eagain).length ≤ 1 :=
      (List.length_filter_le _ _).trans (Nat.le_refl 1)
    rcases work_taken hs hm hc with ⟨-, -, hret, hw⟩ | ⟨hor, -, hw⟩
    · exact .inr ⟨hret, by omega⟩
    · left
      have h0 := hb c hc
      rcases hor with hres | hres
      · have hnil : ((some c).toList.filter fun c => c.res ≠ -eagain) = [] := by
          rw [Option.toList_some, List.filter_cons_of_neg (by simp [hres]), List.filter_nil]
        rw [hnil, List.length_nil]
        omega
      · omega

/-- A program that has returned has returned for good. -/
theorem step_ret {n : Int} (hs : Sound source s) (hpc : s.pc = .ret n)
    (h : step source s a = some s') : s'.pc = .ret n := by
  cases a with
  | complete i res =>
    obtain ⟨q, d, d', dest, -, -, -, rfl⟩ := kernelStep_cases hs.alive.live h
    exact hpc
  | prog b =>
    simp only [step, progStep, hpc] at h
    cases h

/-- The completions taken up so far and the work that is left. -/
theorem answered_run {acts : List Act} (hr : run (step source) (init size) acts = some s)
    (hb : Along (step source) TakesBytes (init size) acts) :
    (answered source size acts).length ≤ 2 * size + 1 := by
  have hinv : Sound source s ∧ ((answered source size acts).length + work s ≤ 2 * size ∨
      s.pc = .ret 1 ∧ (answered source size acts).length + work s ≤ 2 * size + 1) := by
    refine record_inv (I := fun (l : List (Cqe Req)) s => Sound source s ∧
      (l.length + work s ≤ 2 * size ∨ s.pc = .ret 1 ∧ l.length + work s ≤ 2 * size + 1)) hr hb
      ⟨sound_init source size, .inl ?_⟩ fun l s a s' hi hba h => ⟨sound_next hi.1 h, ?_⟩
    · simp [work, todo, init, IoRing.pending]
    · rcases hi.2 with hle | ⟨hpc, hle⟩
      · exact answered_step hi.1 hba h hle
      · have hw := work_le hi.1 (step_move hi.1.alive h)
        have ht : taken s a = none := taken_of_ne (by simp [hpc])
        rw [ht, Option.toList_none, List.filter_nil, List.append_nil]
        exact .inr ⟨step_ret hi.1 hpc h, by omega⟩
  rcases hinv.2 with hle | ⟨-, hle⟩ <;> omega

end Step

/-! ## Runs -/

/-- **Progress.** In every run of `copy_file`, for every source and size and whatever the submits do:
    the main loop gets on with every completion it takes up, other than `-EAGAIN`, if and only if none
    of them has the result 0; and then it takes up no more than two for each byte, and one that makes
    it return. -/
theorem copyFile_progress (source : List UInt8) (size : Nat) (acts : List Act) (s : State)
    (hr : run (step source) (init size) acts = some s) :
    (Along (step source) (Progresses source) (init size) acts ↔
      Along (step source) TakesBytes (init size) acts) ∧
    (Along (step source) TakesBytes (init size) acts →
      (answered source size acts).length ≤ 2 * size + 1) :=
  ⟨along_congr (fun _ _ _ hs h => ⟨sound_next hs h, progresses_iff hs h⟩) (sound_init source size) hr,
    answered_run hr⟩

theorem copyFile_progress_retried :
    ∃ s, run (step [7, 8]) (init 2) retried = some s ∧
      Along (step [7, 8]) (Progresses [7, 8]) (init 2) retried ∧
      (answered [7, 8] 2 retried).length ≤ 5 := by
  have hrun : (run (step [7, 8]) (init 2) retried).isSome = true := by decide
  obtain ⟨s, hs⟩ := Option.isSome_iff_exists.mp hrun
  have hb : Along (step [7, 8]) TakesBytes (init 2) retried := by decide
  obtain ⟨hiff, hle⟩ := copyFile_progress [7, 8] 2 retried s hs
  exact ⟨s, hs, hiff.mpr hb, hle hb⟩

/-! ## A file that has become shorter -/

/-- One byte has been read where two were expected, and the rest is in flight. -/
structure AtEnd (s : State) : Prop where
  pc : s.pc = .comp
  left : s.writeLeft ≠ 0
  got : s.gotComp = true
  ring : s.ring = { entries := depth, inflight := [⟨true, 1, 0⟩] }
  job : ∃ d, s.heap.cell 0 = some d ∧ d.read = true ∧ d.offset = 1 ∧ d.iov.iovLen = 1

/-- The kernel answers the read with 0, and the program queues it again. -/
def nothingRead : List Act := [.complete 0 0, .prog {}]

theorem AtEnd.again {s : State} (hs : AtEnd s) (l : List (Cqe Req)) :
    ∃ s', run (step [7]) s nothingRead = some s' ∧ AtEnd s' ∧
      (record (step [7]) (fun l s a => l ++ (taken s a).toList.filter fun c => c.res ≠ -eagain) l s
        nothingRead).length = l.length + 1 := by
  obtain ⟨d, hd, hread, hoff, hlen⟩ := hs.job
  have h1 : step [7] s (.complete 0 0) = some { s with
      heap := s.heap.put 0 (d.store [])
      ring := { entries := depth, cq := [⟨⟨true, 1, 0⟩, 0⟩] } } := by
    simp [step, kernelStep, transfer, hs.ring, hd, hlen, pread, IoRing.complete]
  have hd' : (s.heap.put 0 (d.store [])).cell 0 = some (d.store []) := Heap.cell_put_self _ hd
  have hne : ¬ (0 : Nat) = (d.store []).iov.iovLen := by
    rw [show (d.store []).iov.iovLen = d.iov.iovLen from rfl, hlen]
    decide
  have h2 : step [7] { s with
      heap := s.heap.put 0 (d.store [])
      ring := { entries := depth, cq := [⟨⟨true, 1, 0⟩, 0⟩] } } (.prog {}) = some
      (requeue { s with
        gotComp := true
        heap := (s.heap.put 0 (d.store [])).put 0 ((d.store []).resume 0)
        ring := { entries := depth, cq := [⟨⟨true, 1, 0⟩, 0⟩] } } 0 {}) := by
    simp [step, progStep, compStep, fetch, handle, hs.pc, hs.left, hs.got, hd', hne]
  have hroom : 0 < depth := by decide
  rw [requeue_resend (Heap.cell_put_self _ hd') (by exact hroom)] at h2
  refine ⟨_, run_cons_eq_some.mpr ⟨_, h1, run_cons_eq_some.mpr ⟨_, h2, rfl⟩⟩, ?_, ?_⟩
  · refine ⟨hs.pc, hs.left, rfl, ?_, _, Heap.cell_put_self _ hd', hread, ?_, ?_⟩
    · simp [IoRing.resend, IoRing.submit, IoRing.advance, IoData.resume, IoData.store, hread, hoff]
    · simp [IoData.resume, IoData.store, hoff]
    · simp [IoData.resume, IoData.store, hlen]
  · rw [nothingRead, record_cons h1, record_cons h2]
    simp [record, taken, hs.pc, hs.left, eagain]

theorem AtEnd.forever {s : State} (hs : AtEnd s) (l : List (Cqe Req)) (n : Nat) :
    ∃ acts s', run (step [7]) s acts = some s' ∧
      (record (step [7]) (fun l s a => l ++ (taken s a).toList.filter fun c => c.res ≠ -eagain) l s
        acts).length = l.length + n := by
  induction n generalizing s l with
  | zero => exact ⟨[], s, rfl, rfl⟩
  | succ n ih =>
    obtain ⟨s', hr, hs', hl⟩ := hs.again l
    obtain ⟨acts, t, ht, hlen⟩ := ih hs' (record (step [7])
      (fun l s a => l ++ (taken s a).toList.filter fun c => c.res ≠ -eagain) l s nothingRead)
    refine ⟨nothingRead ++ acts, t, run_append_eq_some.mpr ⟨s', hr, ht⟩, ?_⟩
    rw [record_append hr, hlen, hl]
    omega

/-- The first byte is read. -/
def firstByte : List Act :=
  [.prog {}, .prog {}, .prog {}, .prog {}, .complete 0 1, .prog {}]

theorem copyFile_spins :
    ¬ ∃ N, ∀ acts s, run (step [7]) (init 2) acts = some s →
      (answered [7] 2 acts).length ≤ N := by
  rintro ⟨N, hN⟩
  have hrun : (run (step [7]) (init 2) firstByte).map (fun s =>
      (s.pc, s.writeLeft, s.gotComp, s.ring)) =
      some (.comp, 2, true, { entries := depth, inflight := [⟨true, 1, 0⟩] }) := by decide
  have hheap : (run (step [7]) (init 2) firstByte).bind (fun s =>
      (s.heap.cell 0).map fun d => (d.read, d.offset, d.iov.iovLen)) = some (true, 1, 1) := by
    decide
  obtain ⟨s, hs, he⟩ := Option.map_eq_some_iff.mp hrun
  simp only [Prod.mk.injEq] at he
  obtain ⟨hpc, hleft, hgot, hring⟩ := he
  rw [hs, Option.bind_some] at hheap
  obtain ⟨d, hd, hde⟩ := Option.map_eq_some_iff.mp hheap
  simp only [Prod.mk.injEq] at hde
  have hend : AtEnd s := ⟨hpc, by rw [hleft]; decide, hgot, hring, d, hd, hde⟩
  obtain ⟨acts, t, ht, hlen⟩ := hend.forever (answered [7] 2 firstByte) (N + 1)
  have hle := hN (firstByte ++ acts) t (run_append_eq_some.mpr ⟨s, hs, ht⟩)
  unfold answered at hle hlen
  rw [record_append hs, hlen] at hle
  omega

end KernelMagic.FileUring2
