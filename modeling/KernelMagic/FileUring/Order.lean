/-
  What `file_uring.c` copies: the pieces of the source in the order of their arrival.
  `fileUring_copies_iff` says for which orders that is the source, whatever its content: those in
  which the reads that return data complete in the order of their offsets. `fileUring_swapped` is a
  run in another order.

  The control of the program does not depend on the content of the file (`Same`, `step_same`), so that
  one schedule can be compared over all files of one size.
-/
import KernelMagic.Lib.Arrival
import KernelMagic.FileUring.Invariant

namespace KernelMagic.FileUring

open KernelMagic.Lib

variable {source : List UInt8} {s s' : State} {a : Answers}

/-! ## Runs on different files of one size -/

/-- The same objects are live. -/
structure Alike (h h' : Heap FileData) : Prop where
  next : h'.next = h.next
  live : ∀ p, (h'.cell p).isSome = (h.cell p).isSome

/-- Two states that differ in the data only. -/
def Same (s t : State) : Prop := ∃ h b, t = { s with heap := h, dest := b } ∧ Alike s.heap h

section Same

variable {h h' : Heap FileData} {source' : List UInt8} {t : State}

theorem Alike.alloc (ha : Alike h h') (x y : FileData) : Alike (h.alloc x) (h'.alloc y) := by
  refine ⟨by simp only [Heap.alloc, ha.next], fun p => ?_⟩
  simp only [Heap.alloc, ha.next]
  split
  · rfl
  · exact ha.live p

theorem Alike.put (ha : Alike h h') (q : Nat) (x y : FileData) :
    Alike (h.put q x) (h'.put q y) := by
  refine ⟨ha.next, fun p => ?_⟩
  simp only [Heap.put]
  split
  · rw [Option.isSome_map, Option.isSome_map]
    exact ha.live q
  · exact ha.live p

theorem Alike.free (ha : Alike h h') (q : Nat) : Alike (h.free q) (h'.free q) := by
  refine ⟨ha.next, fun p => ?_⟩
  simp only [Heap.free]
  split
  · rfl
  · exact ha.live p

/-- An object is live in both heaps or in neither. -/
theorem Alike.cell (ha : Alike h h') (p : Nat) :
    (h.cell p = none ∧ h'.cell p = none) ∨ ∃ d d', h.cell p = some d ∧ h'.cell p = some d' := by
  have hl := ha.live p
  cases hd : h.cell p with
  | none =>
    rw [hd] at hl
    exact .inl ⟨rfl, by simpa using hl⟩
  | some d =>
    rw [hd] at hl
    obtain ⟨d', hd'⟩ := Option.isSome_iff_exists.mp hl
    exact .inr ⟨d, d', rfl, hd'⟩

theorem queueStep_same (hs : Same s t) : Same (queueStep s a) (queueStep t a) := by
  obtain ⟨h, b, rfl, ha⟩ := hs
  unfold queueStep IoRing.prep
  simp only [ha.next]
  split
  · split
    · exact ⟨h, b, rfl, ha⟩
    · exact ⟨_, b, rfl, ha.alloc _ _⟩
  · exact ⟨h, b, rfl, ha⟩

theorem recvStep_same (hs : Same s t) (hr : recvStep s a = some s') :
    ∃ t', recvStep t a = some t' ∧ Same s' t' := by
  obtain ⟨h, b, rfl, ha⟩ := hs
  unfold recvStep at hr ⊢
  simp only
  split at hr
  · next hj =>
    rw [if_pos hj]
    split at hr
    · next he =>
      cases hr
      rw [if_pos he]
      exact ⟨_, rfl, h, b, rfl, ha⟩
    · next he =>
      rw [if_neg he]
      obtain ⟨c, hc, rfl⟩ := Option.map_eq_some_iff.mp hr
      refine ⟨_, by rw [hc, Option.map_some], ?_⟩
      unfold recvDone
      rcases ha.cell c.req.data with ⟨h1, h2⟩ | ⟨d, d', h1, h2⟩
      · simp only [h1, h2]
        exact ⟨h, b, rfl, ha⟩
      · simp only [h1, h2]
        split
        · exact ⟨h, b, rfl, ha⟩
        · exact ⟨_, _, rfl, ha.free _⟩
  · next hj =>
    cases hr
    rw [if_neg hj]
    exact ⟨_, rfl, h, b, rfl, ha⟩

theorem kernelStep_same (hlen : source'.length = source.length) (hs : Same s t) {i : Nat}
    {res : Int} (hr : kernelStep source s i res = some s') :
    ∃ t', kernelStep source' t i res = some t' ∧ Same s' t' := by
  obtain ⟨h, b, rfl, ha⟩ := hs
  unfold kernelStep at hr ⊢
  obtain ⟨q, hq, hr⟩ := Option.bind_eq_some_iff.mp hr
  simp only [hq, Option.bind_some]
  have hread : (pread source' q.offset res.toNat).length =
      (pread source q.offset res.toNat).length := by
    simp only [pread, List.length_take, List.length_drop, hlen]
  rcases ha.cell q.data with ⟨h1, h2⟩ | ⟨d, d', h1, h2⟩
  · rw [h1] at hr
    cases hr
    simp only [h2]
    exact ⟨_, rfl, h, b, rfl, ha⟩
  · rw [h1] at hr
    simp only [h2, hread]
    simp only at hr
    split at hr
    · cases hr
    · next hres =>
      simp only [IoRing.complete, hq, Option.map_some] at hr ⊢
      rw [if_neg hres]
      cases hr
      exact ⟨_, rfl, _, b, rfl, ha.put _ _ _⟩

/-- The control does not depend on the content of the file. -/
theorem step_same (hlen : source'.length = source.length) (hs : Same s t) {a : Act}
    (hr : step source s a = some s') : ∃ t', step source' t a = some t' ∧ Same s' t' := by
  cases a with
  | complete i res => exact kernelStep_same hlen hs hr
  | prog a =>
    have hpc : t.pc = s.pc := by
      obtain ⟨h, b, rfl, -⟩ := hs
      rfl
    unfold step progStep at hr ⊢
    simp only at hr ⊢
    rw [hpc]
    split at hr
    · cases hr
      exact ⟨_, rfl, queueStep_same hs⟩
    · cases hr
      obtain ⟨h, b, rfl, ha⟩ := hs
      exact ⟨_, rfl, h, b, rfl, ha⟩
    · exact recvStep_same hs hr
    · cases hr
    · cases hr

/-- A schedule that runs on one file runs on every file of the same size, with the same arrivals. -/
theorem run_same (hlen : source'.length = source.length) {acts : List Act}
    (hf : Along (step source) (Full source.length) (init (.regular source.length)) acts)
    (hr : run (step source) (init (.regular source.length)) acts = some s) :
    ∃ t, run (step source') (init (.regular source.length)) acts = some t ∧ Same s t ∧
      Inv source' t := by
  have h0 : Same (init (.regular source.length)) (init (.regular source.length)) ∧
      Inv source' (init (.regular source.length)) := by
    refine ⟨⟨_, _, rfl, rfl, fun _ => rfl⟩, ?_⟩
    rw [← hlen]
    exact inv_init source'
  refine run_sim (R := fun s t => Same s t ∧ Inv source' t) ?_ h0 hf hr
  rintro u v a u' ⟨hs, hi⟩ hfa hu
  obtain ⟨v', hv, hs'⟩ := step_same hlen hs hu
  have hfv : Full source'.length v a := by
    obtain ⟨h, b, rfl, -⟩ := hs
    rw [hlen]
    cases a with
    | complete i res => exact hfa
    | prog a => exact hfa
  exact ⟨v', hv, hs', inv_step hi hfv hv⟩

end Same

/-! ## Termination -/

def measure (size : Nat) (s : State) : Nat :=
  4 * (count size - s.i) + s.ring.weigh (fun _ => 1) +
    match s.pc with
    | .exit _ => 0
    | .fault => 0
    | _ => 1

/-- What holds in addition when no call fails. -/
structure Sound (source : List UInt8) (s : State) : Prop where
  inv : Inv source s
  noFault : s.pc ≠ .fault
  status : ∀ n, s.pc = .exit n → n = 0

section Termination

variable {size : Nat}

theorem Queueing.lt_count (hq : Queueing size s) (hle : s.offset ≤ size) : s.i < count size := by
  have ho := hq.offset
  unfold count
  exact Nat.lt_succ_of_le ((Nat.le_div_iff_mul_le (by decide)).mpr (by omega))

theorem queueStep_measure (hi : Inv source s) (hfit : source.length / bufSize < depth)
    (hpc : s.pc = .queue) (ha : a.malloc = true) :
    measure source.length (queueStep s a) < measure source.length s ∧
      (queueStep s a).pc ≠ .fault ∧ ∀ n, (queueStep s a).pc ≠ .exit n := by
  have hph := hi.phase
  simp only [Phase, hpc] at hph
  obtain ⟨hq, hle⟩ := hph
  have hlt := hq.lt_count hle
  have hlen := hq.length
  have hent := hi.entries
  have hroom : s.ring.sq.length < s.ring.entries := by
    unfold count at hlt
    omega
  have hw := IoRing.weigh_prep (fun _ => 1) s.ring ⟨s.offset, s.heap.next⟩
  unfold queueStep
  rw [if_pos ha, IoRing.prep_of_lt hroom]
  simp only
  by_cases hend : ((s.offset + bufSize : Nat) : Int) > s.fileSz
  · simp only [if_pos hend]
    refine ⟨?_, by simp, by simp⟩
    simp only [measure, hpc, hw]
    omega
  · simp only [if_neg hend]
    refine ⟨?_, by simp, by simp⟩
    simp only [measure, hpc, hw]
    omega

theorem submitStep_measure (hi : Inv source s) (hpc : s.pc = .submit) (ha : a.submit = .all) :
    measure source.length (submitStep s a) < measure source.length s ∧
      (submitStep s a).pc = .recv := by
  have hph := hi.phase
  simp only [Phase, hpc] at hph
  have hlen := hph.1.length
  have hc := hph.2
  have hw := IoRing.weigh_submit (fun _ => 1) s.ring
  have hpos : ¬ ((s.ring.sq.length : Int) < 0) := by omega
  unfold submitStep
  rw [ha, IoRing.submit_all]
  simp only [if_neg hpos]
  refine ⟨?_, trivial⟩
  have hi0 : 0 < s.i := by
    rw [hc]
    exact Nat.succ_pos _
  simp only [measure, hpc]
  omega

theorem recvStep_measure (hi : Inv source s) (hpc : s.pc = .recv) (ha : a.cqeErr = 0)
    (hw : a.written = none) (h : recvStep s a = some s') :
    measure source.length s' < measure source.length s ∧ (s'.pc = .recv ∨ s'.pc = .exit 0) := by
  unfold recvStep at h
  split at h
  · rw [if_neg (by omega)] at h
    obtain ⟨c, hc, rfl⟩ := Option.map_eq_some_iff.mp h
    obtain ⟨cs, hcq⟩ := List.head?_eq_some_iff.mp hc
    have hm : c ∈ s.ring.cq := IoRing.head_mem_cq hcq
    have hres := hi.full c hm
    have hneg : ¬ c.res < 0 := by omega
    have hwr : writeRet c.res a = c.res := by
      unfold writeRet
      rw [if_neg hneg, hw, Option.getD_none]
    obtain ⟨d, hd, -⟩ := hi.owned.job c (IoRing.mem_pending_of_cq hm)
    have hwt := IoRing.weigh_advance (fun _ => 1) hcq
    unfold recvDone
    rw [hd]
    simp only [hwr, if_neg hneg]
    refine ⟨?_, .inl hpc⟩
    simp only [measure, hpc]
    omega
  · cases h
    refine ⟨?_, .inr rfl⟩
    simp only [measure, hpc]
    omega

theorem kernelStep_measure (hi : Inv source s) {i : Nat} {res : Int}
    (h : kernelStep source s i res = some s') :
    measure source.length s' < measure source.length s ∧ s'.pc = s.pc := by
  unfold kernelStep at h
  obtain ⟨q, hq, h⟩ := Option.bind_eq_some_iff.mp h
  obtain ⟨d, hd, -⟩ := hi.owned.job _
    (IoRing.mem_pending_of_inflight (List.mem_of_getElem? hq))
  have hw := IoRing.weigh_complete (fun _ => 1) hq res
  simp only at hd
  rw [hd] at h
  simp only at h
  split at h
  · cases h
  · simp only [IoRing.complete, hq, Option.map_some] at h
    cases h
    refine ⟨?_, rfl⟩
    simp only [measure]
    omega

theorem sound_step (hfit : source.length / bufSize < depth) (hs : Sound source s) {a : Act}
    (hc : a.CallsSucceed) (hf : Full source.length s a) (h : step source s a = some s') :
    Sound source s' ∧ measure source.length s' < measure source.length s := by
  have hi := hs.inv
  have hinv := inv_step hi hf h
  cases a with
  | complete i res =>
    obtain ⟨hm, hpc⟩ := kernelStep_measure hi h
    exact ⟨⟨hinv, by rw [hpc]; exact hs.noFault, by rw [hpc]; exact hs.status⟩, hm⟩
  | prog a =>
    unfold step progStep at h
    simp only at h
    split at h
    · next hpc =>
      cases h
      obtain ⟨hm, h1, h2⟩ := queueStep_measure hi hfit hpc hc.1
      exact ⟨⟨hinv, h1, fun n hn => absurd hn (h2 n)⟩, hm⟩
    · next hpc =>
      cases h
      obtain ⟨hm, h1⟩ := submitStep_measure hi hpc hf.1
      exact ⟨⟨hinv, by simp [h1], by simp [h1]⟩, hm⟩
    · next hpc =>
      obtain ⟨hm, h1⟩ := recvStep_measure hi hpc hc.2 hf.2 h
      rcases h1 with h1 | h1
      · exact ⟨⟨hinv, by simp [h1], by simp [h1]⟩, hm⟩
      · exact ⟨⟨hinv, by simp [h1], fun n hn => by rw [h1] at hn; cases hn; rfl⟩, hm⟩
    · cases h
    · cases h

/-- A read in flight can be completed in full. -/
theorem Inv.complete (hi : Inv source s) (hne : s.ring.inflight ≠ []) :
    ∃ a s', (a.CallsSucceed ∧ Full source.length s a) ∧ step source s a = some s' := by
  obtain ⟨q, qs, hq⟩ := List.exists_cons_of_ne_nil hne
  have hq0 : s.ring.inflight[0]? = some q := by rw [hq]; rfl
  obtain ⟨d, hd, -⟩ := hi.owned.job _
    (IoRing.mem_pending_of_inflight (List.mem_of_getElem? hq0))
  have hlen : (pread source q.offset (min bufSize (source.length - q.offset))).length =
      min bufSize (source.length - q.offset) := by
    rw [pread, List.length_take, List.length_drop]
    omega
  have hle : ¬ ((bufSize : Int) < ((min bufSize (source.length - q.offset) : Nat) : Int)) := by
    omega
  simp only at hd
  have hsome : (kernelStep source s 0 (min bufSize (source.length - q.offset) : Nat)).isSome = true := by
    unfold kernelStep
    simp only [hq0, Option.bind_some, hd, Int.toNat_natCast, hlen, ne_eq, not_true_eq_false, hle,
      or_self, if_false, IoRing.complete, Option.map_some, Option.isSome_some]
  obtain ⟨s', hs'⟩ := Option.isSome_iff_exists.mp hsome
  refine ⟨.complete 0 (min bufSize (source.length - q.offset) : Nat), s', ⟨trivial, ?_⟩, hs'⟩
  intro q' hq'
  obtain rfl : q = q' := Option.some.inj (hq0.symm.trans hq')
  rfl

theorem Sound.go (hs : Sound source s) : s.pc = .exit 0 ∨
    ∃ a s', (a.CallsSucceed ∧ Full source.length s a) ∧ step source s a = some s' := by
  have hok : (Act.prog {}).CallsSucceed ∧ Full source.length s (.prog {}) :=
    ⟨⟨rfl, rfl⟩, rfl, rfl⟩
  have hph := hs.inv.phase
  cases hpc : s.pc with
  | exit n => exact .inl (by rw [hs.status n hpc])
  | fault => exact absurd hpc hs.noFault
  | queue => exact .inr ⟨_, queueStep s {}, hok, by simp only [step, progStep, hpc]⟩
  | submit => exact .inr ⟨_, submitStep s {}, hok, by simp only [step, progStep, hpc]⟩
  | recv =>
    right
    simp only [Phase, hpc] at hph
    by_cases hj : (s.j : Int) < s.ret
    · cases hcq : s.ring.cq with
      | cons c cs =>
        refine ⟨_, recvDone s c {}, hok, ?_⟩
        simp [step, progStep, hpc, recvStep, hj, hcq]
      | nil =>
        refine hs.inv.complete fun h => ?_
        have hlen := hph.all.length_eq
        have hret := hph.ret
        obtain ⟨l, hl, hlj, -⟩ := hs.inv.consumed
        rw [h, hl, hcq] at hlen
        simp [offsets] at hlen
        omega
    · exact ⟨_, { s with pc := .exit 0 }, hok, by simp [step, progStep, hpc, recvStep, hj]⟩

end Termination

/-! ## Order of arrival -/

/-- **Order.** A file that fits the ring is copied to the end whatever the order of the completions;
    and a schedule leaves the source in the destination, for every file of its size, if and only if
    the reads that return data complete in the order of their offsets. -/
theorem fileUring_copies_iff (source : List UInt8) (hfit : source.length / bufSize < depth) :
    Finishes (step source) (fun s a => a.CallsSucceed ∧ Full source.length s a)
        (init (.regular source.length)) (fun s => s.pc = .exit 0) ∧
      ∀ acts s, Along (step source) (Full source.length) (init (.regular source.length)) acts →
        run (step source) (init (.regular source.length)) acts = some s → s.pc = .exit 0 →
        ((∀ source' : List UInt8, source'.length = source.length →
            ∀ s', run (step source') (init (.regular source.length)) acts = some s' →
              s'.dest = source') ↔
          (s.arrived.filter fun o => o < source.length).Pairwise (· < ·)) := by
  refine ⟨?_, ?_⟩
  · have h0 : Sound source (init (.regular source.length)) :=
      ⟨inv_init source, by simp [init], by simp [init]⟩
    exact finishes_of_measure (measure source.length)
      (fun s a s' hs hf h => sound_step hfit hs hf.1 hf.2 h) (fun s hs => hs.go) h0
  · intro acts s hf hr hpc
    have hi := run_inv (fun _ _ _ hi hfa hs => inv_step hi hfa hs) (inv_init source) hf hr
    have hperm := (hi.dest_eq hpc).2
    have hk : source.length ≤ count source.length * bufSize := by
      have hmod := Nat.div_add_mod source.length bufSize
      have hlt := Nat.mod_lt source.length (show 0 < bufSize by decide)
      unfold count
      rw [Nat.succ_mul, Nat.mul_comm]
      omega
    have h01 : (0 : UInt8) ≠ 1 := by decide
    rw [← arrival_iff h01 (by decide) hperm hk]
    -- the destination of the same schedule on another file
    have hdest : ∀ source' : List UInt8, source'.length = source.length →
        ∃ t, run (step source') (init (.regular source.length)) acts = some t ∧
          t.dest = pieces source' s.arrived := by
      intro source' hlen
      obtain ⟨t, ht, ⟨h, b, rfl, -⟩, hit⟩ := run_same hlen hf hr
      exact ⟨_, ht, (hit.dest_eq hpc).1⟩
    constructor
    · intro h source' hlen
      obtain ⟨t, ht, hd⟩ := hdest source' hlen
      exact hd.symm.trans (h source' hlen t ht)
    · intro h source' hlen s' hs'
      obtain ⟨t, ht, hd⟩ := hdest source' hlen
      obtain rfl : t = s' := Option.some.inj (ht.symm.trans hs')
      exact hd.trans (h source' hlen)

/-- A file of one full piece of zeros and one more byte. -/
def twoPieces : List UInt8 := List.replicate bufSize 0 ++ [1]

theorem length_twoPieces : twoPieces.length = 4097 := by
  unfold twoPieces
  rw [List.length_append, List.length_replicate]
  rfl

/-- Both reads are submitted before the first of them completes. -/
def inTurn : List Act :=
  [.prog {}, .prog {}, .prog {}, .complete 0 4096, .complete 0 1, .prog {}, .prog {}, .prog {}]

theorem fileUring_copies_two : ∃ s, run (step twoPieces) (init (.regular 4097)) inTurn = some s ∧
    s.pc = .exit 0 ∧ s.arrived = [0, 4096] ∧ s.dest = twoPieces := by
  have hrun : (run (step twoPieces) (init (.regular 4097)) inTurn).map
      (fun s => (s.pc, s.arrived)) = some (.exit 0, [0, 4096]) := by
    decide +kernel
  obtain ⟨s, hs, he⟩ := Option.map_eq_some_iff.mp hrun
  obtain ⟨hpc, harr⟩ := Prod.mk.inj he
  have h := (fileUring_copies_iff twoPieces (by rw [length_twoPieces]; decide)).2 inTurn s
  rw [length_twoPieces] at h
  have hiff := h (by decide +kernel) hs hpc
  exact ⟨s, hs, hpc, harr, hiff.mpr (by rw [harr]; decide) twoPieces length_twoPieces s hs⟩

/-- The read of the last byte completes first. -/
def swapped : List Act :=
  [.prog {}, .prog {}, .prog {}, .complete 1 1, .complete 0 4096, .prog {}, .prog {}, .prog {}]

theorem fileUring_swapped :
    Along (step twoPieces) (Full 4097) (init (.regular 4097)) swapped ∧
      ∃ s, run (step twoPieces) (init (.regular 4097)) swapped = some s ∧ s.pc = .exit 0 ∧
        s.dest = 1 :: List.replicate 4096 0 ∧ s.dest ≠ twoPieces := by
  have hfull : Along (step twoPieces) (Full 4097) (init (.regular 4097)) swapped := by
    decide +kernel
  have hrun : (run (step twoPieces) (init (.regular 4097)) swapped).map
      (fun s => (s.pc, s.arrived)) = some (.exit 0, [bufSize, 0]) := by
    decide +kernel
  obtain ⟨s, hs, he⟩ := Option.map_eq_some_iff.mp hrun
  obtain ⟨hpc, harr⟩ := Prod.mk.inj he
  have hi : Inv twoPieces s := by
    have h0 := inv_init twoPieces
    rw [length_twoPieces] at h0
    refine run_inv (fun _ _ _ hi hfa h => inv_step hi ?_ h) h0 hfull hs
    rw [length_twoPieces]
    exact hfa
  have h1 : pread twoPieces bufSize bufSize = [1] := by
    unfold pread twoPieces
    rw [List.drop_left' (List.length_replicate ..)]
    rfl
  have h2 : pread twoPieces 0 bufSize = List.replicate bufSize 0 := by
    unfold pread twoPieces
    rw [List.drop_zero, List.take_left' (List.length_replicate ..)]
  have hdest : s.dest = 1 :: List.replicate bufSize 0 := by
    rw [(hi.dest_eq hpc).1, harr]
    unfold pieces
    rw [List.map_cons, List.map_singleton, h1, h2, List.flatten_cons, List.flatten_singleton]
    rfl
  refine ⟨hfull, s, hs, hpc, hdest, fun h => ?_⟩
  have hhead : some (1 : UInt8) = some 0 := congrArg List.head? (hdest.symm.trans h)
  exact absurd hhead (by decide)

end KernelMagic.FileUring
