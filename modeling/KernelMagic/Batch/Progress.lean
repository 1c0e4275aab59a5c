/-
  The batch programs when nothing goes wrong (`Full`): every request completes with its full length
  and no call fails, in whatever order the completions come.

  Every step lowers `measure`, which counts the stages that the bytes and the requests still have to
  pass, and the control between two of them; and a program that waits has requests in flight, since
  the phase says how many are under way. So `batch_finishes`: every run ends, with status 0, the
  source copied, and one read and one write for each chunk.
-/
import KernelMagic.Batch.Copy

namespace KernelMagic.Batch

open KernelMagic.Lib

/-- The weight of a request: a read is still to be followed by a write. -/
def reqWeight (q : Req) : Nat := if q.read then 4 else 1

/-- Where the control stands between two requests. -/
def rank (s : State) : Nat :=
  match s.pc with
  | .readRecv => 5
  | .readSubmit => 4
  | .writeRecv => 3
  | .last => 2
  | .top => if 0 < s.insize then 1 else 3
  | _ => 0

def measure (size : Nat) (s : State) : Nat :=
  6 * (7 * (size - reached s) + s.ring.weigh reqWeight) + rank s

/-- The next `io_uring_get_sqe`, if the program calls it in its next step, finds a free entry. -/
def Slot (s : State) : Prop :=
  (s.pc = .top → s.flag = 1 → 0 < s.insize → s.ring.sq.length < s.ring.entries) ∧
    (s.pc = .readRecv → s.i < s.writes → s.ring.sq.length < s.ring.entries)

variable {prg : Program} {source : List UInt8} {s s' : State}

theorem rank_le (s : State) : rank s ≤ 5 := by
  unfold rank
  split <;> (try split) <;> omega

theorem reqWeight_pos (q : Req) : 1 ≤ reqWeight q := by
  unfold reqWeight
  split <;> omega

/-- Queueing a chunk is paid for by its bytes. -/
theorem measure_queue {size : Nat} {off n : Nat} {p : Nat} (hpc : reached s = off) (hn : 0 < n)
    (hle : off + n ≤ size) (hre : reached s' = off + n)
    (hring : s'.ring = { s.ring with sq := s.ring.sq ++ [⟨true, off, n, p⟩] }) :
    measure size s' < measure size s := by
  have hw := IoRing.weigh_prep reqWeight s.ring ⟨true, off, n, p⟩
  have h4 : reqWeight ⟨true, off, n, p⟩ = 4 := rfl
  have hr := rank_le s'
  unfold measure
  rw [hring, hre, hpc, hw, h4]
  omega

theorem measure_step (hi : Inv source s) (ht : Trans source s s') :
    measure source.length s' < measure source.length s := by
  have hph := hi.phase
  have htot := hi.total
  have hcs := chunkSize_eq hi.left
  have hB : bufSize = 32768 := rfl
  cases ht with
  | loaded i q d hq hd hr hlen =>
    have hw := IoRing.weigh_complete reqWeight hq (q.len : Int)
    simp only [measure, rank, reached]
    omega
  | written i q d hq hd hr =>
    have hw := IoRing.weigh_complete reqWeight hq (q.len : Int)
    simp only [measure, rank, reached]
    omega
  | queued junk hpc hin hopen hroom =>
    have hn : 0 < (chunkSize s.insize).toNat := by omega
    have hle : s.offset + (chunkSize s.insize).toNat ≤ source.length := by omega
    exact measure_queue (by simp only [reached, hpc]) hn hle rfl rfl
  | closed junk hpc hin =>
    have hn : 0 < (chunkSize s.insize).toNat := by omega
    have hle : s.offset + (chunkSize s.insize).toNat ≤ source.length := by omega
    exact measure_queue (by simp only [reached, hpc]) hn hle rfl rfl
  | skipped hpc hin =>
    simp only [measure, reached, rank, hpc, if_neg (show ¬ 0 < s.insize by omega)]
    omega
  | submitted hpc =>
    simp only [Phase, hpc] at hph
    have hw := IoRing.weigh_submit reqWeight s.ring
    have hc := hph.1.count
    simp only [measure, reached, rank, hpc]
    omega
  | readDone c cs d hpc hin hcq hd =>
    simp only [Phase, hpc] at hph
    have hread := hph.1.kindCq c (IoRing.head_mem_cq hcq)
    have h1 := IoRing.weigh_advance reqWeight hcq
    have h2 := IoRing.weigh_prep reqWeight (s.ring.advance 1)
      ⟨false, d.offset, d.iovLen, c.req.data⟩
    have h4 : reqWeight c.req = 4 := by simp only [reqWeight, hread, if_true]
    have h5 : reqWeight ⟨false, d.offset, d.iovLen, c.req.data⟩ = 1 := rfl
    simp only [IoRing.advance] at h1 h2
    simp only [measure, reached, rank, hpc, IoRing.advance]
    omega
  | readEnd hpc hin =>
    simp only [measure, reached, rank, hpc]
    omega
  | submittedWrites hpc =>
    simp only [Phase, hpc] at hph
    have hw := IoRing.weigh_submit reqWeight s.ring
    have hc := hph.1.count
    have hs := hph.1.some
    have hiw := hph.2.1
    simp only [measure, reached, rank, hpc]
    omega
  | writeDone c cs d hpc hin hcq hd =>
    have h1 := IoRing.weigh_advance reqWeight hcq
    have h2 := reqWeight_pos c.req
    simp only [measure, reached, rank, hpc]
    omega
  | writeEnd hpc hin =>
    simp only [measure, reached, rank, hpc]
    omega
  | stop hpc ho =>
    simp only [measure, reached, rank, hpc]
    omega
  | again hpc ho =>
    have hsz := hi.size
    simp only [measure, reached, rank, hpc, if_pos (show 0 < s.insize by omega)]
    omega

/-! ## No stuck states -/

theorem Inv.noFault (hi : Inv source s) : s.pc ≠ .fault := by
  intro hpc
  have hph := hi.phase
  simp only [Phase, hpc] at hph

theorem go_of_isSome {a : Act} (hf : Full s a) (h : (step prg source s a).isSome = true) :
    ∃ a s', Full s a ∧ step prg source s a = some s' := by
  obtain ⟨s', hs'⟩ := Option.isSome_iff_exists.mp h
  exact ⟨a, s', hf, hs'⟩

/-- A request in flight can be completed in full. -/
theorem Inv.complete (hi : Inv source s) (hne : s.ring.inflight ≠ []) :
    ∃ a s', Full s a ∧ step prg source s a = some s' := by
  obtain ⟨q, qs, hq⟩ := List.exists_cons_of_ne_nil hne
  have hq0 : s.ring.inflight[0]? = some q := by rw [hq]; rfl
  obtain ⟨d, hd, hj⟩ := hi.owned.job _
    (IoRing.mem_pending_of_inflight (List.mem_of_getElem? hq0))
  have hfit : q.offset + q.len ≤ source.length := by
    have h1 : q.offset = d.offset := hj.offset
    have h2 : q.len = d.iovLen := hj.len
    have h3 := hj.fit
    omega
  have hfull : Full s (.complete 0 q.len) := by
    refine ⟨trivial, ?_⟩
    intro q' hq'
    obtain rfl : q = q' := Option.some.inj (hq0.symm.trans hq')
    rfl
  have hneg : ¬ ((q.len : Int) < 0) := by omega
  simp only at hd
  refine go_of_isSome hfull ?_
  cases hr : q.read with
  | true =>
    simp [step, kernelStep, transfer, hq0, hd, hr, hneg, length_pread _ _ _ hfit, IoRing.complete]
  | false => simp [step, kernelStep, transfer, hq0, hd, hr, hneg, IoRing.complete]

/-- A run without failures is not stuck before it has ended. -/
theorem Inv.go (hi : Inv source s) :
    s.pc = .exit 0 ∨ ∃ a s', Full s a ∧ step prg source s a = some s' := by
  have hprog : Full s (.prog {}) := ⟨⟨rfl, rfl, rfl⟩, trivial⟩
  have hph := hi.phase
  cases hpc : s.pc with
  | exit n => exact .inl (by rw [(hi.exited hpc).1])
  | fault => exact absurd hpc hi.noFault
  | top => exact .inr (go_of_isSome hprog (by simp [step, progStep, hpc]))
  | submit => exact .inr (go_of_isSome hprog (by simp [step, progStep, hpc]))
  | readSubmit => exact .inr (go_of_isSome hprog (by simp [step, progStep, hpc]))
  | last => exact .inr (go_of_isSome hprog (by simp [step, progStep, hpc]))
  | readRecv =>
    right
    simp only [Phase, hpc] at hph
    have hrest := hph.1.rest
    by_cases hiw : s.i < s.writes
    · cases hcq : s.ring.cq with
      | cons c cs =>
        exact go_of_isSome hprog (by simp [step, progStep, hpc, readRecvStep, hiw, hcq])
      | nil =>
        refine hi.complete fun h => ?_
        rw [h, hcq, List.length_nil, List.length_nil] at hrest
        omega
    · exact go_of_isSome hprog (by simp [step, progStep, hpc, readRecvStep, hiw])
  | writeRecv =>
    right
    simp only [Phase, hpc] at hph
    have hrest := hph.rest
    by_cases hiw : s.i < s.writes
    · cases hcq : s.ring.cq with
      | cons c cs =>
        exact go_of_isSome hprog (by simp [step, progStep, hpc, writeRecvStep, hiw, hcq])
      | nil =>
        refine hi.complete fun h => ?_
        rw [h, hcq, List.length_nil, List.length_nil] at hrest
        omega
    · exact go_of_isSome hprog (by simp [step, progStep, hpc, writeRecvStep, hiw])

/-! ## Runs without failures -/

/-- A step of such a run keeps the invariant and lowers the measure. -/
theorem full_step (hx : prg.Exact) (hi : Inv source s) {a : Act} (hf : Full s a)
    (h : step prg source s a = some s') :
    Inv source s' ∧ measure source.length s' < measure source.length s := by
  rcases step_trans hx hi.ready hf.whole h with ht | ⟨-, hc⟩
  · exact ⟨inv_step hi ht, measure_step hi ht⟩
  · exact absurd hf.1 hc

theorem inv_run (hx : prg.Exact) {acts : List Act}
    (hf : Along (step prg source) Full (init (.regular source.length)) acts)
    (hr : run (step prg source) (init (.regular source.length)) acts = some s) : Inv source s :=
  run_inv (fun _ _ _ hi hfa hs => (full_step hx hi hfa hs).1) (inv_init source) hf hr

theorem Inv.slot (hi : Inv source s) : Slot s ∧ s.ring.sq.length ≤ depth := by
  have hph := hi.phase
  have he := hi.entries
  have h64 : depth = 64 := rfl
  refine ⟨⟨fun hpc _ _ => ?_, fun hpc hiw => ?_⟩, ?_⟩
  · simp only [Phase, hpc] at hph
    rw [hph.1.count, he]
    exact hph.2.1
  · simp only [Phase, hpc] at hph
    have hb := hph.1.bound
    rw [hph.1.count, he]
    omega
  · unfold Phase at hph
    split at hph
    · have := hph.1.count
      omega
    · have := hph.1.count
      omega
    · have := hph.1.count
      omega
    · have := hph.1.count
      have := hph.1.rest
      have := hph.1.bound
      omega
    · have := hph.1.count
      have := hph.1.rest
      have := hph.1.bound
      omega
    · rw [hph.sq]
      exact Nat.zero_le _
    · have hle := IoRing.length_sq_le_card s.ring
      rw [hph.2.1, Multiset.card_zero] at hle
      omega
    · exact hph.elim

/-- What a run without failures has done when it is over. -/
structure Finished (source : List UInt8) (s : State) : Prop where
  status : s.pc = .exit 0
  dest : s.dest = source
  posted : OneEach bufSize source.length s.posted

theorem Inv.finished (hi : Inv source s) (hpc : s.pc = .exit 0) : Finished source s := by
  obtain ⟨-, hpend, hoff, hdest⟩ := hi.exited hpc
  obtain ⟨cs, hcut, hpost⟩ := hi.queued
  refine ⟨hpc, hdest, ?_⟩
  rw [hpend] at hpost
  simp only [reached, hpc, hoff] at hcut
  exact hpost.oneEach hcut (by decide)

/-- Every run without failures ends, and ends well. -/
theorem batch_finishes (hx : prg.Exact) (source : List UInt8) :
    Finishes (step prg source) Full (init (.regular source.length)) (Finished source) := by
  refine finishes_of_measure (measure source.length) ?_ ?_ (inv_init source)
  · exact fun s a s' hi hf h => full_step hx hi hf h
  · intro s hi
    rcases hi.go with h | h
    · exact .inl (hi.finished h)
    · exact .inr h

end KernelMagic.Batch
