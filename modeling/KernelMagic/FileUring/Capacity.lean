/-
  The submission loop of `file_uring.c` against the size of its ring.

  Nothing is submitted until the loop has ended, and the loop queues one read more than there are full
  chunks, so the entries run out exactly for the files of `DEPTH * BUF_SIZE` bytes and more
  (`capacity_iff`). `Filling` is what holds in the loop, for every answer of `get_file_size`, the
  negative one included.
-/
import KernelMagic.Lib.History
import KernelMagic.FileUring.Invariant

namespace KernelMagic.FileUring

open KernelMagic.Lib

/-- The reads of the loop up to the `k`-th. -/
def readsTo (k : Nat) : List Io := (offsets k).map fun o => ⟨true, o, bufSize⟩

/-- While the reads are queued, and when they all are. -/
structure Filling (s : State) : Prop where
  inflight : s.ring.inflight = []
  entries : s.ring.entries = depth
  count : s.ring.sq.length = s.i
  offset : s.offset = s.i * bufSize
  posted : s.posted = readsTo s.i
  goes : s.pc = .queue → s.i = 0 ∨ (s.offset : Int) ≤ s.fileSz
  stops : s.pc = .submit → s.fileSz < s.offset

/-- The reads cover `[0, n)` and do not overlap. -/
structure Covers (posted : List Io) (n : Int) : Prop where
  cover : ∀ p : Nat, (p : Int) < n → ∃ x ∈ posted, x.read = true ∧ x.offset ≤ p ∧
    p < x.offset + x.len
  disjoint : posted.Pairwise fun x y => x.offset + x.len ≤ y.offset

/-- Every call of `io_uring_get_sqe` in the loop finds an entry, and the reads cover the file. -/
def Fits (st : Stat) : Prop :=
  ∀ source acts s, run (step source) (init st) acts = some s →
    (s.pc = .queue → ∀ q, (s.ring.prep q).isSome = true) ∧
      (s.pc = .submit → Covers s.posted (getFileSize st))

variable {source : List UInt8} {s s' : State} {a : Answers} {st : Stat}

theorem filling_init (st : Stat) : Filling (init st) where
  inflight := rfl
  entries := rfl
  count := rfl
  offset := (Nat.zero_mul _).symm
  posted := rfl
  goes := fun _ => .inl rfl
  stops := fun h => by cases h

theorem readsTo_succ (k : Nat) : readsTo (k + 1) = readsTo k ++ [⟨true, k * bufSize, bufSize⟩] := by
  unfold readsTo
  rw [offsets_succ, List.map_append, List.map_singleton]

/-- One turn of the loop with memory and an entry at hand. -/
theorem queueStep_eq (hm : a.malloc = true) (hroom : s.ring.sq.length < s.ring.entries) :
    queueStep s a = { s with
      heap := s.heap.alloc ⟨s.i, s.offset, fun _ => 0⟩
      ring := { s.ring with sq := s.ring.sq ++ [⟨s.offset, s.heap.next⟩] }
      posted := s.posted ++ [⟨true, s.offset, bufSize⟩]
      offset := s.offset + bufSize
      i := s.i + 1
      pc := if ((s.offset + bufSize : Nat) : Int) > s.fileSz then .submit else .queue } := by
  unfold queueStep
  rw [if_pos hm, IoRing.prep_of_lt hroom]

theorem Filling.next (hf : Filling s) (hm : a.malloc = true)
    (hroom : s.ring.sq.length < s.ring.entries) : Filling (queueStep s a) := by
  have ho := hf.offset
  have e : (s.i + 1) * bufSize = s.i * bufSize + bufSize := Nat.succ_mul _ _
  rw [queueStep_eq hm hroom]
  refine ⟨hf.inflight, hf.entries, ?_, ?_, ?_, ?_, ?_⟩
  · simp only [List.length_append, hf.count, List.length_singleton]
  · simp only [e, ho]
  · simp only [readsTo_succ, hf.posted, ho]
  · intro h
    simp only at h ⊢
    split at h
    · cases h
    · exact .inr (by omega)
  · intro h
    simp only at h ⊢
    split at h
    · omega
    · cases h

/-- In the loop or about to submit, or behind it. -/
def InLoop (s : State) : Prop := (s.pc = .queue ∨ s.pc = .submit) → Filling s

/-- Every step keeps what holds in the loop. -/
theorem inLoop_step (hi : InLoop s) {a : Act} (h : step source s a = some s') : InLoop s' := by
  cases a with
  | complete i res =>
    unfold step kernelStep at h
    obtain ⟨q, hq, h⟩ := Option.bind_eq_some_iff.mp h
    have hne : ¬ s.ring.inflight = [] := List.ne_nil_of_mem (List.mem_of_getElem? hq)
    have hpc : s'.pc = s.pc ∨ s'.pc = .fault := by
      split at h
      · cases h
        exact .inr rfl
      · split at h
        · cases h
        · obtain ⟨r, -, rfl⟩ := Option.map_eq_some_iff.mp h
          exact .inl rfl
    -- nothing is in flight yet while the loop runs
    intro hin
    rcases hpc with hpc | hpc
    · rw [hpc] at hin
      exact absurd (hi hin).inflight hne
    · rw [hpc] at hin
      rcases hin with h | h <;> cases h
  | prog b =>
    unfold step progStep at h
    simp only at h
    split at h
    · next hpc =>
      cases h
      intro hin
      by_cases hm : b.malloc = true
      · by_cases hroom : s.ring.sq.length < s.ring.entries
        · exact (hi (.inl hpc)).next hm hroom
        · unfold queueStep at hin
          rw [if_pos hm, IoRing.prep_of_not_lt hroom] at hin
          rcases hin with h | h <;> cases h
      · unfold queueStep at hin
        rw [if_neg hm] at hin
        rcases hin with h | h <;> cases h
    · cases h
      intro hin
      unfold submitStep at hin
      simp only at hin
      split at hin <;> rcases hin with h | h <;> cases h
    · next hpc =>
      intro hin
      have hout : s'.pc ≠ .queue ∧ s'.pc ≠ .submit := by
        unfold recvStep at h
        split at h
        · split at h
          · cases h
            exact ⟨by simp, by simp⟩
          · obtain ⟨c, -, rfl⟩ := Option.map_eq_some_iff.mp h
            unfold recvDone
            split
            · exact ⟨by simp, by simp⟩
            · split
              · exact ⟨by simp, by simp⟩
              · simp [hpc]
        · cases h
          exact ⟨by simp, by simp⟩
      exact (hin.elim hout.1 hout.2).elim
    · cases h
    · cases h

/-- The size is never changed. -/
theorem fileSz_step {a : Act} (h : step source s a = some s') : s'.fileSz = s.fileSz := by
  cases a with
  | complete i res =>
    unfold step kernelStep at h
    obtain ⟨q, -, h⟩ := Option.bind_eq_some_iff.mp h
    split at h
    · cases h
      rfl
    · split at h
      · cases h
      · obtain ⟨r, -, rfl⟩ := Option.map_eq_some_iff.mp h
        rfl
  | prog b =>
    unfold step progStep at h
    simp only at h
    split at h
    · cases h
      unfold queueStep
      split
      · split <;> rfl
      · rfl
    · cases h
      rfl
    · unfold recvStep at h
      split at h
      · split at h
        · cases h
          rfl
        · obtain ⟨c, -, rfl⟩ := Option.map_eq_some_iff.mp h
          unfold recvDone
          split
          · rfl
          · split <;> rfl
      · cases h
        rfl
    · cases h
    · cases h

theorem inLoop_run {acts : List Act} (hr : run (step source) (init st) acts = some s) :
    InLoop s ∧ s.fileSz = getFileSize st :=
  run_keeps (I := fun s => InLoop s ∧ s.fileSz = getFileSize st) hr ⟨fun _ => filling_init st, rfl⟩
    fun _ _ _ hi hs => ⟨inLoop_step hi.1 hs, (fileSz_step hs).trans hi.2⟩

/-! ## The reads -/

theorem mem_readsTo {k i : Nat} (hi : i < k) : (⟨true, i * bufSize, bufSize⟩ : Io) ∈ readsTo k :=
  List.mem_map.mpr ⟨i * bufSize, List.mem_map.mpr ⟨i, List.mem_range.mpr hi, rfl⟩, rfl⟩

theorem disjoint_readsTo (k : Nat) :
    (readsTo k).Pairwise fun x y => x.offset + x.len ≤ y.offset := by
  induction k with
  | zero => exact List.Pairwise.nil
  | succ k ih =>
    rw [readsTo_succ, List.pairwise_append]
    refine ⟨ih, List.pairwise_singleton _ _, fun x hx y hy => ?_⟩
    obtain ⟨o, ho, rfl⟩ := List.mem_map.mp hx
    obtain ⟨i, hi, rfl⟩ := List.mem_map.mp ho
    rw [List.mem_singleton.mp hy]
    have hm := Nat.mul_le_mul_right bufSize (Nat.succ_le_of_lt (List.mem_range.mp hi))
    have e := Nat.succ_mul i bufSize
    simp only
    omega

/-- When the loop is left the reads cover the file. -/
theorem Filling.covers (hf : Filling s) (hpc : s.pc = .submit) : Covers s.posted s.fileSz := by
  have hstop := hf.stops hpc
  have ho := hf.offset
  have hB : 0 < bufSize := by decide
  rw [hf.posted]
  refine ⟨fun p hp => ?_, disjoint_readsTo s.i⟩
  have hlt : p / bufSize < s.i := Nat.div_lt_of_lt_mul (by rw [Nat.mul_comm]; omega)
  refine ⟨_, mem_readsTo hlt, rfl, Nat.div_mul_le_self p bufSize, ?_⟩
  exact Nat.lt_div_mul_add hB

/-- The loop goes on as long as the file and the ring last. -/
theorem exists_filling (st : Stat) (source : List UInt8) (n : Nat) (hn : n ≤ depth)
    (hsz : ((n * bufSize : Nat) : Int) ≤ getFileSize st) :
    ∃ acts s, run (step source) (init st) acts = some s ∧ s.pc = .queue ∧ s.i = n := by
  induction n with
  | zero => exact ⟨[], init st, rfl, rfl, rfl⟩
  | succ n ih =>
    have e : (n + 1) * bufSize = n * bufSize + bufSize := Nat.succ_mul _ _
    obtain ⟨acts, s, hr, hpc, hi⟩ := ih (by omega) (by omega)
    obtain ⟨hin, hsz'⟩ := inLoop_run hr
    have hf := hin (.inl hpc)
    have hroom : s.ring.sq.length < s.ring.entries := by
      rw [hf.count, hf.entries]
      omega
    have hs : step source s (.prog {}) = some (queueStep s {}) := by
      unfold step progStep
      rw [hpc]
    refine ⟨acts ++ [.prog {}], _, run_snoc_eq_some.mpr ⟨s, hr, hs⟩, ?_⟩
    rw [queueStep_eq rfl hroom]
    have ho := hf.offset
    rw [hi] at ho
    exact ⟨if_neg (by omega), by simp only [hi]⟩

/-- In a larger file the loop comes to a turn with all entries taken. -/
theorem not_fits (h : ((depth * bufSize : Nat) : Int) ≤ getFileSize st) : ¬ Fits st := by
  intro hfits
  obtain ⟨acts, s, hr, hpc, hi⟩ := exists_filling st [] depth (Nat.le_refl _) h
  have hf := (inLoop_run hr).1 (.inl hpc)
  have hsome := (hfits [] acts s hr).1 hpc ⟨0, 0⟩
  rw [IoRing.prep_of_not_lt (by rw [hf.count, hf.entries, hi]; exact Nat.lt_irrefl _)] at hsome
  cases hsome

/-- In a smaller one an entry is left at every turn. -/
theorem Filling.room (hf : Filling s) (hpc : s.pc = .queue)
    (h : s.fileSz < (depth * bufSize : Nat)) : s.ring.sq.length < s.ring.entries := by
  have ho := hf.offset
  rw [hf.count, hf.entries]
  rcases hf.goes hpc with h0 | hle
  · rw [h0]
    decide
  · rw [ho] at hle
    exact Nat.lt_of_mul_lt_mul_right (a := bufSize) (by omega)

/-- **Capacity.** Every `io_uring_get_sqe` of the loop finds an entry and the reads cover the file, in
    every run, if and only if the file has fewer than `DEPTH * BUF_SIZE` bytes. -/
theorem capacity_iff (st : Stat) : Fits st ↔ getFileSize st < (depth * bufSize : Nat) := by
  constructor
  · intro h
    by_contra hge
    exact not_fits (by omega) h
  · intro hlt source acts s hr
    obtain ⟨hin, hsz⟩ := inLoop_run hr
    rw [← hsz] at hlt ⊢
    refine ⟨fun hpc q => ?_, fun hpc => (hin (.inr hpc)).covers hpc⟩
    rw [IoRing.prep_of_lt ((hin (.inl hpc)).room hpc hlt)]
    rfl

/-- A file of `DEPTH * BUF_SIZE` bytes: the loop makes one turn more than there are entries. -/
theorem capacity_exceeded : ¬ Fits (.regular 4194304) := not_fits (by decide)

end KernelMagic.FileUring
