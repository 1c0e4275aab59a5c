/-
  The invariant of `file_uring.c` when the reads complete with all that the file has for them.

  The offset that each `File_data` records is never used: the data of a completion goes to the end of
  the destination. So the destination is the pieces of the source in the order of their arrival, as
  far as they have been consumed (`Inv.consumed`), and at the end all of them (`Inv.dest_eq`).
-/
import KernelMagic.Lib.Owned
import KernelMagic.FileUring.Main

namespace KernelMagic.FileUring

open KernelMagic.Lib

/-- A read completes with all bytes that the file of `size` bytes has for it, a submit takes all
    queued requests and a write is complete. -/
def Full (size : Nat) (s : State) : Act → Prop
  | .complete i res => ∀ q ∈ s.ring.inflight[i]?, res = (min bufSize (size - q.offset) : Nat)
  | .prog a => a.submit = .all ∧ a.written = none

instance (size : Nat) : (s : State) → (a : Act) → Decidable (Full size s a)
  | s, .complete i res => inferInstanceAs (Decidable
      (∀ q ∈ s.ring.inflight[i]?, res = (min bufSize (size - q.offset) : Nat)))
  | _, .prog a => inferInstanceAs (Decidable (a.submit = .all ∧ a.written = none))

/-- Neither `malloc` nor `io_uring_wait_cqe` fails. -/
def Act.CallsSucceed : Act → Prop
  | .complete _ _ => True
  | .prog a => a.malloc = true ∧ a.cqeErr = 0

/-- The number of reads that are queued. -/
def count (size : Nat) : Nat := size / bufSize + 1

/-- Their offsets. -/
def offsets (k : Nat) : List Nat := (List.range k).map (· * bufSize)

/-- The pieces of the source at the given offsets, one behind the other. -/
def pieces (source : List UInt8) (l : List Nat) : List UInt8 :=
  (l.map fun o => pread source o bufSize).flatten

structure JobOk (source : List UInt8) (c : Cqe Req) (d : FileData) : Prop where
  res : c.res ≤ (source.length - c.req.offset : Nat)
  loaded : Loaded source d.data c.req.offset c.res.toNat

/-- The reads are being queued. -/
structure Queueing (size : Nat) (s : State) : Prop where
  inflight : s.ring.inflight = []
  cq : s.ring.cq = []
  sq : s.ring.sq.map Req.offset = offsets s.i
  offset : s.offset = s.i * bufSize
  arrived : s.arrived = []

/-- The reads have been submitted. -/
structure Receiving (size : Nat) (s : State) : Prop where
  sq : s.ring.sq = []
  all : (s.ring.inflight.map Req.offset ++ s.arrived).Perm (offsets (count size))
  ret : s.ret = count size

def Phase (size : Nat) (s : State) : Prop :=
  match s.pc with
  | .queue => Queueing size s ∧ s.offset ≤ size
  | .submit => Queueing size s ∧ s.i = count size
  | .recv => Receiving size s
  | .exit n => n = 0 → Receiving size s ∧ s.ret ≤ s.j
  | .fault => True

structure Inv (source : List UInt8) (s : State) : Prop where
  owned : Owned (fun c : Cqe Req => c.req.data) (JobOk source) s.heap s.ring.pending
  full : ∀ c ∈ s.ring.cq, c.res = (min bufSize (source.length - c.req.offset) : Nat)
  size : s.fileSz = source.length
  entries : s.ring.entries = depth
  /-- What has been consumed, and what is still in the completion queue. -/
  consumed : ∃ l, s.arrived = l ++ s.ring.cq.map (fun c => c.req.offset) ∧ l.length = s.j ∧
    s.dest = pieces source l
  phase : Phase source.length s

theorem inv_init (source : List UInt8) : Inv source (init (.regular source.length)) where
  owned := Owned.empty _ _
  full := by simp [init]
  size := rfl
  entries := rfl
  consumed := ⟨[], rfl, rfl, rfl⟩
  phase := ⟨⟨rfl, rfl, rfl, by simp [init], rfl⟩, Nat.zero_le _⟩

variable {source : List UInt8} {s s' : State} {a : Answers}

/-! ## One step -/

theorem offsets_succ (k : Nat) : offsets (k + 1) = offsets k ++ [k * bufSize] := by
  unfold offsets
  rw [List.range_succ, List.map_append, List.map_singleton]

/-- The test behind the loop body stops it at the right count. -/
theorem count_eq {size k : Nat} (h1 : k * bufSize ≤ size) (h2 : size < (k + 1) * bufSize) :
    k + 1 = count size := by
  unfold count
  rw [Nat.div_eq_of_lt_le h1 h2]

theorem Queueing.length {size : Nat} (hq : Queueing size s) : s.ring.sq.length = s.i := by
  have := congrArg List.length hq.sq
  rwa [List.length_map, offsets, List.length_map, List.length_range] at this

theorem queueStep_inv (hi : Inv source s) (hpc : s.pc = .queue) : Inv source (queueStep s a) := by
  have hph := hi.phase
  simp only [Phase, hpc] at hph
  obtain ⟨hq, hle⟩ := hph
  obtain ⟨l, hl, hj, hd⟩ := hi.consumed
  unfold queueStep
  split
  · unfold IoRing.prep
    by_cases hroom : s.ring.sq.length < s.ring.entries
    · simp only [if_pos hroom]
      have hpend := IoRing.pending_prep s.ring ⟨s.offset, s.heap.next⟩
      have hnext : Queueing source.length { s with
          heap := s.heap.alloc ⟨s.i, s.offset, fun _ => 0⟩
          ring := { s.ring with sq := s.ring.sq ++ [⟨s.offset, s.heap.next⟩] }
          posted := s.posted ++ [⟨true, s.offset, bufSize⟩]
          offset := s.offset + bufSize
          i := s.i + 1
          pc := if ((s.offset + bufSize : Nat) : Int) > s.fileSz then .submit else .queue } := by
        refine ⟨hq.inflight, hq.cq, ?_, ?_, hq.arrived⟩
        · simp only [List.map_append, List.map_cons, List.map_nil, hq.sq, offsets_succ, hq.offset]
        · simp only [hq.offset, Nat.succ_mul]
      refine ⟨?_, hi.full, hi.size, hi.entries, ⟨l, hl, hj, hd⟩, ?_⟩
      · simp only [hpend]
        refine hi.owned.start rfl ⟨by simp, ?_⟩
        exact loaded_zero _ _ _
      · have hsz := hi.size
        have ho := hq.offset
        have e : (s.i + 1) * bufSize = s.i * bufSize + bufSize := Nat.succ_mul _ _
        unfold Phase
        split
        · next hpc' =>
          refine ⟨hnext, ?_⟩
          simp only at hpc' ⊢
          split at hpc'
          · cases hpc'
          · omega
        · next hpc' =>
          refine ⟨hnext, ?_⟩
          simp only at hpc' ⊢
          split at hpc'
          · exact count_eq (by omega) (by omega)
          · cases hpc'
        · next hpc' => simp only at hpc'; split at hpc' <;> cases hpc'
        · next hpc' => simp only at hpc'; split at hpc' <;> cases hpc'
        · trivial
    · simp only [if_neg hroom]
      exact ⟨hi.owned, hi.full, hi.size, hi.entries, hi.consumed, trivial⟩
  · exact ⟨hi.owned, hi.full, hi.size, hi.entries, hi.consumed, trivial⟩

theorem submitStep_inv (hi : Inv source s) (hpc : s.pc = .submit) (ha : a.submit = .all) :
    Inv source (submitStep s a) := by
  have hph := hi.phase
  simp only [Phase, hpc] at hph
  obtain ⟨hq, hcount⟩ := hph
  obtain ⟨l, hl, -, hd⟩ := hi.consumed
  have hlen : s.ring.sq.length = count source.length := by rw [hq.length, hcount]
  have hnil : l = [] := by
    rw [hq.arrived] at hl
    exact (List.append_eq_nil_iff.mp hl.symm).1
  unfold submitStep
  rw [ha, IoRing.submit_all]
  refine ⟨?_, hi.full, hi.size, hi.entries, ⟨l, hl, by rw [hnil]; rfl, hd⟩, ?_⟩
  · have hpend := IoRing.pending_submit_all s.ring
    rw [IoRing.submit_all] at hpend
    simp only [hpend]
    exact hi.owned
  · have hpos : ¬ ((s.ring.sq.length : Int) < 0) := by omega
    unfold Phase
    simp only [if_neg hpos]
    refine ⟨rfl, ?_, by simp only [hlen]⟩
    simp only [hq.inflight, hq.arrived, List.nil_append, List.append_nil, hq.sq, hcount]
    exact List.Perm.refl _

theorem JobOk.grab_eq {c : Cqe Req} {d : FileData} (hj : JobOk source c d)
    (hres : c.res = (min bufSize (source.length - c.req.offset) : Nat)) :
    grab d.data 0 c.res.toNat = pread source c.req.offset bufSize := by
  have hl := hj.loaded
  have h : grab d.data 0 c.res.toNat = pread source c.req.offset c.res.toNat :=
    Loaded.grab (by rw [Nat.zero_add]; exact hl)
  rw [h, hres, Int.toNat_natCast, pread, pread, List.take_eq_take_iff, List.length_drop]
  omega

theorem recvStep_inv (hi : Inv source s) (hpc : s.pc = .recv) (ha : a.written = none)
    (h : recvStep s a = some s') : Inv source s' := by
  have hph := hi.phase
  simp only [Phase, hpc] at hph
  unfold recvStep at h
  split at h
  · split at h
    · cases h
      exact ⟨hi.owned, hi.full, hi.size, hi.entries, hi.consumed, by simp [Phase]⟩
    · obtain ⟨c, hc, rfl⟩ := Option.map_eq_some_iff.mp h
      obtain ⟨cs, hcq⟩ := List.head?_eq_some_iff.mp hc
      have hm : c ∈ s.ring.cq := IoRing.head_mem_cq hcq
      have hres := hi.full c hm
      obtain ⟨d, hd, hj⟩ := hi.owned.job c (IoRing.mem_pending_of_cq hm)
      have hneg : ¬ c.res < 0 := by omega
      have hw : writeRet c.res a = c.res := by
        unfold writeRet
        rw [if_neg hneg, ha, Option.getD_none]
      have howned := hi.owned
      rw [IoRing.pending_advance hcq] at howned
      unfold recvDone
      rw [hd]
      simp only [hw, if_neg hneg, Nat.min_self]
      refine ⟨howned.retire, fun e he => hi.full e (List.mem_of_mem_drop he), hi.size, hi.entries,
        ?_, ?_⟩
      · obtain ⟨l, hl, hlj, hld⟩ := hi.consumed
        refine ⟨l ++ [c.req.offset], ?_, ?_, ?_⟩
        · rw [hcq, List.map_cons] at hl
          simp only [IoRing.advance, hcq, List.drop_succ_cons, List.drop_zero, hl, List.append_assoc,
            List.singleton_append]
        · simp only [List.length_append, hlj, List.length_cons, List.length_nil]
        · simp only [hld, hj.grab_eq hres, pieces, List.map_append, List.flatten_append,
            List.map_cons, List.map_nil, List.flatten_cons, List.flatten_nil, List.append_nil]
      · simp only [Phase, hpc]
        exact ⟨hph.sq, hph.all, hph.ret⟩
  · next hlt =>
    cases h
    refine ⟨hi.owned, hi.full, hi.size, hi.entries, hi.consumed, ?_⟩
    simp only [Phase]
    exact fun _ => ⟨⟨hph.sq, hph.all, hph.ret⟩, by omega⟩

/-- A completion moves an offset from the requests in flight to the arrivals. -/
theorem Receiving.complete {size : Nat} (hr : Receiving size s) {i : Nat} {q : Req}
    (hq : s.ring.inflight[i]? = some q) {res : Int} (h1 : s'.ring = { s.ring with
      inflight := s.ring.inflight.eraseIdx i, cq := s.ring.cq ++ [⟨q, res⟩] })
    (h2 : s'.arrived = s.arrived ++ [q.offset]) (h3 : s'.ret = s.ret) : Receiving size s' := by
  refine ⟨by rw [h1]; exact hr.sq, ?_, by rw [h3]; exact hr.ret⟩
  obtain ⟨hi, rfl⟩ := List.getElem?_eq_some_iff.mp hq
  have hp := (List.getElem_cons_eraseIdx_perm hi).map Req.offset
  rw [List.map_cons] at hp
  refine List.Perm.trans ?_ hr.all
  rw [h1, h2, ← List.append_assoc]
  exact (List.perm_append_singleton _ _).trans (hp.append_right s.arrived)

theorem kernelStep_inv (hi : Inv source s) {i : Nat} {res : Int}
    (hf : Full source.length s (.complete i res)) (h : kernelStep source s i res = some s') :
    Inv source s' := by
  unfold kernelStep at h
  obtain ⟨q, hq, h⟩ := Option.bind_eq_some_iff.mp h
  obtain rfl := hf q hq
  obtain ⟨P, hP, hP'⟩ := IoRing.pending_complete hq
    ((min bufSize (source.length - q.offset) : Nat) : Int)
  have howned := hi.owned
  rw [hP] at howned
  obtain ⟨d, hd, -⟩ := howned.job _ (Multiset.mem_cons_self _ _)
  simp only at hd
  rw [hd] at h
  simp only [Int.toNat_natCast] at h
  split at h
  · cases h
  · simp only [IoRing.complete, hq, Option.map_some] at h
    cases h
    refine ⟨?_, ?_, hi.size, hi.entries, ?_, ?_⟩
    · simp only [hP']
      refine howned.update hd rfl ⟨by simp only; omega, ?_⟩ fun _ _ _ hx => hx
      have hfit : q.offset + 0 + min bufSize (source.length - q.offset) ≤ source.length ∨
          min bufSize (source.length - q.offset) = 0 := by omega
      simp only [Int.toNat_natCast, FileData.store]
      rcases hfit with hfit | hz
      · have hb := (loaded_zero source d.data q.offset).blit _ hfit
        simpa using hb
      · rw [hz]
        exact loaded_zero _ _ _
    · exact List.forall_mem_append.mpr ⟨hi.full, List.forall_mem_singleton.mpr rfl⟩
    · obtain ⟨l, hl, hlj, hld⟩ := hi.consumed
      refine ⟨l, ?_, hlj, hld⟩
      simp only [hl, List.map_append, List.map_cons, List.map_nil, List.append_assoc]
    · have hph := hi.phase
      have hne : s.ring.inflight ≠ [] := List.ne_nil_of_mem (List.mem_of_getElem? hq)
      unfold Phase at hph ⊢
      cases hpc : s.pc with
      | queue =>
        rw [hpc] at hph
        exact absurd hph.1.inflight hne
      | submit =>
        rw [hpc] at hph
        exact absurd hph.1.inflight hne
      | recv =>
        rw [hpc] at hph
        exact hph.complete hq rfl rfl rfl
      | exit n =>
        rw [hpc] at hph
        exact fun hn => ⟨(hph hn).1.complete hq rfl rfl rfl, (hph hn).2⟩
      | fault => trivial

theorem inv_step (hi : Inv source s) {a : Act} (hf : Full source.length s a)
    (h : step source s a = some s') : Inv source s' := by
  cases a with
  | complete i res => exact kernelStep_inv hi hf h
  | prog a =>
    unfold step progStep at h
    simp only at h
    split at h
    · next hpc =>
      cases h
      exact queueStep_inv hi hpc
    · next hpc =>
      cases h
      exact submitStep_inv hi hpc hf.1
    · next hpc => exact recvStep_inv hi hpc hf.2 h
    · cases h
    · cases h

/-- At the end the destination is the pieces of the source in the order of their arrival. -/
theorem Inv.dest_eq (hi : Inv source s) (hpc : s.pc = .exit 0) :
    s.dest = pieces source s.arrived ∧ s.arrived.Perm (offsets (count source.length)) := by
  have hph := hi.phase
  simp only [Phase, hpc] at hph
  obtain ⟨hr, hle⟩ := hph trivial
  obtain ⟨l, hl, hlj, hld⟩ := hi.consumed
  have hlen := hr.all.length_eq
  have hret := hr.ret
  rw [hl] at hlen
  simp only [offsets, List.length_append, List.length_map, List.length_range] at hlen
  have hinf : s.ring.inflight = [] := List.eq_nil_of_length_eq_zero (by omega)
  have hcq : s.ring.cq = [] := List.eq_nil_of_length_eq_zero (by omega)
  rw [hcq, List.map_nil, List.append_nil] at hl
  have hall := hr.all
  rw [hinf, List.map_nil, List.nil_append] at hall
  exact ⟨by rw [hl]; exact hld, hall⟩

end KernelMagic.FileUring
