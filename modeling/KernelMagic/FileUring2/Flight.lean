/-
  The requests of `copy_file` that are under way, apart from its counters and its control.

  `JobOk source dest c d` is what holds of a pending request `c` and the `io_data` `d` it points to:
  the iovec is the part of the chunk that is still to be moved, in the read phase the part before it
  holds the source, in the write phase the whole chunk does and the part before it is copied.
  `Flight` adds that each pending request owns its record and that nothing else is live.

  Every step of the machine changes one pending request and its record: it is started
  (`Flight.start`), changed (`Flight.update`, with one `JobOk` lemma for each way to change it) or
  retired (`Flight.retire`). Nothing here mentions the program's control, so both loops use it.
-/
import KernelMagic.Lib.Owned
import KernelMagic.FileUring2.CopyFile

namespace KernelMagic.FileUring2

open KernelMagic.Lib

structure JobOk (source dest : List UInt8) (c : Cqe Req) (d : IoData) : Prop where
  read : c.req.read = d.read
  offset : c.req.offset = d.offset
  start : d.offset = d.firstOffset + d.iov.iovBase
  rest : d.iov.iovBase + d.iov.iovLen = d.firstLen
  left : 0 < d.iov.iovLen
  res : c.res ≤ d.iov.iovLen
  loaded : Loaded source d.buf d.firstOffset
    (if d.read then d.iov.iovBase + c.res.toNat else d.firstLen)
  copied : d.read = false → ∀ p, d.firstOffset ≤ p → p < d.offset + c.res.toNat →
    Copied source dest p

structure Flight (source : List UInt8) (h : Heap IoData) (P : Multiset (Cqe Req))
    (dest : List UInt8) : Prop where
  owned : Owned (fun c => c.req.data) (JobOk source dest) h P
  dest_le : dest.length ≤ source.length

/-- The destination only gains copied bytes. -/
def Gains (source dest dest' : List UInt8) : Prop :=
  ∀ p, Copied source dest p → Copied source dest' p

theorem Gains.refl (source dest : List UInt8) : Gains source dest dest := fun _ h => h

variable {source dest dest' : List UInt8} {h : Heap IoData} {P : Multiset (Cqe Req)}
  {c c' : Cqe Req} {q : Req} {d d' : IoData} {res : Int}

/-! ## One job -/

theorem JobOk.mono (hj : JobOk source dest c d) (hg : Gains source dest dest') :
    JobOk source dest' c d :=
  { hj with copied := fun hr p h1 h2 => hg p (hj.copied hr p h1 h2) }

/-- A job whose request has not moved anything (again): just queued, or failed. -/
theorem JobOk.again (hj : JobOk source dest c d) {n : Int} (hn : n ≤ 0) :
    JobOk source dest ⟨⟨d.read, d.offset, c.req.data⟩, n⟩ d where
  read := rfl
  offset := rfl
  start := hj.start
  rest := hj.rest
  left := hj.left
  res := by simp only; omega
  loaded := by
    have hz : n.toNat = 0 := by omega
    refine hj.loaded.mono ?_
    simp only [hz]
    split <;> omega
  copied := fun hr p h1 h2 => hj.copied hr p h1 (by simp only at h2; omega)

theorem JobOk.req_eq (hj : JobOk source dest c d) :
    (⟨d.read, d.offset, c.req.data⟩ : Req) = c.req := by
  rw [← hj.read, ← hj.offset]

/-- The request has failed and has moved nothing. -/
theorem JobOk.fail (hj : JobOk source dest ⟨q, 0⟩ d) (hn : res < 0) :
    JobOk source dest ⟨q, res⟩ d := by
  have h := hj.again (Int.le_of_lt hn)
  rwa [hj.req_eq] at h

/-- The kernel has read `res` bytes into the buffer. -/
theorem JobOk.store (hj : JobOk source dest ⟨q, 0⟩ d) (hr : q.read = true)
    (hle : res ≤ d.iov.iovLen)
    (hlen : (pread source q.offset res.toNat).length = res.toNat) :
    JobOk source dest ⟨q, res⟩ (d.store (pread source q.offset res.toNat)) where
  read := hj.read
  offset := hj.offset
  start := hj.start
  rest := hj.rest
  left := hj.left
  res := hle
  loaded := by
    have hd : d.read = true := by rw [← hj.read]; exact hr
    have ho : q.offset = d.firstOffset + d.iov.iovBase := by
      rw [← hj.start]
      exact hj.offset
    have hl : Loaded source d.buf d.firstOffset d.iov.iovBase := by
      have := hj.loaded
      rw [if_pos hd] at this
      exact this
    have hfit : d.firstOffset + d.iov.iovBase + res.toNat ≤ source.length ∨ res.toNat = 0 := by
      rw [pread, List.length_take, List.length_drop] at hlen
      omega
    simp only [IoData.store, hd, if_true, ho]
    rcases hfit with hfit | hz
    · exact hl.blit res.toNat hfit
    · rw [hz]
      have : blit d.buf d.iov.iovBase (pread source (d.firstOffset + d.iov.iovBase) 0) = d.buf := by
        funext i
        simp [blit, pread]
      rw [this]
      exact hl
  copied := fun hf => by
    have hd : d.read = true := by rw [← hj.read]; exact hr
    simp [IoData.store, hd] at hf

/-- The bytes a write request moves are those of the source at its offset. -/
theorem JobOk.grab_eq (hj : JobOk source dest ⟨q, 0⟩ d) (hr : q.read = false)
    (hle : res ≤ d.iov.iovLen) :
    grab d.buf d.iov.iovBase res.toNat = pread source q.offset res.toNat ∧
      q.offset + res.toNat ≤ source.length ∧ q.offset = d.offset := by
  have hd : d.read = false := by rw [← hj.read]; exact hr
  have hl : Loaded source d.buf d.firstOffset d.firstLen := by
    have := hj.loaded
    rw [if_neg (by simp [hd])] at this
    exact this
  have ho : q.offset = d.offset := hj.offset
  have hrest := hj.rest
  have hleft := hj.left
  have hstart := hj.start
  refine ⟨?_, ?_, ho⟩
  · rw [ho, hstart]
    exact (hl.mono (by omega)).grab
  · have hlast := hl (d.firstLen - 1) (by omega)
    have hlt := (List.getElem?_eq_some_iff.mp hlast).1
    omega

/-- The kernel has written `res` bytes to the destination. -/
theorem JobOk.pwrite (hj : JobOk source dest ⟨q, 0⟩ d) (hr : q.read = false)
    (hle : res ≤ d.iov.iovLen) :
    JobOk source (pwrite 0 dest q.offset (grab d.buf d.iov.iovBase res.toNat)) ⟨q, res⟩ d := by
  have hd : d.read = false := by rw [← hj.read]; exact hr
  obtain ⟨hg, hfit, ho⟩ := hj.grab_eq hr hle
  refine ⟨hj.read, hj.offset, hj.start, hj.rest, hj.left, hle, ?_, ?_⟩
  · have := hj.loaded
    simp only [hd, Bool.false_eq_true, if_false] at this ⊢
    exact this
  · intro _ p h1 h2
    rw [hg]
    by_cases hp : q.offset ≤ p
    · exact copied_pwrite_mid 0 source dest q.offset res.toNat p hfit hp (by rw [ho]; exact h2)
    · exact (hj.copied hd p h1 (by simp; omega)).pwrite 0 q.offset res.toNat hfit

/-- The short-transfer branch: the rest of the job, queued again. -/
theorem JobOk.resume (hj : JobOk source dest c d) (hne : c.res.toNat ≠ d.iov.iovLen) :
    JobOk source dest ⟨⟨d.read, d.offset + c.res.toNat, c.req.data⟩, 0⟩
      (d.resume c.res.toNat) := by
  have hres := hj.res
  have hrest := hj.rest
  have hstart := hj.start
  refine ⟨rfl, rfl, ?_, ?_, ?_, ?_, ?_, ?_⟩
  · simp only [IoData.resume]
    omega
  · simp only [IoData.resume]
    omega
  · simp only [IoData.resume]
    omega
  · simp
  · have := hj.loaded
    simpa [IoData.resume] using this
  · intro hr p h1 h2
    simp only [IoData.resume] at hr h1 h2
    exact hj.copied hr p h1 (by simpa using h2)

/-- `queue_write` on a job whose read is complete. -/
theorem JobOk.toWrite (hj : JobOk source dest c d) (hr : d.read = true)
    (he : c.res.toNat = d.iov.iovLen) :
    JobOk source dest ⟨⟨false, d.firstOffset, c.req.data⟩, 0⟩ d.toWrite := by
  have hrest := hj.rest
  have hleft := hj.left
  refine ⟨rfl, rfl, rfl, ?_, ?_, ?_, ?_, ?_⟩
  · simp [IoData.toWrite]
  · simp only [IoData.toWrite]
    omega
  · simp [IoData.toWrite]
  · have hl := hj.loaded
    rw [if_pos hr, he, hrest] at hl
    simpa [IoData.toWrite] using hl
  · intro _ p h1 h2
    simp only [IoData.toWrite] at h1 h2
    simp at h2
    omega

/-- A write that is complete has copied its chunk. -/
theorem JobOk.done (hj : JobOk source dest c d) (hr : d.read = false)
    (he : c.res.toNat = d.iov.iovLen) :
    ∀ p, d.firstOffset ≤ p → p < d.firstOffset + d.firstLen → Copied source dest p := by
  intro p h1 h2
  have hrest := hj.rest
  have hstart := hj.start
  exact hj.copied hr p h1 (by omega)

/-! ## All jobs -/

theorem Flight.empty (source : List UInt8) : Flight source Heap.empty 0 [] :=
  ⟨Owned.empty _ _, Nat.zero_le _⟩

theorem Flight.job (hf : Flight source h P dest) (hc : c ∈ P) :
    ∃ d, h.cell c.req.data = some d ∧ JobOk source dest c d := hf.owned.job c hc

theorem Flight.not_mem (hf : Flight source h (c ::ₘ P) dest) (hc : c' ∈ P) :
    c'.req.data ≠ c.req.data := hf.owned.not_mem hc

/-- `queue_read` starts a job. -/
theorem Flight.start (hf : Flight source h P dest) (junk : Nat → UInt8) (size offset : Nat)
    (hs : 0 < size) :
    Flight source (h.alloc ⟨true, offset, offset, size, ⟨0, size⟩, junk⟩)
      (⟨⟨true, offset, h.next⟩, 0⟩ ::ₘ P) dest := by
  refine ⟨hf.owned.start rfl ?_, hf.dest_le⟩
  refine ⟨rfl, rfl, rfl, by simp, hs, by simp, loaded_zero _ _ _, ?_⟩
  intro hr
  cases hr

/-- One job changes, the others stay; the destination may gain bytes. -/
theorem Flight.update (hf : Flight source h (c ::ₘ P) dest) (hd : h.cell c.req.data = some d)
    (hdata : c'.req.data = c.req.data) (hj : JobOk source dest' c' d')
    (hg : Gains source dest dest') (hl : dest'.length ≤ source.length) :
    Flight source (h.put c.req.data d') (c' ::ₘ P) dest' :=
  ⟨hf.owned.update hd hdata hj fun _ _ _ hx => hx.mono hg, hl⟩

/-- A job is over and its record is freed. -/
theorem Flight.retire (hf : Flight source h (c ::ₘ P) dest) :
    Flight source (h.free c.req.data) P dest :=
  ⟨hf.owned.retire, hf.dest_le⟩

end KernelMagic.FileUring2
