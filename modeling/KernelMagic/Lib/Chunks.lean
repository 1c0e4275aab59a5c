/-
  Cutting `[0, n)` into chunks of `B`. Chunk `i` starts at `i * B` and has `B` cells, the last one
  what is left. `Cut B n cs off` says that `cs` is the list of the first chunks, none of them empty,
  and that they reach up to `off`; a loop that takes `min B (n - off)` at a time keeps it
  (`Cut.snoc`), and when it has reached `n` there are `⌈n / B⌉` chunks (`Cut.length_eq`).

  `Io` is the record of one transfer; a chunk is transferred by the read `asRead` and the write
  `asWrite`.
-/
import Mathlib

namespace KernelMagic.Lib

/-- Chunk `i`: its position and its length. -/
def chunkAt (B n i : Nat) : Nat × Nat := (i * B, min B (n - i * B))

/-- The first `k` chunks. -/
def chunks (B n k : Nat) : List (Nat × Nat) := (List.range k).map (chunkAt B n)

structure Cut (B n : Nat) (cs : List (Nat × Nat)) (off : Nat) : Prop where
  eq : cs = chunks B n cs.length
  off_eq : off = min (cs.length * B) n
  ne : ∀ i < cs.length, i * B < n

/-- One transfer that a program has asked for: its direction, position and length. -/
structure Io where
  read : Bool
  offset : Nat
  len : Nat
  deriving DecidableEq, Repr

def asRead (c : Nat × Nat) : Io := ⟨true, c.1, c.2⟩

def asWrite (c : Nat × Nat) : Io := ⟨false, c.1, c.2⟩

theorem chunks_succ (B n k : Nat) : chunks B n (k + 1) = chunks B n k ++ [chunkAt B n k] := by
  simp [chunks, List.range_succ]

variable {B n off : Nat} {cs : List (Nat × Nat)}

theorem Cut.nil (B n : Nat) : Cut B n [] 0 := ⟨rfl, by simp, by simp⟩

theorem Cut.off_le (h : Cut B n cs off) : off ≤ n := by
  rw [h.off_eq]
  exact Nat.min_le_right _ _

/-- One more turn of the loop that cuts off `min B (n - off)`. -/
theorem Cut.snoc (h : Cut B n cs off) (hlt : off < n) :
    Cut B n (cs ++ [(off, min B (n - off))]) (off + min B (n - off)) := by
  have ho := h.off_eq
  have hk : off = cs.length * B := by omega
  have hl : (cs ++ [(off, min B (n - off))]).length = cs.length + 1 := by simp
  refine ⟨?_, ?_, ?_⟩
  · rw [hl, chunks_succ, ← h.eq, chunkAt, ← hk]
  · rw [hl, Nat.add_one_mul, ← hk]
    omega
  · intro i hi
    rw [hl] at hi
    rcases Nat.lt_succ_iff_lt_or_eq.mp hi with hi | hi
    · exact h.ne i hi
    · rw [hi, ← hk]
      exact hlt

theorem Cut.getElem?_eq (h : Cut B n cs off) {i : Nat} {c : Nat × Nat} (hc : cs[i]? = some c) :
    i < cs.length ∧ c = chunkAt B n i := by
  obtain ⟨hi, hc'⟩ := List.getElem?_eq_some_iff.mp hc
  refine ⟨hi, ?_⟩
  rw [h.eq, chunks, List.getElem?_map, List.getElem?_range hi] at hc
  exact (Option.some.inj hc).symm

theorem Cut.mem (h : Cut B n cs off) {c : Nat × Nat} (hc : c ∈ cs) :
    ∃ i < cs.length, c = chunkAt B n i := by
  obtain ⟨i, hi⟩ := List.mem_iff_getElem?.mp hc
  exact ⟨i, h.getElem?_eq hi⟩

/-- Every chunk has between 1 and `B` cells. -/
theorem Cut.size (h : Cut B n cs off) (hB : 0 < B) {c : Nat × Nat} (hc : c ∈ cs) :
    0 < c.2 ∧ c.2 ≤ B := by
  obtain ⟨i, hi, rfl⟩ := h.mem hc
  have := h.ne i hi
  simp only [chunkAt]
  omega

/-- Each chunk starts where the one before it ends. -/
theorem Cut.consecutive (h : Cut B n cs off) {i : Nat} {c c' : Nat × Nat}
    (hc : cs[i]? = some c) (hc' : cs[i + 1]? = some c') : c.1 + c.2 = c'.1 := by
  obtain ⟨-, rfl⟩ := h.getElem?_eq hc
  obtain ⟨hi', rfl⟩ := h.getElem?_eq hc'
  have := h.ne (i + 1) hi'
  have e := Nat.add_one_mul i B
  simp only [chunkAt]
  omega

theorem Cut.disjoint (h : Cut B n cs off) :
    cs.Pairwise fun c c' => c.1 + c.2 ≤ c'.1 := by
  rw [h.eq, chunks, List.pairwise_map]
  refine List.Pairwise.imp ?_ List.pairwise_lt_range
  intro i j hij
  have := Nat.mul_le_mul_right B (Nat.succ_le_of_lt hij)
  have e := Nat.succ_mul i B
  simp only [chunkAt]
  omega

/-- The chunks cover exactly `[0, off)`. -/
theorem Cut.cover (h : Cut B n cs off) (hB : 0 < B) (p : Nat) :
    p < off ↔ ∃ c ∈ cs, c.1 ≤ p ∧ p < c.1 + c.2 := by
  have ho := h.off_eq
  constructor
  · intro hp
    have hmod := Nat.div_add_mod p B
    have hlt := Nat.mod_lt p hB
    have hi : p / B < cs.length := Nat.div_lt_of_lt_mul (by rw [Nat.mul_comm]; omega)
    refine ⟨chunkAt B n (p / B), ?_, ?_⟩
    · rw [h.eq, chunks]
      exact List.mem_map_of_mem (List.mem_range.mpr hi)
    · rw [Nat.mul_comm] at hmod
      simp only [chunkAt]
      omega
  · rintro ⟨c, hc, h1, h2⟩
    obtain ⟨i, hi, rfl⟩ := h.mem hc
    have hne := h.ne i hi
    have hm := Nat.mul_le_mul_right B (Nat.succ_le_of_lt hi)
    have e := Nat.succ_mul i B
    simp only [chunkAt] at h1 h2
    omega

/-- A complete cut has `⌈n / B⌉` chunks. -/
theorem Cut.length_eq (h : Cut B n cs n) (hB : 0 < B) : cs.length = (n + B - 1) / B := by
  have ho := h.off_eq
  have hle : n ≤ cs.length * B := by omega
  symm
  rw [Nat.div_eq_iff hB]
  cases hk : cs.length with
  | zero =>
    rw [hk] at hle
    omega
  | succ k =>
    have hne := h.ne k (by omega)
    have e := Nat.succ_mul k B
    rw [hk] at hle
    rw [e] at hle ⊢
    omega

end KernelMagic.Lib
