/-
  Loops that go from position to position: `walk more next` visits a position as long as `more` holds
  there and goes on at `next`, which may fault. `Visits more next s ps e` says that from `s` it visits
  `ps` and ends at `e`; then `walk` returns just that, with as many turns allowed as it needs.

  `starts size off rs` are the positions of records of different sizes that lie back to back.
-/
import Mathlib

namespace KernelMagic.Lib

variable {σ ρ : Type}

/-- The positions visited and the one it ends at; `none` for a fault, or when `fuel` turns are not
    enough. -/
def walk (more : σ → Bool) (next : σ → Option σ) : Nat → σ → Option (List σ × σ)
  | 0, _ => none
  | fuel + 1, s =>
    if more s then (next s).bind fun s' => (walk more next fuel s').map fun (ps, e) => (s :: ps, e)
    else some ([], s)

inductive Visits (more : σ → Bool) (next : σ → Option σ) : σ → List σ → σ → Prop where
  | stop {s : σ} (h : more s = false) : Visits more next s [] s
  | turn {s s' e : σ} {ps : List σ} (h : more s = true) (hn : next s = some s')
    (hv : Visits more next s' ps e) : Visits more next s (s :: ps) e

theorem Visits.walk_eq {more : σ → Bool} {next : σ → Option σ} {s e : σ} {ps : List σ}
    (h : Visits more next s ps e) {fuel : Nat} (hf : ps.length < fuel) :
    walk more next fuel s = some (ps, e) := by
  induction h generalizing fuel with
  | stop hm =>
    obtain ⟨n, rfl⟩ := Nat.exists_eq_add_of_lt hf
    rw [List.length_nil, Nat.zero_add, walk, hm]
    rfl
  | turn hm hn hv ih =>
    rw [List.length_cons] at hf
    obtain ⟨n, rfl⟩ : ∃ n, fuel = n + 1 := ⟨fuel - 1, by omega⟩
    rw [walk, if_pos hm, hn, Option.bind_some, ih (by omega)]
    rfl

/-! ## Records back to back -/

def starts (size : ρ → Nat) : Nat → List ρ → List Nat
  | _, [] => []
  | off, r :: rs => off :: starts size (off + size r) rs

theorem length_starts (size : ρ → Nat) (off : Nat) (rs : List ρ) :
    (starts size off rs).length = rs.length := by
  induction rs generalizing off with
  | nil => rfl
  | cons r rs ih => rw [starts, List.length_cons, ih, List.length_cons]

/-- Each record lies between the first position and the end of the last. -/
theorem mem_starts {size : ρ → Nat} {off p : Nat} {rs : List ρ} (h : p ∈ starts size off rs) :
    ∃ r ∈ rs, off ≤ p ∧ p + size r ≤ off + (rs.map size).sum := by
  induction rs generalizing off with
  | nil => exact absurd h List.not_mem_nil
  | cons r rs ih =>
    rw [List.map_cons, List.sum_cons]
    rcases List.mem_cons.mp h with rfl | h
    · exact ⟨r, List.mem_cons_self, Nat.le_refl _, by omega⟩
    · obtain ⟨r', hr', hle, hend⟩ := ih h
      exact ⟨r', List.mem_cons_of_mem r hr', by omega, by omega⟩

end KernelMagic.Lib
