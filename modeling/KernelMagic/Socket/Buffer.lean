/-
  The one buffer of `main`, which every recv fills from its start and every send reads from its start.

  What a recv has delivered is needed until the loop has processed its completion, and in
  `socket_uring_normal.c` on until the send that answers it has completed: a request is `busy` while
  the buffer holds bytes on its account. `Quiet` is the condition on the clients under which they do
  not disturb each other: no recv delivers bytes while another request is busy. The invariant `Clean`
  then says that at most one request is busy, and that its bytes are at the start of the buffer. Here
  is how the kernel and the accepts keep it; what the programs do with it is theirs.
-/
import KernelMagic.Socket.Steps

namespace KernelMagic.Socket

open KernelMagic.Lib

/-- Bytes in the buffer are on account of this request. -/
def busy (x : Req × Option Int) : Bool :=
  match x.1.op, x.2 with
  | .send _, none => true
  | .recv _, some r => decide (0 < r)
  | _, _ => false

/-- How many bytes those are. -/
def span (x : Req × Option Int) : Nat :=
  match x.1.op, x.2 with
  | .send n, none => n
  | .recv _, some r => r.toNat
  | _, _ => 0

/-- No recv delivers bytes while another request is busy. -/
def Quiet (s : State) : Act → Prop
  | .complete i res _ =>
    ∀ q ∈ s.ring.inflight[i]?, busy (q, some res) = true → ∀ y ∈ todo s, busy y = false
  | .prog _ => True

instance decidableQuiet (s : State) : (a : Act) → Decidable (Quiet s a)
  | .complete i res _ =>
    inferInstanceAs (Decidable (∀ q ∈ s.ring.inflight[i]?, busy (q, some res) = true →
      ∀ y ∈ todo s, busy y = false))
  | .prog _ => isTrue trivial

structure Clean (P : Multiset (Req × Option Int)) (buf : List UInt8) : Prop where
  once : P.countP (fun x => busy x = true) ≤ 1
  held : ∀ x ∈ P, busy x = true → x.1.tag.bytes <+: buf ∧ x.1.tag.bytes.length = span x

variable {env : Env} {R : Service} {s : State} {w w' : World} {q q' : Req} {c : Cqe Req}
  {P : Multiset (Req × Option Int)} {x y : Req × Option Int} {buf : List UInt8}

theorem Clean.rest (h : Clean (x ::ₘ P) buf) : Clean P buf :=
  ⟨(Multiset.countP_le_of_le _ (Multiset.le_cons_self P x)).trans h.once,
    fun y hy => h.held y (Multiset.mem_cons_of_mem hy)⟩

theorem Clean.idle (h : Clean P buf) (hx : busy x = false) : Clean (x ::ₘ P) buf := by
  refine ⟨?_, ?_⟩
  · rw [Multiset.countP_cons_of_neg _ (by simp [hx])]
    exact h.once
  · rw [Multiset.forall_mem_cons]
    exact ⟨fun hb => absurd (hx.symm.trans hb) (by decide), h.held⟩

/-- No other request is busy. -/
theorem Clean.others (h : Clean (x ::ₘ P) buf) (hx : busy x = true) :
    ∀ y ∈ P, busy y = false := by
  have h1 := h.once
  rw [Multiset.countP_cons, if_pos hx] at h1
  have h0 : P.countP (fun x => busy x = true) = 0 := by omega
  intro y hy
  exact Bool.not_eq_true _ ▸ Multiset.countP_eq_zero.mp h0 y hy

theorem clean_of_idle (h : ∀ y ∈ P, busy y = false) (buf : List UInt8) : Clean P buf := by
  refine ⟨?_, fun y hy hb => absurd ((h y hy).symm.trans hb) (by decide)⟩
  rw [Multiset.countP_eq_zero.mpr fun y hy => by simp [h y hy]]
  exact Nat.zero_le 1

/-- One request is busy. -/
theorem clean_of_busy (h : ∀ y ∈ P, busy y = false)
    (hx : x.1.tag.bytes <+: buf ∧ x.1.tag.bytes.length = span x) : Clean (x ::ₘ P) buf := by
  refine ⟨?_, ?_⟩
  · have h0 := (clean_of_idle h buf).once
    have hz : P.countP (fun x => busy x = true) = 0 :=
      Multiset.countP_eq_zero.mpr fun y hy => by simp [h y hy]
    rw [Multiset.countP_cons, hz]
    split <;> omega
  · rw [Multiset.forall_mem_cons]
    exact ⟨fun _ => hx, (clean_of_idle h buf).held⟩

theorem clean_transfer {res : Int} (h : Clean ((q, none) ::ₘ P) w.buffer)
    (hq : busy (q, some res) = true → ∀ y ∈ P, busy y = false)
    (ht : Transfer env w q res q' w') : Clean ((q', some res) ::ₘ P) w'.buffer := by
  cases ht with
  | nop hop => exact h.rest.idle (by simp [busy, hop])
  | refused res hop hres => exact h.rest.idle (by simp [busy, hop])
  | accepted fd hop hfd ht => exact h.rest.idle (by simp [busy, Req.owned, hop])
  | failed len res hop hres => exact h.rest.idle (by simp [busy, hop, hres.le])
  | received len bs hop hlen =>
    by_cases hbs : bs = []
    · subst hbs
      exact h.rest.idle (by simp [busy, Req.filled, hop])
    · have hpos := List.length_pos_iff.mpr hbs
      refine clean_of_busy (hq (by simp [busy, hop, hpos])) ⟨List.prefix_append _ _, ?_⟩
      simp [span, Req.filled, hop]
  | sent len res hop hres => exact h.rest.idle (by simp [busy, hop])

/-- A completion that is not busy makes way for requests that are not. -/
theorem Clean.swap {news : List Req} (h : Clean (x ::ₘ P) buf)
    (hn : ∀ q ∈ news, busy (q, none) = false) :
    Clean ((news.map (·, none) : List (Req × Option Int)) + P) buf := by
  induction news with
  | nil =>
    rw [List.map_nil, Multiset.coe_nil, zero_add]
    exact h.rest
  | cons q news ih =>
    rw [List.forall_mem_cons] at hn
    rw [List.map_cons, ← Multiset.cons_coe, Multiset.cons_add]
    exact (ih hn.2).idle hn.1

/-- The condition, as the rule for invariants hands it over. -/
theorem Quiet.others {i : Nat} {res : Int} {bs : List UInt8} (h : Quiet s (.complete i res bs))
    (hq : s.ring.inflight[i]? = some q) (hP : todo s = (q, none) ::ₘ P)
    (hb : busy (q, some res) = true) : ∀ y ∈ P, busy y = false := by
  intro y hy
  exact h q hq hb y (hP ▸ Multiset.mem_cons_of_mem hy)

end KernelMagic.Socket
