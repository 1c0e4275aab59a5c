/-
  The echo: what has been transmitted to a client, against what has been received from it.

  The program takes any positive result of a send for the whole message and goes back to receiving, so
  the rest of a message of which the kernel has taken only a part is lost, and the next message comes
  in its place (`echo_short_send`). The transmitted bytes are a prefix of the received ones in every
  run in which the sends on the connection that succeed are complete (`FullSend`); nothing is asked
  of the other connections.

  `log_step` says once what a step can do to the log of a connection; `Balance` is what the log then
  keeps.
-/
import KernelMagic.Server.Invariant

namespace KernelMagic.Server

open KernelMagic.Lib

variable {env : Env} {s s' : State} {a : Act}

/-- The bytes received from the client. -/
def rx (l : List Ev) : List UInt8 :=
  l.flatMap fun e => match e with
    | .recv _ bs => bs
    | .send _ _ => []

/-- The bytes transmitted to it. -/
def tx (l : List Ev) : List UInt8 :=
  l.flatMap fun e => match e with
    | .recv _ _ => []
    | .send _ bs => bs

theorem rx_recv (l : List Ev) (r : Int) (bs : List UInt8) : rx (l ++ [.recv r bs]) = rx l ++ bs := by
  simp [rx]

theorem rx_send (l : List Ev) (r : Int) (bs : List UInt8) : rx (l ++ [.send r bs]) = rx l := by
  simp [rx]

theorem tx_recv (l : List Ev) (r : Int) (bs : List UInt8) : tx (l ++ [.recv r bs]) = tx l := by
  simp [tx]

theorem tx_send (l : List Ev) (r : Int) (bs : List UInt8) : tx (l ++ [.send r bs]) = tx l ++ bs := by
  simp [tx]

def Op.sendLen : Op → Option Nat
  | .send n => some n
  | _ => none

/-- A send on connection `c` that succeeds is complete. -/
def FullSend (c : Nat) (s : State) : Act → Prop
  | .complete i res _ =>
    ∀ q ∈ s.ring.inflight[i]?, ∀ len ∈ q.op.sendLen, s.table q.fd = some c → 0 < res → res = len
  | .prog _ => True

instance (c : Nat) (s : State) : (a : Act) → Decidable (FullSend c s a)
  | .complete i res _ => inferInstanceAs (Decidable (∀ q ∈ s.ring.inflight[i]?,
      ∀ len ∈ q.op.sendLen, s.table q.fd = some c → 0 < res → res = len))
  | .prog _ => isTrue trivial

/-! ## Logs -/

/-- The dialogue when a request on connection `c` is in flight. -/
theorem Inv.at_inflight (hi : Inv env s) {i : Nat} {q : Req} {p c : Nat} {ci : ConnInfo}
    (hq : s.ring.inflight[i]? = some q) (hl : q.op.len.isSome = true) (hdata : q.data = some p)
    (hci : s.heap.cell p = some ci) (hc : s.table q.fd = some c) :
    (s.conns c).At q.op none ci.buffer := by
  have hx : (q, none) ∈ todo s := mem_todo_of_inflight (List.mem_of_getElem? hq)
  have hj : (p, q, none) ∈ jobs (todo s) := mem_jobs.mpr ⟨hx, hdata⟩
  exact (hi.owned.ok_of_mem hj hci).talk c hl hc

/-- The log of a connection grows only by the completion of the request that is in flight on it. -/
theorem log_step (hi : Inv env s) (ht : Trans env s a s') (c : Nat) :
    (s'.conns c).log = (s.conns c).log ∨
      (∃ r bs, stage (s.conns c).log = .reading ∧ bs.length = r.toNat ∧
        (s'.conns c).log = (s.conns c).log ++ [.recv r bs]) ∨
      ∃ i q len r given buf, a = .complete i r given ∧ s.ring.inflight[i]? = some q ∧
        q.op = .send len ∧ s.table q.fd = some c ∧
        stage (s.conns c).log = .writing (grab buf 0 len) ∧
        (s'.conns c).log = (s.conns c).log ++ [.send r (grab buf 0 r.toNat)] := by
  -- a change of the history of connection `d` that keeps its log
  have hkeep : ∀ d k, k.log = (s.conns d).log →
      (Function.update s.conns d k c).log = (s.conns c).log := by
    intro d k hk
    by_cases hd : c = d
    · subst hd
      rw [Function.update_self, hk]
    · rw [Function.update_of_ne hd]
  cases ht with
  | received i q len p d ci res given bs hq hop hdata hci hc hres hbs =>
    by_cases hd : c = d
    · subst hd
      have hat := hi.at_inflight hq (by rw [hop]; rfl) hdata hci hc
      rw [hop] at hat
      refine .inr (.inl ⟨res, bs, hat.2, hbs, ?_⟩)
      simp only [Function.update_self, Conn.logged]
    · left
      simp only [Function.update_of_ne hd]
  | sent i q len p d ci res given hq hop hdata hci hc hres =>
    by_cases hd : c = d
    · subst hd
      have hat := hi.at_inflight hq (by rw [hop]; rfl) hdata hci hc
      rw [hop] at hat
      refine .inr (.inr ⟨i, q, len, res, given, ci.buffer, rfl, hq, hop, hc, hat.2, ?_⟩)
      simp only [Function.update_self, Conn.logged]
    · left
      simp only [Function.update_of_ne hd]
  | ended a x p d ci => exact .inl (hkeep d _ rfl)
  | echoed a x p d ci => exact .inl (hkeep d _ rfl)
  | resumed a x p d ci => exact .inl (hkeep d _ rfl)
  | idle => exact .inl rfl
  | accepted => exact .inl rfl
  | submitted => exact .inl rfl
  | peeked => exact .inl rfl
  | advanced => exact .inl rfl
  | crashed => exact .inl rfl
  | null => exact .inl rfl
  | acceptFail => exact .inl rfl
  | acceptDone => exact .inl rfl

/-! ## The streams -/

/-- Between messages everything received has been transmitted; while a message is being sent, all but
    the message. -/
def Balance (l : List Ev) : Prop :=
  match stage l with
  | .reading => tx l = rx l
  | .writing bs => rx l = tx l ++ bs
  | .over => tx l <+: rx l

theorem Balance.isPrefix {l : List Ev} (h : Balance l) : tx l <+: rx l := by
  unfold Balance at h
  split at h
  · rw [h]
  · rw [h]
    exact List.prefix_append _ _
  · exact h

theorem Balance.recv {l : List Ev} (h : Balance l) (hl : stage l = .reading) {r : Int}
    {bs : List UInt8} (hbs : bs.length = r.toNat) : Balance (l ++ [.recv r bs]) := by
  unfold Balance at h ⊢
  rw [hl] at h
  rw [stage_snoc, hl, tx_recv, rx_recv]
  unfold Stage.next
  by_cases hr : 0 < r
  · simp only [if_pos hr]
    rw [h]
  · obtain rfl : bs = [] := List.length_eq_zero_iff.mp (by omega)
    simp only [if_neg hr, List.append_nil]
    rw [h]

theorem Balance.send {l : List Ev} (h : Balance l) {buf : Nat → UInt8} {len : Nat}
    (hl : stage l = .writing (grab buf 0 len)) {r : Int} (hr : 0 < r → r = len) :
    Balance (l ++ [.send r (grab buf 0 r.toNat)]) := by
  unfold Balance at h ⊢
  rw [hl] at h
  rw [stage_snoc, hl, tx_send, rx_send]
  unfold Stage.next
  by_cases h0 : 0 < r
  · simp only [if_pos h0]
    rw [hr h0, Int.toNat_natCast]
    exact h.symm
  · have hz : grab buf 0 r.toNat = [] := by
      rw [show r.toNat = 0 by omega]
      rfl
    simp only [if_neg h0]
    rw [hz, List.append_nil, h]
    exact List.prefix_append _ _

theorem balance_step {c : Nat} (hi : Inv env s) (hb : Balance (s.conns c).log)
    (hf : FullSend c s a) (ht : Trans env s a s') : Balance (s'.conns c).log := by
  rcases log_step hi ht c with h | ⟨r, bs, hl, hbs, h⟩ | ⟨i, q, len, r, given, buf, rfl, hq, hop, hc, hl, h⟩
  · rw [h]
    exact hb
  · rw [h]
    exact hb.recv hl hbs
  · rw [h]
    exact hb.send hl (hf q hq len (by rw [hop]; rfl) hc)

theorem balance_run {c : Nat} {acts : List Act}
    (hf : Along (step env) (FullSend c) (init env) acts)
    (hr : run (step env) (init env) acts = some s) : Balance (s.conns c).log := by
  have hstep : ∀ s a s', Inv env s ∧ Balance (s.conns c).log → FullSend c s a →
      step env s a = some s' → Inv env s' ∧ Balance (s'.conns c).log := by
    intro s a s' ⟨hi, hb⟩ hf h
    have ht := step_trans hi.ready h
    exact ⟨inv_step hi ht, balance_step hi hb hf ht⟩
  exact (run_inv hstep ⟨inv_init env, rfl⟩ hf hr).2

theorem echo_prefix (env : Env) (c : Nat) (acts : List Act) (s : State)
    (hf : Along (step env) (FullSend c) (init env) acts)
    (hr : run (step env) (init env) acts = some s) :
    tx (s.conns c).log <+: rx (s.conns c).log :=
  (balance_run hf hr).isPrefix

/-- A client sends two bytes and gets them back while a second one is accepted. -/
def twoClients : List Act :=
  [.prog {}, .complete 1 5 [], .prog {}, .prog {}, .prog {}, .prog {},
    .complete 1 2 [97, 98], .complete 1 6 [], .prog {}, .prog {}, .prog {}, .prog {}, .prog {},
    .complete 1 2 []]

theorem echo_prefix_twoClients :
    ∃ s, run (step env₀) (init env₀) twoClients = some s ∧
      tx (s.conns 0).log = [97, 98] ∧ tx (s.conns 0).log <+: rx (s.conns 0).log := by
  have h : (run (step env₀) (init env₀) twoClients).map (fun s => tx (s.conns 0).log) =
      some [97, 98] := by
    decide +kernel
  obtain ⟨s, hr, hs⟩ := Option.map_eq_some_iff.mp h
  exact ⟨s, hr, hs, echo_prefix env₀ 0 twoClients s (by decide +kernel) hr⟩

/-- The client sends `ab`, of which one byte is sent back, and then `c`. -/
def shortSend : List Act :=
  [.prog {}, .complete 1 5 [], .prog {}, .prog {}, .prog {}, .prog {},
    .complete 1 2 [97, 98], .prog {}, .prog {}, .prog {}, .prog {},
    .complete 2 1 [], .prog {}, .prog {}, .prog {}, .prog {},
    .complete 2 1 [99], .prog {}, .prog {}, .prog {}, .prog {},
    .complete 2 1 []]

theorem echo_short_send :
    ∃ s, run (step env₀) (init env₀) shortSend = some s ∧
      (s.conns 0).log = [.recv 2 [97, 98], .send 1 [97], .recv 1 [99], .send 1 [99]] ∧
      ¬ tx (s.conns 0).log <+: rx (s.conns 0).log := by
  have h : (run (step env₀) (init env₀) shortSend).map (fun s => (s.conns 0).log) =
      some [.recv 2 [97, 98], .send 1 [97], .recv 1 [99], .send 1 [99]] := by
    decide +kernel
  obtain ⟨s, hr, hs⟩ := Option.map_eq_some_iff.mp h
  refine ⟨s, hr, hs, ?_⟩
  rw [hs]
  decide

end KernelMagic.Server
