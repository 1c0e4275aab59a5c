/-
  What the client has sent comes back: total correctness of client and server on one connection.

  From here on the client has nothing more to send, and nothing happens but what brings its bytes back
  (`Undisturbed`): the server goes on, the requests on the connection complete and move bytes, a send
  all of its own, and the client receives. In whatever order, this comes to an end, and then everything
  the client has sent is printed, unless a `recv` has filled the buffer of the client, which takes 4096
  bytes that are not printed yet (`echo_delivered`).

  `Link.work` is what is left to do. A byte on its way to the server is good for the recv and the send
  that it may take, each with the four steps of the loop, and for its way back; the bytes of the message
  that is being answered are good for the rest of it.
-/
import KernelMagic.Server.Client
import KernelMagic.Server.Settling

namespace KernelMagic.Server

open KernelMagic.Lib

variable {env : Env} {c : Nat} {s s' : Link} {t t' : State} {a : LinkAct} {i : Nat} {q : Req}
  {sent : List UInt8}

/-- The `malloc`s of the server succeed, and its submits take all queued entries. -/
def LinkAct.Assumed : LinkAct → Prop
  | .server a => a.Assumed
  | .send _ => True
  | .recv _ => True

instance : (a : LinkAct) → Decidable a.Assumed
  | .server a => inferInstanceAs (Decidable a.Assumed)
  | .send _ => isTrue trivial
  | .recv _ => isTrue trivial

/-- The `i`-th request in flight moves bytes on connection `c`. -/
def OnConn (c : Nat) (t : State) (i : Nat) : Prop :=
  ∃ q, t.ring.inflight[i]? = some q ∧ q.op.len.isSome = true ∧ t.table q.fd = some c

def Undisturbed (c : Nat) (s : Link) : LinkAct → Prop
  | .server (.prog a) => a = {}
  | .server (.complete i res bs) =>
    OnConn c s.server i ∧ 0 < res ∧ FullSend c s.server (.complete i res bs)
  | .send _ => False
  | .recv n => 0 < n ∧ s.down ≠ []

/-- The completion of the send, the four steps it takes, and the bytes on their way back. -/
def Stage.work : Stage → Nat
  | .reading => 0
  | .writing bs => bs.length + 5
  | .over => 0

def Link.work (c : Nat) (s : Link) : Nat :=
  s.server.view.credit + (stage (s.server.conns c).log).work + 11 * s.up.length + s.down.length +
    if s.fault then 0 else 1

/-- The connection is open, the dialogue on it goes on, and the client has sent `sent`. -/
structure Delivering (env : Env) (c : Nat) (sent : List UInt8) (s : Link) : Prop where
  carried : Carried env c s
  taken : s.client.taken = sent
  slack : Slack s.server
  connected : ∃ fd, s.server.table fd = some c
  going : stage (s.server.conns c).log ≠ .over
  excess : s.fault = true → s.client.printed.flatten.length + clientBufLen ≤ sent.length

/-! ## The server -/

/-- A connection is closed only when its dialogue is over. -/
theorem table_step {a : Act} {fd : Nat} (hi : Inv env t) (ht : Trans env t a t')
    (hc : t.table fd = some c) : t'.table fd = some c ∨ stage (t.conns c).log = .over := by
  cases ht with
  | accepted i q fd' bs hq hop hr htb =>
    have hne : fd ≠ fd' := by
      rintro rfl
      rw [htb] at hc
      cases hc
    exact .inl ((Function.update_of_ne hne _ _).trans hc)
  | ended a x p d ci hpc hlt hx hdata hci he hd hres =>
    by_cases hfd : fd = ci.connfd
    · subst hfd
      obtain rfl := Option.some.inj (hc.symm.trans hd)
      have htn := hi.turn hx hdata hci he hd
      exact .inr (htn.talk.over htn.len hres).2
    · exact .inl ((Function.update_of_ne hfd _ _).trans hc)
  | idle => exact .inl hc
  | received => exact .inl hc
  | sent => exact .inl hc
  | submitted => exact .inl hc
  | peeked => exact .inl hc
  | advanced => exact .inl hc
  | crashed => exact .inl hc
  | null => exact .inl hc
  | acceptFail => exact .inl hc
  | acceptDone => exact .inl hc
  | echoed => exact .inl hc
  | resumed => exact .inl hc

/-- What the completion of a request on the connection adds to its log. -/
theorem completed_log {res : Int} {bs : List UInt8} (hi : Inv env t) (ho : OnConn c t i)
    (ht : Trans env t (.complete i res bs) t') :
    (stage (t.conns c).log = .reading ∧ ∃ bs', bs'.length = res.toNat ∧
      (t'.conns c).log = (t.conns c).log ++ [.recv res bs']) ∨
    ∃ q len buf, t.ring.inflight[i]? = some q ∧ q.op = .send len ∧ t.table q.fd = some c ∧
      stage (t.conns c).log = .writing (grab buf 0 len) ∧
      (t'.conns c).log = (t.conns c).log ++ [.send res (grab buf 0 res.toNat)] := by
  obtain ⟨q, hq, hl, hc⟩ := ho
  cases ht with
  | idle i r res bs hr hop =>
    obtain rfl := Option.some.inj (hr.symm.trans hq)
    rcases hop with hop | ⟨hop, -⟩ <;> rw [hop] at hl <;> cases hl
  | accepted i r fd bs hr hop =>
    obtain rfl := Option.some.inj (hr.symm.trans hq)
    rw [hop] at hl
    cases hl
  | received i r len p d ci res given bs hr hop hdata hci hd hres hbs =>
    obtain rfl := Option.some.inj (hr.symm.trans hq)
    obtain rfl := Option.some.inj (hd.symm.trans hc)
    have hat := hi.at_inflight hq hl hdata hci hc
    rw [hop] at hat
    refine .inl ⟨hat.2, bs, hbs, ?_⟩
    simp only [Function.update_self, Conn.logged]
  | sent i r len p d ci res given hr hop hdata hci hd hres =>
    obtain rfl := Option.some.inj (hr.symm.trans hq)
    obtain rfl := Option.some.inj (hd.symm.trans hc)
    have hat := hi.at_inflight hq hl hdata hci hc
    rw [hop] at hat
    refine .inr ⟨r, len, ci.buffer, hq, hop, hc, hat.2, ?_⟩
    simp only [Function.update_self, Conn.logged]

/-! ## A step -/

theorem Delivering.prog (h : Delivering env c sent s)
    (hs : linkStep env c s (.server (.prog {})) = some s') :
    Delivering env c sent s' ∧ s'.work c < s.work c := by
  have hcarried := h.carried.step (a := .server (.prog {})) trivial hs
  obtain ⟨hfault, hlink⟩ := linkStep_eq_some hs
  obtain ⟨t, ht, hcarry⟩ := Option.bind_eq_some_iff.mp hlink
  have htr := step_trans h.carried.inv.ready ht
  have hlog := prog_log htr c
  rw [hlog, List.drop_length] at hcarry
  obtain rfl := Option.some.inj hcarry
  obtain ⟨fd, hc⟩ := h.connected
  have hc' := (table_step h.carried.inv htr hc).resolve_right h.going
  have hslack : Slack t := slack_step (a := .prog {}) h.slack ⟨rfl, rfl⟩ htr
  refine ⟨⟨hcarried, h.taken, hslack, ⟨fd, hc'⟩, ?_, h.excess⟩, ?_⟩
  · show stage (t.conns c).log ≠ .over
    rw [hlog]
    exact h.going
  · have hcredit := (view_turn h.carried.inv ht).credit_lt (by decide)
    simp only [Bool.false_eq_true, if_false] at hcredit
    simp only [Link.work, hlog]
    omega

theorem Delivering.complete {res : Int} {bs : List UInt8} (h : Delivering env c sent s)
    (hu : Undisturbed c s (.server (.complete i res bs)))
    (hs : linkStep env c s (.server (.complete i res bs)) = some s') :
    Delivering env c sent s' ∧ s'.work c < s.work c := by
  obtain ⟨ho, hres, hfull⟩ := hu
  have hcarried := h.carried.step (a := .server (.complete i res bs)) hfull hs
  obtain ⟨hfault, hlink⟩ := linkStep_eq_some hs
  obtain ⟨t, ht, hcarry⟩ := Option.bind_eq_some_iff.mp hlink
  have htr := step_trans h.carried.inv.ready ht
  obtain ⟨fd, hc⟩ := h.connected
  have hc' := (table_step h.carried.inv htr hc).resolve_right h.going
  have hslack : Slack t := slack_step (a := .complete i res bs) h.slack trivial htr
  have hcredit := EventLoop.credit_arrive s.server.view
  rw [← view_complete htr] at hcredit
  rcases completed_log h.carried.inv ho htr with ⟨hst, bs', hlen, hl⟩ |
    ⟨q, len, buf, hq, hop, hfd, hst, hl⟩
  · rw [hl, List.drop_left] at hcarry
    unfold Link.carry at hcarry
    simp only at hcarry
    split at hcarry
    · next hpre =>
      obtain rfl := Option.some.inj hcarry
      have hst' : stage (t.conns c).log = .writing bs' := by
        rw [hl, stage_snoc, hst]
        exact if_pos hres
      have hle := hpre.length_le
      refine ⟨⟨hcarried, h.taken, hslack, ⟨fd, hc'⟩, by simp [hst'], h.excess⟩, ?_⟩
      simp only [Link.work, hst, hst', Stage.work, List.length_drop]
      omega
    · cases hcarry
  · rw [hl, List.drop_left] at hcarry
    obtain rfl := Option.some.inj hcarry
    have hst' : stage (t.conns c).log = .reading := by
      rw [hl, stage_snoc, hst]
      exact if_pos hres
    have hlen : res = len := hfull q hq len (by rw [hop]; rfl) hfd hres
    refine ⟨⟨hcarried, h.taken, hslack, ⟨fd, hc'⟩, by simp [hst'], h.excess⟩, ?_⟩
    simp only [Link.work, hst, hst', Stage.work, List.length_append, length_grab]
    omega

theorem Delivering.recv {n : Nat} (h : Delivering env c sent s) (hu : Undisturbed c s (.recv n))
    (hs : linkStep env c s (.recv n) = some s') :
    Delivering env c sent s' ∧ s'.work c < s.work c := by
  have hcarried := h.carried.step (a := .recv n) trivial hs
  obtain ⟨hfault, hlink⟩ := linkStep_eq_some hs
  rcases Link.recvMsg_spec hlink with ⟨hlen, rfl⟩ | ⟨hlen, k, hk, rfl⟩
  · refine ⟨⟨hcarried, h.taken, h.slack, h.connected, h.going, fun _ => ?_⟩, ?_⟩
    · have hdown := congrArg List.length h.carried.down
      have hecho := h.carried.balance.isPrefix.length_le
      have hup := congrArg List.length h.carried.up
      have hbuf := List.length_take_le' n s.down
      rw [h.taken] at hup
      rw [List.length_append] at hdown hup
      show s.client.printed.flatten.length + clientBufLen ≤ sent.length
      omega
    · simp only [Link.work, hfault, Bool.false_eq_true, if_false, if_true]
      omega
  · have h0 : 0 ∉ s.down.take n := fun h0 => h.carried.down_text (List.mem_of_mem_take h0)
    have htaken := (Client.recvMsg_spec hk h0).1.trans h.taken
    refine ⟨⟨hcarried, htaken, h.slack, h.connected, h.going, fun hf => ?_⟩, ?_⟩
    · cases hfault.symm.trans hf
    · obtain ⟨hn, hdown⟩ := hu
      have hpos := List.length_pos_iff.mpr hdown
      simp only [Link.work, List.length_drop]
      omega

theorem Delivering.step (h : Delivering env c sent s) (hu : Undisturbed c s a)
    (hs : linkStep env c s a = some s') :
    Delivering env c sent s' ∧ s'.work c < s.work c := by
  match a with
  | .server (.prog x) =>
    obtain rfl : x = {} := hu
    exact h.prog hs
  | .server (.complete i res bs) => exact h.complete hu hs
  | .send r => exact hu.elim
  | .recv n => exact h.recv hu hs

/-! ## The next step -/

theorem exists_complete {res : Int} {bs : List UInt8} {u : State}
    (hq : t.ring.inflight[i]? = some q) (h : transfer env t q res bs = some u) :
    ∃ t', step env t (.complete i res bs) = some t' ∧ t'.conns = u.conns := by
  refine ⟨{ u with ring := completed t.ring i q res }, ?_, rfl⟩
  simp only [step, kernelStep, hq, Option.bind_some, h, IoRing.complete, Option.map_some]
  rfl

/-- A byte arrives for a recv. -/
theorem exists_received {n : Nat} (hi : Inv env t) (hq : t.ring.inflight[i]? = some q)
    (hop : q.op = .recv n) (hc : t.table q.fd = some c) (b : UInt8) :
    ∃ t', step env t (.complete i 1 [b]) = some t' ∧
      (t'.conns c).log = (t.conns c).log ++ [.recv 1 [b]] := by
  have hx := mem_todo_of_inflight (List.mem_of_getElem? hq)
  have hn : q.op.len = some n := by
    rw [hop]
    rfl
  obtain ⟨p, ci, d, hdata, hci, -⟩ := hi.ready.job hx hn
  have hpos := (hi.lengths hx hn).1
  have hneg : ¬ (1 : Int) < 0 := by decide
  have hres : ¬ ((n : Int) < 1 ∨ [b].length ≠ (1 : Int).toNat) := by
    simp only [List.length_singleton]
    omega
  simp only at hdata
  have htransfer : ∃ u, transfer env t q 1 [b] = some u ∧
      u.conns = Function.update t.conns c ((t.conns c).logged (.recv 1 [b])) := by
    unfold transfer
    simp only [hop, if_neg hneg, if_neg hres, hdata, Option.bind_some, hci, Option.map_some, record,
      hc]
    exact ⟨_, rfl, rfl⟩
  obtain ⟨u, hu, hconns⟩ := htransfer
  obtain ⟨t', ht, hk⟩ := exists_complete hq hu
  refine ⟨t', ht, ?_⟩
  rw [hk, hconns, Function.update_self]
  rfl

/-- A send takes all its bytes. -/
theorem exists_sent {n : Nat} (hi : Inv env t) (hq : t.ring.inflight[i]? = some q)
    (hop : q.op = .send n) (hc : t.table q.fd = some c) :
    ∃ t' bs, step env t (.complete i n []) = some t' ∧
      (t'.conns c).log = (t.conns c).log ++ [.send n bs] := by
  have hx := mem_todo_of_inflight (List.mem_of_getElem? hq)
  have hn : q.op.len = some n := by
    rw [hop]
    rfl
  obtain ⟨p, ci, d, hdata, hci, -⟩ := hi.ready.job hx hn
  have hneg : ¬ (n : Int) < 0 := by omega
  simp only at hdata
  have htransfer : ∃ u bs, transfer env t q n [] = some u ∧
      u.conns = Function.update t.conns c ((t.conns c).logged (.send n bs)) := by
    unfold transfer
    simp only [hop, if_neg hneg, Int.lt_irrefl, if_false, hdata, Option.bind_some, hci, record, hc]
    exact ⟨_, _, rfl, rfl⟩
  obtain ⟨u, bs, hu, hconns⟩ := htransfer
  obtain ⟨t', ht, hk⟩ := exists_complete hq hu
  refine ⟨t', bs, ht, ?_⟩
  rw [hk, hconns, Function.update_self]
  rfl

/-- While the server waits, the request that the dialogue calls for can complete, unless it is a recv
    and nothing is on its way. -/
theorem Delivering.idle (h : Delivering env c sent s) (hf : s.fault = false)
    (hidle : s.server.view.Idle) :
    (stage (s.server.conns c).log = .reading ∧ s.up = []) ∨
      ∃ a s', Undisturbed c s a ∧ linkStep env c s a = some s' := by
  have hi := h.carried.inv
  obtain ⟨fd, hc⟩ := h.connected
  obtain ⟨-, htodo⟩ := h.slack.rest hi hidle
  have hfd : (s.server.table fd).isSome = true := by
    rw [hc]
    rfl
  obtain ⟨q, hq⟩ := hi.alone htodo hfd
  obtain ⟨-, haw⟩ := hi.awaits hc hq
  obtain ⟨hin, hp⟩ := List.mem_filter.mp (hq ▸ List.mem_singleton_self q : q ∈ underWay s.server fd)
  rw [Bool.and_eq_true, beq_iff_eq] at hp
  obtain ⟨hl, rfl⟩ := hp
  obtain ⟨i, hiq⟩ := List.getElem?_of_mem hin
  have hon : OnConn c s.server i := ⟨q, hiq, hl, hc⟩
  match hst : stage (s.server.conns c).log with
  | .over => exact absurd hst h.going
  | .reading =>
    cases hup : s.up with
    | nil => exact .inl ⟨rfl, rfl⟩
    | cons b l =>
      obtain ⟨n, hop⟩ : ∃ n, q.op = .recv n := by
        rw [hst] at haw
        unfold Stage.Awaits at haw
        cases hop : q.op <;> simp [hop] at haw ⊢
      obtain ⟨t, ht, hlog⟩ := exists_received hi hiq hop hc b
      refine .inr ⟨.server (.complete i 1 [b]), { s with server := t, up := l },
        ⟨hon, by decide, ?_⟩, ?_⟩
      · intro r hr len hlen
        obtain rfl := Option.some.inj (hiq.symm.trans hr)
        rw [hop] at hlen
        cases hlen
      · simp only [linkStep, hf, Bool.false_eq_true, if_false, ht, Option.bind_some, hlog,
          List.drop_left, Link.carry, hup]
        rw [if_pos ⟨l, rfl⟩]
        rfl
  | .writing bs =>
    obtain ⟨n, hop⟩ : ∃ n, q.op = .send n := by
      rw [hst] at haw
      unfold Stage.Awaits at haw
      cases hop : q.op <;> simp [hop] at haw ⊢
    obtain ⟨t, bs', ht, hlog⟩ := exists_sent hi hiq hop hc
    have hpos := (hi.lengths (mem_todo_of_inflight hin) (n := n) (by rw [hop]; rfl)).1
    refine .inr ⟨.server (.complete i n []), { s with server := t, down := s.down ++ bs' },
      ⟨hon, by omega, ?_⟩, ?_⟩
    · intro r hr len hlen _ _
      obtain rfl := Option.some.inj (hiq.symm.trans hr)
      rw [hop] at hlen
      obtain rfl := Option.some.inj hlen
      rfl
    · simp only [linkStep, hf, Bool.false_eq_true, if_false, ht, Option.bind_some, hlog,
        List.drop_left, Link.carry]

/-- There is something to do until all is printed. -/
theorem Delivering.go (h : Delivering env c sent s) (hf : s.fault = false) :
    s.client.printed.flatten = sent ∨
      ∃ a s', Undisturbed c s a ∧ linkStep env c s a = some s' := by
  have hgo : s.server.view.Idle ∨ ∃ t, Server.step env s.server (.prog {}) = some t := h.slack.go
  rcases hgo with hidle | ⟨t, ht⟩
  · rcases h.idle hf hidle with ⟨hst, hup⟩ | hnext
    · cases hdown : s.down with
      | nil => exact .inl ((h.carried.printed_eq hup hdown hst).trans h.taken)
      | cons b l =>
        have hrecv : ∃ s', s.recvMsg 1 = some s' := by
          unfold Link.recvMsg
          rw [if_neg (by decide)]
          split <;> exact ⟨_, rfl⟩
        obtain ⟨s', hs⟩ := hrecv
        refine .inr ⟨.recv 1, s', ⟨Nat.one_pos, by simp [hdown]⟩, ?_⟩
        simp only [linkStep, hf, Bool.false_eq_true, if_false, hs]
    · exact .inr hnext
  · refine .inr ⟨.server (.prog {}), { s with server := t }, rfl, ?_⟩
    have hlog := prog_log (step_trans h.carried.inv.ready ht) c
    simp only [linkStep, hf, Bool.false_eq_true, if_false, ht, Option.bind_some, hlog,
      List.drop_length, Link.carry]

/-- All is printed, or a `recv` has filled the buffer of the client. -/
def Delivered (sent : List UInt8) (s : Link) : Prop :=
  s.client.printed.flatten = sent ∨
    s.fault = true ∧ s.client.printed.flatten.length + clientBufLen ≤ sent.length

theorem Delivering.ends (h : Delivering env c sent s) :
    Delivered sent s ∨ ∃ a s', Undisturbed c s a ∧ linkStep env c s a = some s' := by
  cases hf : s.fault with
  | true => exact .inl (.inr ⟨hf, h.excess hf⟩)
  | false =>
    rcases h.go hf with hall | hnext
    · exact .inl (.inl hall)
    · exact .inr hnext

/-! ## Delivery -/

theorem slack_link {acts : List LinkAct} {stdin : List UInt8}
    (hf : Along (linkStep env c) (LinkFull c) (Link.start env stdin) acts)
    (ha : ∀ a ∈ acts, a.Assumed)
    (hr : run (linkStep env c) (Link.start env stdin) acts = some s) :
    Carried env c s ∧ Slack s.server := by
  have hall : Along (linkStep env c) (fun _ a => a.Assumed) (Link.start env stdin) acts :=
    along_of_forall (fun _ _ h => h) _ _ ha
  have hstep : ∀ s a s', Carried env c s ∧ Slack s.server → LinkFull c s a ∧ a.Assumed →
      linkStep env c s a = some s' → Carried env c s' ∧ Slack s'.server := by
    intro s a s' ⟨hi, hs⟩ ⟨hfull, ha⟩ h
    refine ⟨hi.step hfull h, ?_⟩
    match a with
    | .server act =>
      obtain ⟨t, ht, hc⟩ := Option.bind_eq_some_iff.mp (linkStep_eq_some h).2
      rw [(carry_eq hc).1]
      exact slack_step hs ha (step_trans hi.inv.ready ht)
    | .send r =>
      rcases Link.main_spec hi.clean (linkStep_eq_some h).2 with ⟨-, rfl⟩ | ⟨-, k, bs, rfl, -⟩
      · exact hs
      · exact hs
    | .recv n =>
      rcases Link.recvMsg_spec (linkStep_eq_some h).2 with ⟨-, rfl⟩ | ⟨-, k, -, rfl⟩
      · exact hs
      · exact hs
  exact run_inv hstep ⟨Carried.start env c stdin, rfl, by simp [Link.start, init]⟩ (hf.and hall) hr

theorem Delivering.finishes (h : Delivering env c sent s) :
    Finishes (linkStep env c) (Undisturbed c) s (Delivered sent) :=
  finishes_of_measure (Link.work c) (fun _ _ _ h hu hs => h.step hu hs) (fun _ h => h.ends) h

/-- **Delivery.** From every state that client and server reach, with sends on the connection that are
    complete, memory for every `malloc` and submits that take all queued entries: while the connection is
    open, its dialogue goes on and the client has kept to its buffers, every undisturbed continuation
    ends. At its end the client has printed all it has sent; or a `recv` has filled its buffer, which
    cannot be with fewer than 4096 bytes to print. -/
theorem echo_delivered (env : Env) (c : Nat) (stdin : List UInt8) (acts : List LinkAct) (s : Link)
    (hf : Along (linkStep env c) (LinkFull c) (Link.start env stdin) acts)
    (ha : ∀ a ∈ acts, a.Assumed)
    (hr : run (linkStep env c) (Link.start env stdin) acts = some s)
    (hopen : ∃ fd, s.server.table fd = some c) (hstage : stage (s.server.conns c).log ≠ .over)
    (hfault : s.fault = false) :
    Finishes (linkStep env c) (Undisturbed c) s fun t =>
      t.client.printed.flatten = s.client.taken ∨
        t.fault = true ∧ t.client.printed.flatten.length + clientBufLen ≤ s.client.taken.length := by
  obtain ⟨hc, hs⟩ := slack_link hf ha hr
  have hexcess : s.fault = true →
      s.client.printed.flatten.length + clientBufLen ≤ s.client.taken.length :=
    fun h => absurd h (by simp [hfault])
  have h : Delivering env c s.client.taken s := ⟨hc, rfl, hs, hopen, hstage, hexcess⟩
  exact h.finishes

/-- The second word is on its way to the server; three bytes cannot fill the buffer. -/
theorem delivered_twoWords :
    ∃ s, run (linkStep env₀ 0) (Link.start env₀ [97, 98, 32, 99]) twoWords = some s ∧
      s.client.taken = [97, 98, 99] ∧ s.client.printed = [[97], [98]] ∧
      Finishes (linkStep env₀ 0) (Undisturbed 0) s
        fun t => t.client.printed.flatten = s.client.taken := by
  have h : (run (linkStep env₀ 0) (Link.start env₀ [97, 98, 32, 99]) twoWords).map
      (fun s => ((s.client.taken, s.client.printed),
        s.server.table 5, stage (s.server.conns 0).log, s.fault)) =
          some (([97, 98, 99], [[97], [98]]), some 0, .reading, false) := by
    decide +kernel
  obtain ⟨s, hr, hs⟩ := Option.map_eq_some_iff.mp h
  obtain ⟨hclient, hserver⟩ := Prod.mk.inj hs
  obtain ⟨hopen, hrest⟩ := Prod.mk.inj hserver
  obtain ⟨hstage, hfault⟩ := Prod.mk.inj hrest
  have hgoing : stage (s.server.conns 0).log ≠ .over := by
    rw [hstage]
    decide
  have htaken : s.client.taken = [97, 98, 99] := congrArg Prod.fst hclient
  have hdelivered := echo_delivered env₀ 0 _ twoWords s (by decide +kernel) (by decide) hr ⟨5, hopen⟩
    hgoing hfault
  refine ⟨s, hr, htaken, congrArg Prod.snd hclient, hdelivered.imp fun t ht => ?_⟩
  rcases ht with hall | ⟨-, hlen⟩
  · exact hall
  · rw [htaken] at hlen
    simp [clientBufLen] at hlen

end KernelMagic.Server
