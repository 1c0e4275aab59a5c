/-
  The server does not spin, and does not sit on what has come in.

  Seen as an `EventLoop` it takes at most four steps for each completion and three for each
  `io_uring_wait_cqe` that returns early (`paced_run`, in every run, failures included). Once no more
  completions come, it answers what there is and stands at the wait (`server_settles`): every
  connection has got the answers that its log calls for, one that is open has exactly one request under
  way, the next of the dialogue, and the others are those whose dialogue is over.

  `Ended` is what this takes beyond the invariant: a connection is closed only when all its completions
  are processed, the last of them an end of file or an error.
-/
import KernelMagic.Lib.EventLoop
import KernelMagic.Server.Ownership
import KernelMagic.Server.Echo

namespace KernelMagic.Server

open KernelMagic.Lib

variable {env : Env} {s s' : State}

/-! ## The event loop -/

def Pc.phase : Pc → Phase
  | .submit => .submit
  | .peek => .wait
  | .loop => .serve
  | .fault => .stopped

def State.view (s : State) : EventLoop := ⟨s.pc.phase, s.i, s.cqecount, s.ring.cq.length⟩

/-- A completion is an arrival, a step of the program one of the loop. -/
def Act.kind : Act → Kind
  | .complete _ _ _ => .arrival
  | .prog a => .turn a.waitErr

theorem view_complete {i : Nat} {res : Int} {bs : List UInt8}
    (ht : Trans env s (.complete i res bs) s') : s'.view = s.view.arrive := by
  have hlen : ∀ q, (completed s.ring i q res).cq.length = s.ring.cq.length + 1 :=
    fun q => List.length_append
  cases ht with
  | idle => simp only [State.view, EventLoop.arrive, hlen]
  | accepted => simp only [State.view, EventLoop.arrive, hlen]
  | received => simp only [State.view, EventLoop.arrive, hlen]
  | sent => simp only [State.view, EventLoop.arrive, hlen]

/-- The wait returns with a completion, or early. -/
theorem waits {a : Answers} (hpc : s.pc = .peek) (h : step env s (.prog a) = some s') :
    0 < s.ring.cq.length ∨ a.waitErr = true := by
  unfold step progStep peekStep at h
  simp only [hpc] at h
  split at h
  · cases h
  · next hnot =>
    cases hcq : s.ring.cq with
    | nil => simpa [hcq] using hnot
    | cons x l => exact .inl (Nat.succ_pos _)

theorem view_turn {a : Answers} (hi : Inv env s) (h : step env s (.prog a) = some s') :
    EventLoop.Turn cqeLen a.waitErr s.view s'.view := by
  have served : ∀ t : State, s.pc = .loop → s.i < s.cqecount → t.pc = s.pc → t.i = s.i + 1 →
      t.cqecount = s.cqecount → t.ring.cq = s.ring.cq →
        EventLoop.Turn cqeLen a.waitErr s.view t.view := by
    intro t hpc hlt h1 h2 h3 h4
    unfold State.view
    rw [h1, h2, h3, h4, hpc]
    exact .served _ _ _ hlt
  cases step_trans hi.ready h with
  | submitted a hpc =>
    unfold State.view
    rw [hpc, IoRing.cq_submit]
    exact .submitted _ _ _
  | peeked a hpc =>
    unfold State.view
    rw [hpc]
    exact .waited _ _ _ (waits hpc h)
  | advanced a hpc hic =>
    unfold State.view
    rw [hpc, hic]
    simp only [IoRing.advance, List.length_drop]
    exact .dropped _ _
  | crashed a hpc hlt hwhy =>
    unfold State.view
    rw [hpc]
    exact .crashed _ _ _ hlt
  | null a x hpc hlt => exact served _ hpc hlt rfl rfl rfl rfl
  | acceptFail a x p ci hpc hlt => exact served _ hpc hlt rfl rfl rfl rfl
  | acceptDone a x p ci hpc hlt => exact served _ hpc hlt rfl rfl rfl rfl
  | ended a x p c ci hpc hlt => exact served _ hpc hlt rfl rfl rfl rfl
  | echoed a x p c ci hpc hlt => exact served _ hpc hlt rfl rfl rfl rfl
  | resumed a x p c ci hpc hlt => exact served _ hpc hlt rfl rfl rfl rfl

/-- The server drives the loop in every run, under any condition on the steps and with any invariant
    beside its own. -/
theorem drives {P : State → Act → Prop} {I : State → Prop}
    (hkeep : ∀ s a s', Inv env s → I s → P s a → step env s a = some s' → I s') :
    Drives (step env) P (fun s => Inv env s ∧ I s) State.view Act.kind cqeLen where
  size_pos := by decide
  keeps s a s' hi hP h :=
    ⟨inv_step hi.1 (step_trans hi.1.ready h), hkeep s a s' hi.1 hi.2 hP h⟩
  arrival s a s' hi _ h hk := by
    cases a with
    | complete i res bs => exact view_complete (step_trans hi.1.ready h)
    | prog a => cases hk
  turn s a s' early hi _ h hk := by
    cases a with
    | complete i res bs => cases hk
    | prog a =>
      cases hk
      exact view_turn hi.1 h

theorem paced_run {acts : List Act} (hr : run (step env) (init env) acts = some s) :
    Paced Act.kind acts := by
  have hd : Drives (step env) (fun _ _ => True) (fun s => Inv env s ∧ True) State.view Act.kind
      cqeLen := drives fun _ _ _ _ _ _ _ => trivial
  refine hd.paced ⟨inv_init env, trivial⟩ rfl ?_ hr
  exact along_of_forall (fun _ _ h => h) _ _ fun _ _ => trivial

/-! ## Connections that are closed -/

/-- A connection without a descriptor has been processed to its end. -/
def Ended (s : State) : Prop :=
  ∀ c < s.next, (∀ fd, s.table fd ≠ some c) →
    (s.conns c).handled = (s.conns c).log.length ∧ stage (s.conns c).log = .over

/-- A connection that stays without a descriptor, or gets one. -/
theorem Ended.keep (h : Ended s) (hnext : s'.next = s.next)
    (htable : ∀ c < s.next, (∀ fd, s'.table fd ≠ some c) → (∀ fd, s.table fd ≠ some c) ∧
      s'.conns c = s.conns c) : Ended s' := by
  intro c hc hfd
  rw [hnext] at hc
  obtain ⟨hfd', hk⟩ := htable c hc hfd
  rw [hk]
  exact h c hc hfd'

/-- A change of the history of an open connection. -/
theorem Ended.update (h : Ended s) (hnext : s'.next = s.next) (htable : s'.table = s.table)
    {fd c : Nat} {k : Conn} (hc : s.table fd = some c)
    (hconns : s'.conns = Function.update s.conns c k) : Ended s' := by
  refine h.keep hnext fun d _ hfd => ?_
  rw [htable] at hfd
  refine ⟨hfd, ?_⟩
  have hne : d ≠ c := by
    rintro rfl
    exact hfd fd hc
  rw [hconns, Function.update_of_ne hne]

/-- The last completion on a connection that is dropped ends the dialogue. -/
theorem Conn.At.over {k : Conn} {op : Op} {r : Int} {buf : Nat → UInt8} (h : k.At op (some r) buf)
    (hl : op.len.isSome = true) (hr : r ≤ 0) :
    k.handled + 1 = k.log.length ∧ stage k.log = .over := by
  cases op with
  | nop => cases hl
  | accept => cases hl
  | recv n =>
    obtain ⟨l, h1, h2, h3⟩ := h
    rw [h1, stage_snoc, h3, h2, List.length_append]
    exact ⟨rfl, if_neg (by omega)⟩
  | send n =>
    obtain ⟨l, bs, b, h1, h2, h3⟩ := h
    rw [h1, stage_snoc, h3, h2, List.length_append]
    exact ⟨rfl, if_neg (by omega)⟩

theorem ended_step {a : Act} (hi : Inv env s) (h : Ended s) (ht : Trans env s a s') : Ended s' := by
  cases ht with
  | accepted i q fd bs hq hop hr htb =>
    intro c hc hfd
    have hne : c ≠ s.next := by
      rintro rfl
      exact hfd fd (Function.update_self _ _ _)
    refine h c (by simp only at hc; omega) fun fd' hfd' => hfd fd' ?_
    have hfd'' : fd' ≠ fd := by
      rintro rfl
      rw [htb] at hfd'
      cases hfd'
    simp only [Function.update_of_ne hfd'', hfd']
  | received i q len p c ci res given bs hq hop hdata hci hc => exact h.update rfl rfl hc rfl
  | sent i q len p c ci res given hq hop hdata hci hc => exact h.update rfl rfl hc rfl
  | echoed a x p c ci hpc hlt hx hdata hci he hc => exact h.update rfl rfl hc rfl
  | resumed a x p c ci hpc hlt hx hdata hci he hc => exact h.update rfl rfl hc rfl
  | ended a x p c ci hpc hlt hx hdata hci he hc hres =>
    have htn := hi.turn hx hdata hci he hc
    obtain ⟨hlen, hover⟩ := htn.talk.over htn.len hres
    intro d hd hfd
    by_cases hdc : d = c
    · subst hdc
      simp only [Function.update_self]
      exact ⟨hlen, hover⟩
    · simp only [Function.update_of_ne hdc]
      refine h d hd fun fd hfd' => hfd fd ?_
      have hne : fd ≠ ci.connfd := by
        rintro rfl
        exact hdc (Option.some.inj (hfd'.symm.trans hc))
      simp only [Function.update_of_ne hne, hfd']
  | idle => exact h
  | submitted => exact h
  | peeked => exact h
  | advanced => exact h
  | crashed => exact h
  | null => exact h
  | acceptFail => exact h
  | acceptDone => exact h

theorem ended_run {acts : List Act} (hr : run (step env) (init env) acts = some s) : Ended s :=
  (run_keeps hr ⟨inv_init env, fun c hc => absurd hc (Nat.not_lt_zero c)⟩
    fun s _ s' (hi : Inv env s ∧ Ended s) hs =>
      have ht := step_trans hi.1.ready hs
      (⟨inv_step hi.1 ht, ended_step hi.1 hi.2 ht⟩ : Inv env s' ∧ Ended s')).2

/-! ## At rest -/

/-- The request that is to be under way where a dialogue stands. -/
def Stage.Awaits : Stage → Op → Prop
  | .reading, .recv _ => True
  | .writing bs, .send n => n = bs.length
  | _, _ => False

/-- The requests in flight that move bytes on `fd`. -/
def underWay (s : State) (fd : Nat) : List Req :=
  s.ring.inflight.filter fun q => q.op.len.isSome && q.fd == fd

/-- The server waits and has nothing left to do about the logs. -/
structure Settled (log : Nat → List Ev) (t : State) : Prop where
  blocked : t.pc = .peek ∧ t.ring.cq = [] ∧ t.ring.sq = []
  answered : ∀ c, (t.conns c).log = log c ∧ (t.conns c).out = (log c).flatMap answer
  awaits : ∀ fd c, t.table fd = some c → ∃ q, underWay t fd = [q] ∧ (stage (log c)).Awaits q.op
  open_iff : ∀ c < t.next, (∃ fd, t.table fd = some c) ↔ stage (log c) ≠ .over

/-- Every request is in flight. -/
theorem Slack.rest (hs : Slack s) (hi : Inv env s) (hidle : s.view.Idle) :
    (s.pc = .peek ∧ s.ring.cq = [] ∧ s.ring.sq = []) ∧
      todo s = (s.ring.inflight.map (·, none) : List (Req × Option Int)) := by
  obtain ⟨hphase, hlen⟩ := hidle
  have hpc : s.pc = .peek := by
    cases hp : s.pc <;> simp [State.view, Pc.phase, hp] at hphase
    rfl
  have hcq : s.ring.cq = [] := List.length_eq_zero_iff.mp hlen
  have hsq : s.ring.sq = [] := by
    have h := hs.2
    rw [hpc] at h
    exact h
  refine ⟨⟨hpc, hcq, hsq⟩, ?_⟩
  unfold todo IoRing.outstanding
  simp [hi.window.start (.inr hpc), IoRing.advance, hsq, hcq]

/-- The request that keeps `fd` open is alone. -/
theorem Inv.alone (hi : Inv env s) (htodo : todo s =
      (s.ring.inflight.map (·, none) : List (Req × Option Int))) {fd : Nat}
    (hfd : (s.table fd).isSome = true) : ∃ q, underWay s fd = [q] := by
  have hp : ∀ q : Req, (q.op.len.isSome && q.fd == fd) = (fdOf (q, none) == some fd) := by
    rintro ⟨op, f, d⟩
    cases op <;> simp [Op.len, fdOf]
  have hcount : (Server.fds (todo s)).count fd = 1 :=
    Multiset.count_eq_one_of_mem hi.fds.nodup ((hi.fds.mem fd).mpr hfd)
  rw [htodo, Server.fds, Multiset.filterMap_coe, Multiset.coe_count, List.filterMap_map,
    List.count_filterMap, List.countP_eq_length_filter] at hcount
  obtain ⟨q, hq⟩ := List.length_eq_one_iff.mp hcount
  refine ⟨q, ?_⟩
  unfold underWay
  simp only [hp]
  exact hq

/-- Where the dialogue stands while nothing is to be done on the connection. -/
theorem Inv.awaits (hi : Inv env s) {q : Req} {fd c : Nat} (hc : s.table fd = some c)
    (hq : underWay s fd = [q]) :
    (s.conns c).handled = (s.conns c).log.length ∧ (stage (s.conns c).log).Awaits q.op := by
  have hmem : q ∈ underWay s fd := hq ▸ List.mem_singleton_self q
  obtain ⟨hin, hp⟩ := List.mem_filter.mp hmem
  rw [Bool.and_eq_true, beq_iff_eq] at hp
  obtain ⟨hl, rfl⟩ := hp
  obtain ⟨i, hiq⟩ := List.getElem?_of_mem hin
  obtain ⟨n, hn⟩ := Option.isSome_iff_exists.mp hl
  obtain ⟨p, ci, -, hdata, hci, -⟩ := hi.ready.job (mem_todo_of_inflight hin) hn
  have hat := hi.at_inflight hiq hl hdata hci hc
  cases hop : q.op with
  | nop =>
    rw [hop] at hl
    cases hl
  | accept =>
    rw [hop] at hl
    cases hl
  | recv m =>
    rw [hop] at hat
    rw [hat.2]
    exact ⟨hat.1, trivial⟩
  | send m =>
    rw [hop] at hat
    rw [hat.2]
    exact ⟨hat.1, (length_grab _ _ _).symm⟩

theorem Stage.Awaits.ne_over {g : Stage} {op : Op} (h : g.Awaits op) : g ≠ .over := by
  rintro rfl
  exact h

theorem Inv.settled (hi : Inv env s) (hs : Slack s) (he : Ended s) (hidle : s.view.Idle) :
    Settled (fun c => (s.conns c).log) s := by
  obtain ⟨hblocked, htodo⟩ := hs.rest hi hidle
  have hopen : ∀ fd c, s.table fd = some c → ∃ q, underWay s fd = [q] ∧
      (s.conns c).handled = (s.conns c).log.length ∧ (stage (s.conns c).log).Awaits q.op := by
    intro fd c hc
    have hfd : (s.table fd).isSome = true := by
      rw [hc]
      rfl
    obtain ⟨q, hq⟩ := hi.alone htodo hfd
    exact ⟨q, hq, hi.awaits hc hq⟩
  refine ⟨hblocked, fun c => ⟨rfl, ?_⟩, ?_, ?_⟩
  · have hall : (s.conns c).handled = (s.conns c).log.length := by
      by_cases hfd : ∃ fd, s.table fd = some c
      · obtain ⟨fd, hc⟩ := hfd
        obtain ⟨q, -, hh, -⟩ := hopen fd c hc
        exact hh
      · push Not at hfd
        by_cases hlt : c < s.next
        · exact (he c hlt hfd).1
        · rw [hi.fresh c (by omega)]
          rfl
    rw [(hi.answered c).2, Conn.seen, hall, List.take_length]
  · intro fd c hc
    obtain ⟨q, hq, -, haw⟩ := hopen fd c hc
    exact ⟨q, hq, haw⟩
  · intro c hlt
    constructor
    · rintro ⟨fd, hc⟩
      obtain ⟨q, -, -, haw⟩ := hopen fd c hc
      exact haw.ne_over
    · intro hne
      by_contra hfd
      push Not at hfd
      exact hne (he c hlt hfd).2

/-! ## Settling -/

/-- Only the kernel adds to a log. -/
theorem prog_log {a : Answers} (ht : Trans env s (.prog a) s') (c : Nat) :
    (s'.conns c).log = (s.conns c).log := by
  have hkeep : ∀ d k, k.log = (s.conns d).log →
      (Function.update s.conns d k c).log = (s.conns c).log := by
    intro d k hk
    by_cases hd : c = d
    · subst hd
      rw [Function.update_self, hk]
    · rw [Function.update_of_ne hd]
  cases ht with
  | ended a x p d ci => exact hkeep d _ rfl
  | echoed a x p d ci => exact hkeep d _ rfl
  | resumed a x p d ci => exact hkeep d _ rfl
  | submitted => rfl
  | peeked => rfl
  | advanced => rfl
  | crashed => rfl
  | null => rfl
  | acceptFail => rfl
  | acceptDone => rfl

/-- The program is held up only at the wait. -/
theorem Slack.go (hs : Slack s) : s.view.Idle ∨ ∃ s', step env s (.prog {}) = some s' := by
  rw [← Option.isSome_iff_exists]
  unfold step progStep
  cases hpc : s.pc with
  | submit => exact .inr rfl
  | peek =>
    cases hcq : s.ring.cq with
    | nil => exact .inl ⟨by rw [State.view, hpc]; rfl, by rw [State.view, hcq]; rfl⟩
    | cons x l => exact .inr (by simp [peekStep, hcq])
  | loop => exact .inr rfl
  | fault =>
    have h := hs.2
    rw [hpc] at h
    exact h.elim

/-- **Settling.** From every state of a run in which `malloc` succeeds and every submit takes all queued
    entries: left to itself for at most four steps a completion and two more, the server has answered
    everything and waits for the next completion. -/
theorem server_settles (env : Env) (acts : List Act) (s : State) (ha : ∀ a ∈ acts, a.Assumed)
    (hr : run (step env) (init env) acts = some s) :
    ∃ n ≤ 4 * s.ring.cq.length + 2, ∃ t, run (step env) s (List.replicate n (.prog {})) = some t ∧
      Settled (fun c => (s.conns c).log) t := by
  obtain ⟨hi, hs⟩ := slack_run ha hr
  have hd : Drives (step env) (fun _ a => a = .prog {})
      (fun t => Inv env t ∧ Slack t ∧ Ended t ∧ ∀ c, (t.conns c).log = (s.conns c).log)
      State.view Act.kind cqeLen := by
    refine drives ?_
    rintro t _ t' hi ⟨hs, he, hlog⟩ rfl h
    have ht := step_trans hi.ready h
    exact ⟨slack_step (a := .prog {}) hs ⟨rfl, rfl⟩ ht, ended_step hi he ht,
      fun c => (prog_log ht c).trans (hlog c)⟩
  obtain ⟨n, hn, t, hrun, ⟨hit, hst, het, hlog⟩, hidle⟩ :=
    hd.settles (a := .prog {}) rfl (fun _ => rfl) (fun t ht => ht.2.1.go)
      ⟨hi, hs, ended_run hr, fun _ => rfl⟩
  have hcredit := EventLoop.credit_le (l := s.view) hi.window.le_length
  refine ⟨n, hn.trans hcredit, t, hrun, ?_⟩
  have hset := hit.settled hst het hidle
  simp only [hlog] at hset
  exact hset

/-- The first client has got its bytes back, and the loop has not seen that yet. -/
theorem settles_twoClients :
    ∃ s, run (step env₀) (init env₀) twoClients = some s ∧ (s.conns 0).handled = 1 ∧
      (s.conns 0).log = [.recv 2 [97, 98], .send 2 [97, 98]] ∧
      ∃ n ≤ 4 * s.ring.cq.length + 2, ∃ t,
        run (step env₀) s (List.replicate n (.prog {})) = some t ∧
          Settled (fun c => (s.conns c).log) t := by
  have h : (run (step env₀) (init env₀) twoClients).map
      (fun s => ((s.conns 0).handled, (s.conns 0).log)) =
        some (1, [.recv 2 [97, 98], .send 2 [97, 98]]) := by
    decide +kernel
  obtain ⟨s, hr, hs⟩ := Option.map_eq_some_iff.mp h
  exact ⟨s, hr, congrArg Prod.fst hs, congrArg Prod.snd hs,
    server_settles env₀ twoClients s (by decide) hr⟩

end KernelMagic.Server
