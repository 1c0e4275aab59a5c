/-
  Who owns what in the server, in every state of every run: for any number of clients and any order,
  batching and results of the completions, while `malloc` succeeds and every submit takes all queued
  entries.

  `Sound` says it in terms of the requests (`todo`) and the descriptor table alone. It follows from
  the invariant: `Owned` gives the first field, `Fds` the descriptors and `JobOk` the lengths. These
  hold in every run; only the room in the submission queue (`Slack`) takes the assumptions.
-/
import KernelMagic.Server.Invariant

namespace KernelMagic.Server

open KernelMagic.Lib

variable {env : Env} {s s' : State}

/-- The `malloc`s of a step succeed, and its submit takes all queued entries. -/
def Act.Assumed : Act → Prop
  | .complete _ _ _ => True
  | .prog a => a.malloc = true ∧ a.submit = .all

instance : (a : Act) → Decidable a.Assumed
  | .complete _ _ _ => isTrue trivial
  | .prog a => inferInstanceAs (Decidable (a.malloc = true ∧ a.submit = .all))

/-- The loop has processed the accept that returned `fd`. -/
def Processed (s : State) (fd : Nat) : Prop :=
  ∀ x ∈ todo s, x.1.op = .accept → x.2 ≠ some (fd : Int)

/-- `p` is a live `ConnInfo` for the reads and writes of `fd`. -/
def Serves (s : State) (fd p : Nat) : Prop :=
  ∃ ci, s.heap.cell p = some ci ∧ (ci.event = .read ∨ ci.event = .write) ∧ ci.connfd = fd

/-- `owner`: a live `ConnInfo` is the user data of one request, a freed one of none. `served`: an
    open descriptor that the loop knows of has one `ConnInfo`. `closed`, `once`: each `close` is of
    an open connection, and of each at most one. `opened`: requests are on open descriptors. `room`:
    `io_uring_get_sqe` gives an entry. -/
structure Sound (env : Env) (s : State) : Prop where
  owner : ∀ p, (todo s).countP (fun x => x.1.data = some p) =
    if (s.heap.cell p).isSome then 1 else 0
  served : ∀ fd, (s.table fd).isSome = true → Processed s fd → ∃! p, Serves s fd p
  closed : ∀ o ∈ s.closes, ∃ c, o = some c ∧ c < s.next
  once : s.closes.Nodup
  opened : ∀ x ∈ todo s, x.1.op = .nop ∨ (x.1.op = .accept ∧ x.1.fd = env.sockfd) ∨
    (s.table x.1.fd).isSome = true
  recv : ∀ x ∈ todo s, ∀ n, x.1.op = .recv n → 1 ≤ n ∧ n ≤ maxline
  send : ∀ x ∈ todo s, ∀ n, x.1.op = .send n → n ≤ maxline
  queued : s.ring.sq.length ≤ 20
  room : ∀ q, (s.ring.prep q).isSome = true
  noFault : s.pc ≠ .fault

/-! ## One request for each object -/

/-- The pointers of the jobs are the user data of the requests. -/
theorem count_jobs (P : Multiset (Req × Option Int)) (p : Nat) :
    ((jobs P).map Prod.fst).count p = P.countP (fun x => x.1.data = some p) := by
  induction P using Multiset.induction with
  | empty => rfl
  | cons x P ih =>
    cases hd : x.1.data with
    | none =>
      rw [jobs_cons_none hd, ih, Multiset.countP_cons_of_neg]
      rw [hd]
      exact fun h => by cases h
    | some q =>
      rw [jobs_cons_some hd, Multiset.map_cons]
      by_cases hq : q = p
      · rw [hq, Multiset.count_cons_self, ih, Multiset.countP_cons_of_pos]
        rw [hd, hq]
      · rw [Multiset.count_cons_of_ne (Ne.symm hq), ih, Multiset.countP_cons_of_neg]
        rw [hd]
        exact fun h => hq (Option.some.inj h)

theorem Inv.owner (hi : Inv env s) (p : Nat) :
    (todo s).countP (fun x => x.1.data = some p) = if (s.heap.cell p).isSome then 1 else 0 := by
  rw [← count_jobs]
  cases hp : s.heap.cell p with
  | none =>
    refine Multiset.count_eq_zero_of_notMem fun hm => ?_
    obtain ⟨j, hj, rfl⟩ := Multiset.mem_map.mp hm
    obtain ⟨ci, hci, -⟩ := hi.owned.job j hj
    rw [hp] at hci
    cases hci
  | some ci =>
    obtain ⟨j, hj, rfl⟩ := hi.owned.live p ci hp
    exact Multiset.count_eq_one_of_mem hi.owned.nodup (Multiset.mem_map_of_mem _ hj)

/-! ## One object for each descriptor -/

/-- Two requests that keep the same descriptor open are the same. -/
theorem Fds.unique {table : Nat → Option Nat} {P : Multiset (Req × Option Int)} (h : Fds table P)
    {x y : Req × Option Int} {fd : Nat} (hx : x ∈ P) (hy : y ∈ P) (hfx : fdOf x = some fd)
    (hfy : fdOf y = some fd) : x = y := by
  obtain ⟨Q, rfl⟩ := Multiset.exists_cons_of_mem hx
  rcases Multiset.mem_cons.mp hy with he | hy
  · exact he.symm
  · exact absurd rfl (h.ne hfx hy hfy)

/-- A request on a connection and its `ConnInfo` have the same descriptor. -/
theorem JobOk.fdOf {x : Req × Option Int} {ci : ConnInfo} (h : JobOk env x ci)
    (he : ci.event = .read ∨ ci.event = .write) : fdOf x = some ci.connfd := by
  rw [← h.fd]
  refine fdOf_of_len ((Op.len_isSome h.event).mpr ?_)
  rcases he with he | he <;> simp [he]

theorem Inv.serves (hi : Inv env s) {p : Nat} {ci : ConnInfo} (hp : s.heap.cell p = some ci)
    (he : ci.event = .read ∨ ci.event = .write) :
    ∃ x ∈ todo s, x.1.data = some p ∧ fdOf x = some ci.connfd := by
  obtain ⟨⟨q, x⟩, hj, rfl⟩ := hi.owned.live p ci hp
  obtain ⟨hx, hd⟩ := mem_jobs.mp hj
  exact ⟨x, hx, hd, (hi.owned.ok_of_mem hj hp).job.fdOf he⟩

theorem Inv.served (hi : Inv env s) {fd : Nat} (ht : (s.table fd).isSome = true)
    (hp : Processed s fd) : ∃! p, Serves s fd p := by
  -- the request that keeps the descriptor open is not an accept, so it has a `ConnInfo`
  obtain ⟨x, hx, hfd⟩ := (Multiset.mem_filterMap _ _).mp ((hi.fds.mem fd).mpr ht)
  have hlen : x.1.op.len.isSome = true := by
    unfold fdOf at hfd
    split at hfd
    · cases hfd
    · next hop =>
      obtain ⟨r, hr, he⟩ := Option.bind_eq_some_iff.mp hfd
      split at he
      · next h0 =>
        cases he
        exact absurd (by rw [hr, Int.toNat_of_nonneg h0]) (hp x hx hop)
      · cases he
    · next hop => rw [hop]; rfl
    · next hop => rw [hop]; rfl
  have hfd' : x.1.fd = fd := Option.some.inj ((fdOf_of_len hlen).symm.trans hfd)
  obtain ⟨n, hn⟩ := Option.isSome_iff_exists.mp hlen
  obtain ⟨p, ci, c, hd, hci, -⟩ := hi.ready.job hx hn
  have hok := (hi.owned.ok_of_mem (mem_jobs (j := (p, x)).mpr ⟨hx, hd⟩) hci).job
  have he : ci.event = .read ∨ ci.event = .write := by
    have hne := (Op.len_isSome hok.event).mp hlen
    cases hce : ci.event with
    | accept => exact absurd hce hne
    | read => exact .inl rfl
    | write => exact .inr rfl
  refine ⟨p, ⟨ci, hci, he, hok.fd.symm.trans hfd'⟩, ?_⟩
  rintro q ⟨cj, hcj, hej, rfl⟩
  obtain ⟨y, hy, hdy, hfy⟩ := hi.serves hcj hej
  rw [hi.fds.unique hy hx hfy hfd] at hdy
  exact Option.some.inj (hdy.symm.trans hd)

/-! ## Requests -/

theorem Inv.lengths (hi : Inv env s) {x : Req × Option Int} (hx : x ∈ todo s) {n : Nat}
    (hn : x.1.op.len = some n) : 1 ≤ n ∧ n ≤ maxline := by
  obtain ⟨p, ci, c, hd, hci, -⟩ := hi.ready.job hx hn
  obtain ⟨cj, -, hok⟩ := hi.ready.live x hx p hd
  obtain ⟨h1, h2, -⟩ := hok.len n hn
  exact ⟨h1, h2⟩

theorem Inv.opened (hi : Inv env s) {x : Req × Option Int} (hx : x ∈ todo s) :
    x.1.op = .nop ∨ (x.1.op = .accept ∧ x.1.fd = env.sockfd) ∨
      (s.table x.1.fd).isSome = true := by
  cases hop : x.1.op with
  | nop => exact .inl rfl
  | accept =>
    refine .inr (.inl ⟨rfl, ?_⟩)
    cases hd : x.1.data with
    | none =>
      have hnop := hi.null x hx hd
      rw [hop] at hnop
      cases hnop
    | some p =>
      obtain ⟨ci, -, hok⟩ := hi.ready.live x hx p hd
      have hev := hok.event
      rw [hop] at hev
      rw [hok.fd]
      exact hok.listen (Option.some.inj hev).symm
  | recv n => exact .inr (.inr (hi.ready.table x hx (by rw [hop]; rfl)))
  | send n => exact .inr (.inr (hi.ready.table x hx (by rw [hop]; rfl)))

/-! ## Room in the submission queue -/

/-- A turn of the loop queues at most two entries, and a batch has at most `cqeLen` turns. -/
def Slack (s : State) : Prop :=
  s.ring.entries = ringLen ∧
    match s.pc with
    | .submit => s.ring.sq.length ≤ 20
    | .peek => s.ring.sq = []
    | .loop => s.cqecount ≤ cqeLen ∧ s.i ≤ s.cqecount ∧ s.ring.sq.length ≤ 2 * s.i
    | .fault => False

theorem Slack.queued (h : Slack s) : s.ring.sq.length ≤ 20 := by
  have h10 : cqeLen = 10 := rfl
  obtain ⟨-, h⟩ := h
  split at h
  · exact h
  · rw [h]
    exact Nat.zero_le _
  · omega
  · exact h.elim

theorem Slack.room (h : Slack s) : s.ring.sq.length + 2 ≤ s.ring.entries := by
  have hq := h.queued
  have he := h.1
  have h1024 : ringLen = 1024 := rfl
  omega

/-- A completion by the kernel does not touch the submission queue. -/
theorem Slack.complete (h : Slack s) {i : Nat} {q : Req} {res : Int} (h1 : s'.pc = s.pc)
    (h2 : s'.i = s.i) (h3 : s'.cqecount = s.cqecount) (h4 : s'.ring = completed s.ring i q res) :
    Slack s' := by
  unfold Slack at h ⊢
  rw [h1, h2, h3, h4]
  exact h

theorem Slack.turn (h : Slack s) (hpc : s.pc = .loop) (hlt : s.i < s.cqecount)
    (h1 : s'.pc = s.pc) (h2 : s'.i = s.i + 1) (h3 : s'.cqecount = s.cqecount)
    (h4 : s'.ring.entries = s.ring.entries)
    (h5 : s'.ring.sq.length ≤ s.ring.sq.length + 2) : Slack s' := by
  obtain ⟨he, h⟩ := h
  rw [hpc] at h
  refine ⟨h4.trans he, ?_⟩
  rw [h1, hpc, h2, h3]
  simp only at h ⊢
  omega

theorem slack_step {a : Act} (h : Slack s) (ha : a.Assumed) (ht : Trans env s a s') :
    Slack s' := by
  have hroom := h.room
  have h10 : cqeLen = 10 := rfl
  cases ht with
  | idle i q res bs hq hop => exact h.complete rfl rfl rfl rfl
  | accepted i q fd bs hq hop hr htb => exact h.complete rfl rfl rfl rfl
  | received i q len p c ci res given bs => exact h.complete rfl rfl rfl rfl
  | sent i q len p c ci res given => exact h.complete rfl rfl rfl rfl
  | submitted a hpc =>
    rw [ha.2]
    exact ⟨h.1, rfl⟩
  | peeked a hpc =>
    obtain ⟨he, h⟩ := h
    rw [hpc] at h
    refine ⟨he, Nat.min_le_left _ _, Nat.zero_le _, ?_⟩
    simp only at h
    simp only [h, List.length_nil, Nat.le_refl]
  | advanced a hpc hic =>
    obtain ⟨he, h⟩ := h
    rw [hpc] at h
    refine ⟨he, ?_⟩
    simp only [IoRing.advance] at h ⊢
    omega
  | crashed a hpc hlt hwhy =>
    rcases hwhy with hm | hs
    · rw [ha.1] at hm
      cases hm
    · omega
  | null a x hpc hlt => exact h.turn hpc hlt rfl rfl rfl rfl (Nat.le_add_right _ _)
  | acceptFail a x p ci hpc hlt => exact h.turn hpc hlt rfl rfl rfl rfl (Nat.le_add_right _ _)
  | acceptDone a x p ci hpc hlt => exact h.turn hpc hlt rfl rfl rfl rfl (by simp)
  | ended a x p c ci hpc hlt => exact h.turn hpc hlt rfl rfl rfl rfl (Nat.le_add_right _ _)
  | echoed a x p c ci hpc hlt => exact h.turn hpc hlt rfl rfl rfl rfl (by simp)
  | resumed a x p c ci hpc hlt => exact h.turn hpc hlt rfl rfl rfl rfl (by simp)

theorem slack_run {acts : List Act} (ha : ∀ a ∈ acts, a.Assumed)
    (hr : run (step env) (init env) acts = some s) : Inv env s ∧ Slack s := by
  have hstep : ∀ s (a : Act) s', Inv env s ∧ Slack s → a.Assumed → step env s a = some s' →
      Inv env s' ∧ Slack s' := by
    intro s a s' ⟨hi, hs⟩ ha h
    have ht := step_trans hi.ready h
    exact ⟨inv_step hi ht, slack_step hs ha ht⟩
  exact run_inv hstep ⟨inv_init env, rfl, by simp [init]⟩ (along_of_forall (fun _ _ h => h) _ _ ha) hr

theorem Inv.sound (hi : Inv env s) (hs : Slack s) : Sound env s where
  owner := hi.owner
  served _ := hi.served
  closed o ho := by
    obtain ⟨c, hc, hlt, -⟩ := hi.table.closed o ho
    exact ⟨c, hc, hlt⟩
  once := hi.table.once
  opened _ := hi.opened
  recv _ hx n hop := hi.lengths hx (n := n) (by rw [hop]; rfl)
  send _ hx n hop := (hi.lengths hx (n := n) (by rw [hop]; rfl)).2
  queued := hs.queued
  room q := by
    rw [IoRing.prep_of_lt (by have := hs.room; omega)]
    rfl
  noFault hpc := by
    have h := hs.2
    rw [hpc] at h
    exact h

/-! ## Runs -/

theorem server_ownership (env : Env) (acts : List Act) (s : State)
    (ha : ∀ a ∈ acts, a.Assumed) (hr : run (step env) (init env) acts = some s) : Sound env s :=
  (slack_run ha hr).1.sound (slack_run ha hr).2

/-- A client is accepted on descriptor 5, sends two bytes, gets them back and hangs up. -/
def oneClient : List Act :=
  [.prog {}, .complete 1 5 [], .prog {}, .prog {}, .prog {}, .prog {},
    .complete 1 2 [97, 98], .prog {}, .prog {}, .prog {}, .prog {},
    .complete 2 2 [], .prog {}, .prog {}, .prog {}, .prog {},
    .complete 2 0 [], .prog {}, .prog {}]

theorem server_ownership_oneClient :
    ∃ s, run (step env₀) (init env₀) oneClient = some s ∧ s.closes = [some 0] ∧ Sound env₀ s := by
  have h : (run (step env₀) (init env₀) oneClient).map (fun s => s.closes) = some [some 0] := by
    decide +kernel
  obtain ⟨s, hr, hc⟩ := Option.map_eq_some_iff.mp h
  exact ⟨s, hr, hc, server_ownership env₀ oneClient s (by decide) hr⟩

end KernelMagic.Server
