/-
  The invariant of the server.

  `Owned` (for the relation `Ok`): the requests that are to be done own the live `ConnInfo`s, one
  each. `Fds`: the descriptors of the requests that move bytes, and those that an accept has returned
  and the loop has not seen yet, are the open ones, each once. `Table`: a connection has one
  descriptor, and is closed at most once. `Window`: the completions of the batch are in the queue.

  `Stage` is where the dialogue on a connection stands, a function of its log. `TalkOk` relates it to
  the request that is under way on the connection: while a recv is, everything received has been
  answered; while a send is, its payload is the bytes of the last recv.
-/
import KernelMagic.Server.Steps

namespace KernelMagic.Server

open KernelMagic.Lib

/-! ## Dialogues -/

inductive Stage where
  | reading
  | writing (bs : List UInt8)
  | over
  deriving DecidableEq, Repr

def Stage.next : Stage → Ev → Stage
  | .reading, .recv res bs => if 0 < res then .writing bs else .over
  | .writing _, .send res _ => if 0 < res then .reading else .over
  | _, _ => .over

def stage (l : List Ev) : Stage := l.foldl Stage.next .reading

theorem stage_snoc (l : List Ev) (e : Ev) : stage (l ++ [e]) = (stage l).next e := by
  unfold stage
  rw [List.foldl_append]
  rfl

/-- What the loop does in answer to a completion. -/
def answer : Ev → List Out
  | .recv res bs => if res ≤ 0 then [.close] else [.send res.toNat bs]
  | .send res _ => if res ≤ 0 then [.close] else []

/-- The completions on the connection that the loop has processed. -/
def Conn.seen (k : Conn) : List Ev := k.log.take k.handled

/-- Where the connection stands while `op` is under way on it, or completed with `res`. -/
def Conn.At (k : Conn) (op : Op) (res : Option Int) (buf : Nat → UInt8) : Prop :=
  match op, res with
  | .recv _, none => k.handled = k.log.length ∧ stage k.log = .reading
  | .recv _, some r => ∃ l, k.log = l ++ [.recv r (grab buf 0 r.toNat)] ∧ k.handled = l.length ∧
      stage l = .reading
  | .send n, none => k.handled = k.log.length ∧ stage k.log = .writing (grab buf 0 n)
  | .send _, some r => ∃ l bs b, k.log = l ++ [.send r bs] ∧ k.handled = l.length ∧
      stage l = .writing b
  | _, _ => True

def TalkOk (table : Nat → Option Nat) (conns : Nat → Conn) (x : Req × Option Int)
    (ci : ConnInfo) : Prop :=
  ∀ c, x.1.op.len.isSome = true → table x.1.fd = some c → (conns c).At x.1.op x.2 ci.buffer

/-! ## Requests and descriptors -/

/-- The requests with user data, each with its `ConnInfo`. -/
def jobs (P : Multiset (Req × Option Int)) : Multiset (Nat × Req × Option Int) :=
  P.filterMap fun x => x.1.data.map fun p => (p, x)

/-- The descriptor that a request keeps open: the one it works on, or the one it has accepted. -/
def fdOf (x : Req × Option Int) : Option Nat :=
  match x.1.op with
  | .nop => none
  | .accept => x.2.bind fun r => if 0 ≤ r then some r.toNat else none
  | .recv _ => some x.1.fd
  | .send _ => some x.1.fd

def fds (P : Multiset (Req × Option Int)) : Multiset Nat := P.filterMap fdOf

structure Fds (table : Nat → Option Nat) (P : Multiset (Req × Option Int)) : Prop where
  nodup : (fds P).Nodup
  mem : ∀ fd, fd ∈ fds P ↔ (table fd).isSome = true

structure Table (env : Env) (table : Nat → Option Nat) (next : Nat) (closes : List (Option Nat)) :
    Prop where
  inj : ∀ fd fd' c, table fd = some c → table fd' = some c → fd = fd'
  lt : ∀ fd c, table fd = some c → c < next
  free : ∀ fd c, table fd = some c → env.reserved fd = false
  closed : ∀ o ∈ closes, ∃ c, o = some c ∧ c < next ∧ ∀ fd, table fd ≠ some c
  once : closes.Nodup

/-- The completions that the loop goes through. -/
structure Window (s : State) : Prop where
  le : s.i ≤ s.cqecount
  le_length : s.cqecount ≤ s.ring.cq.length
  start : s.pc = .submit ∨ s.pc = .peek → s.i = 0

/-- A request and its `ConnInfo`. -/
structure Ok (env : Env) (table : Nat → Option Nat) (conns : Nat → Conn)
    (j : Nat × Req × Option Int) (ci : ConnInfo) : Prop where
  job : JobOk env j.2 ci
  talk : TalkOk table conns j.2 ci

structure Inv (env : Env) (s : State) : Prop where
  owned : Owned Prod.fst (Ok env s.table s.conns) s.heap (jobs (todo s))
  null : ∀ x ∈ todo s, x.1.data = none → x.1.op = .nop
  fds : Fds s.table (todo s)
  table : Table env s.table s.next s.closes
  window : Window s
  fresh : ∀ c, s.next ≤ c → s.conns c = {}
  unseen : ∀ x ∈ todo s, ∀ fd c, x.1.op = .accept → fdOf x = some fd → s.table fd = some c →
    s.conns c = {}
  answered : ∀ c, (s.conns c).handled ≤ (s.conns c).log.length ∧
    (s.conns c).out = (s.conns c).seen.flatMap answer

variable {env : Env} {s s' : State} {P : Multiset (Req × Option Int)} {x y : Req × Option Int}
  {table : Nat → Option Nat} {conns : Nat → Conn} {ci : ConnInfo} {fd c p : Nat}

theorem jobs_cons_some (h : x.1.data = some p) : jobs (x ::ₘ P) = (p, x) ::ₘ jobs P :=
  Multiset.filterMap_cons_some _ _ _ (by rw [h]; rfl)

theorem jobs_cons_none (h : x.1.data = none) : jobs (x ::ₘ P) = jobs P :=
  Multiset.filterMap_cons_none _ _ (by rw [h]; rfl)

theorem mem_jobs {j : Nat × Req × Option Int} :
    j ∈ jobs P ↔ j.2 ∈ P ∧ j.2.1.data = some j.1 := by
  unfold jobs
  rw [Multiset.mem_filterMap]
  constructor
  · rintro ⟨x, hx, he⟩
    obtain ⟨q, hq, rfl⟩ := Option.map_eq_some_iff.mp he
    exact ⟨hx, hq⟩
  · rintro ⟨hx, hd⟩
    exact ⟨j.2, hx, by rw [hd]; rfl⟩

theorem fdOf_of_len (h : x.1.op.len.isSome = true) : fdOf x = some x.1.fd := by
  unfold fdOf
  cases hop : x.1.op with
  | nop =>
    rw [hop] at h
    cases h
  | accept =>
    rw [hop] at h
    cases h
  | recv n => rfl
  | send n => rfl

/-! ## Descriptors along the transitions -/

theorem Fds.same (h : Fds table (x ::ₘ P)) (he : fdOf y = fdOf x) : Fds table (y ::ₘ P) := by
  have hf : Server.fds (y ::ₘ P) = Server.fds (x ::ₘ P) := by
    unfold Server.fds
    cases hx : fdOf x with
    | none => rw [Multiset.filterMap_cons_none _ _ hx, Multiset.filterMap_cons_none _ _ (he.trans hx)]
    | some fd =>
      rw [Multiset.filterMap_cons_some _ _ _ hx, Multiset.filterMap_cons_some _ _ _ (he.trans hx)]
  exact ⟨by rw [hf]; exact h.nodup, by rw [hf]; exact h.mem⟩

theorem Fds.skip (h : fdOf x = none) : Fds table (x ::ₘ P) ↔ Fds table P := by
  have hf : Server.fds (x ::ₘ P) = Server.fds P := Multiset.filterMap_cons_none _ _ h
  constructor
  · intro hs
    exact ⟨by rw [← hf]; exact hs.nodup, by rw [← hf]; exact hs.mem⟩
  · intro hs
    exact ⟨by rw [hf]; exact hs.nodup, by rw [hf]; exact hs.mem⟩

/-- A new connection. -/
theorem Fds.opened (h : Fds table P) (hx : fdOf x = some fd) (ht : table fd = none) (n : Nat) :
    Fds (Function.update table fd (some n)) (x ::ₘ P) := by
  have hf : Server.fds (x ::ₘ P) = fd ::ₘ Server.fds P := Multiset.filterMap_cons_some _ _ _ hx
  have hnot : fd ∉ Server.fds P := by
    intro hm
    have := (h.mem fd).mp hm
    rw [ht] at this
    cases this
  refine ⟨?_, fun fd' => ?_⟩
  · rw [hf]
    exact Multiset.nodup_cons.mpr ⟨hnot, h.nodup⟩
  · rw [hf, Multiset.mem_cons, h.mem]
    by_cases he : fd' = fd
    · simp [he]
    · simp [he]

theorem Fds.closed (h : Fds table (x ::ₘ P)) (hx : fdOf x = some fd) :
    Fds (Function.update table fd none) P := by
  have hf : Server.fds (x ::ₘ P) = fd ::ₘ Server.fds P := Multiset.filterMap_cons_some _ _ _ hx
  have hn := h.nodup
  rw [hf, Multiset.nodup_cons] at hn
  refine ⟨hn.2, fun fd' => ?_⟩
  have hm := h.mem fd'
  rw [hf, Multiset.mem_cons] at hm
  by_cases he : fd' = fd
  · simp [he, hn.1]
  · rw [Function.update_of_ne he, ← hm]
    simp [he]

/-- The other requests have other descriptors. -/
theorem Fds.ne (h : Fds table (x ::ₘ P)) (hx : fdOf x = some fd) (hy : y ∈ P) {fd' : Nat}
    (hfd : fdOf y = some fd') : fd' ≠ fd := by
  have hf : Server.fds (x ::ₘ P) = fd ::ₘ Server.fds P := Multiset.filterMap_cons_some _ _ _ hx
  have hn := h.nodup
  rw [hf, Multiset.nodup_cons] at hn
  intro he
  exact hn.1 ((Multiset.mem_filterMap _ _).mpr ⟨y, hy, by rw [hfd, he]⟩)

theorem Table.accept {next : Nat} {closes : List (Option Nat)} (h : Table env table next closes)
    (ht : table fd = none) (hr : env.reserved fd = false) :
    Table env (Function.update table fd (some next)) (next + 1) closes := by
  refine ⟨?_, ?_, ?_, ?_, h.once⟩
  · intro f f' c hf hf'
    by_cases h1 : f = fd
    · by_cases h2 : f' = fd
      · rw [h1, h2]
      · subst h1
        rw [Function.update_self] at hf
        rw [Function.update_of_ne h2] at hf'
        cases hf
        exact absurd (h.lt _ _ hf') (Nat.lt_irrefl _)
    · by_cases h2 : f' = fd
      · subst h2
        rw [Function.update_self] at hf'
        rw [Function.update_of_ne h1] at hf
        cases hf'
        exact absurd (h.lt _ _ hf) (Nat.lt_irrefl _)
      · rw [Function.update_of_ne h1] at hf
        rw [Function.update_of_ne h2] at hf'
        exact h.inj f f' c hf hf'
  · intro f c hf
    by_cases h1 : f = fd
    · subst h1
      rw [Function.update_self] at hf
      cases hf
      exact Nat.lt_succ_self _
    · rw [Function.update_of_ne h1] at hf
      exact Nat.lt_succ_of_lt (h.lt f c hf)
  · intro f c hf
    by_cases h1 : f = fd
    · rw [h1]
      exact hr
    · rw [Function.update_of_ne h1] at hf
      exact h.free f c hf
  · intro o ho
    obtain ⟨c, hc, hlt, hne⟩ := h.closed o ho
    refine ⟨c, hc, Nat.lt_succ_of_lt hlt, fun f => ?_⟩
    by_cases h1 : f = fd
    · subst h1
      rw [Function.update_self]
      exact fun he => absurd (Option.some.inj he) (Nat.ne_of_gt hlt)
    · rw [Function.update_of_ne h1]
      exact hne f

theorem Table.close {next : Nat} {closes : List (Option Nat)} (h : Table env table next closes)
    (hc : table fd = some c) :
    Table env (Function.update table fd none) next (closes ++ [some c]) := by
  have hsub : ∀ f d, Function.update table fd none f = some d → f ≠ fd ∧ table f = some d := by
    intro f d hf
    by_cases h1 : f = fd
    · subst h1
      rw [Function.update_self] at hf
      cases hf
    · rw [Function.update_of_ne h1] at hf
      exact ⟨h1, hf⟩
  refine ⟨?_, ?_, ?_, ?_, ?_⟩
  · exact fun f f' d hf hf' => h.inj f f' d (hsub f d hf).2 (hsub f' d hf').2
  · exact fun f d hf => h.lt f d (hsub f d hf).2
  · exact fun f d hf => h.free f d (hsub f d hf).2
  · intro o ho
    rcases List.mem_append.mp ho with ho | ho
    · obtain ⟨d, hd, hlt, hne⟩ := h.closed o ho
      exact ⟨d, hd, hlt, fun f hf => hne f (hsub f d hf).2⟩
    · rw [List.mem_singleton.mp ho]
      refine ⟨c, rfl, h.lt fd c hc, fun f hf => ?_⟩
      obtain ⟨hne, hf'⟩ := hsub f c hf
      exact hne (h.inj f fd c hf' hc)
  · refine List.Nodup.append h.once (List.nodup_singleton _) ?_
    rw [List.disjoint_singleton]
    intro hm
    obtain ⟨d, hd, -, hne⟩ := h.closed _ hm
    cases hd
    exact hne fd hc

/-! ## Dialogues along the transitions -/

theorem TalkOk.other (h : TalkOk table conns x ci) {k : Conn}
    (hne : x.1.op.len.isSome = true → table x.1.fd ≠ some c) :
    TalkOk table (Function.update conns c k) x ci := by
  intro d hl hd
  have hdc : d ≠ c := by
    rintro rfl
    exact hne hl hd
  rw [Function.update_of_ne hdc]
  exact h d hl hd

/-- The requests on other descriptors are on other connections. -/
theorem Fds.others {next : Nat} {closes : List (Option Nat)} (h : Fds table (x ::ₘ P))
    (ht : Table env table next closes) (hx : fdOf x = some fd) (hc : table fd = some c) (hy : y ∈ P)
    (hl : y.1.op.len.isSome = true) : table y.1.fd ≠ some c := by
  intro he
  exact h.ne hx hy (fdOf_of_len hl) (ht.inj _ _ c he hc)

/-! ## The requests along the transitions -/

/-- The steps between the turns leave the requests as they are. -/
theorem Window.todo_submitted (hw : Window s) (hpc : s.pc = .submit) (a : SubmitRet) :
    todo { s with ring := (s.ring.submit a).1, pc := .peek } = todo s := by
  simp only [todo, hw.start (.inl hpc)]
  exact IoRing.outstanding_submit s.ring a

theorem Window.todo_peeked (hw : Window s) (hpc : s.pc = .peek) (n : Nat) :
    todo { s with i := 0, cqecount := n, pc := .loop } = todo s := by
  simp only [todo, hw.start (.inr hpc)]

theorem todo_advanced (hi : s.i = s.cqecount) :
    todo { s with
      ring := s.ring.advance s.cqecount, i := 0, cqecount := 0, pc := .submit } = todo s := by
  simp only [todo, hi]
  rfl

theorem todo_complete {i : Nat} {q : Req} (hq : s.ring.inflight[i]? = some q)
    (hi : s.i ≤ s.ring.cq.length) (res : Int) :
    ∃ P, todo s = (q, none) ::ₘ P ∧
      ((completed s.ring i q res).advance s.i).outstanding = (q, some res) ::ₘ P :=
  IoRing.outstanding_finish_behind hq hi q res

theorem todo_head {x : Cqe Req} (hx : s.ring.cq[s.i]? = some x) :
    todo s = (x.req, some x.res) ::ₘ (s.ring.advance (s.i + 1)).outstanding :=
  IoRing.outstanding_head hx

theorem Inv.ready (hi : Inv env s) : Ready env s := by
  refine ⟨⟨hi.window.le, hi.window.le_length⟩, ?_, hi.null, ?_⟩
  · intro x hx p hp
    obtain ⟨ci, hci, hok⟩ := hi.owned.job (p, x) (mem_jobs.mpr ⟨hx, hp⟩)
    exact ⟨ci, hci, hok.job⟩
  · intro x hx hl
    exact (hi.fds.mem _).mp ((Multiset.mem_filterMap _ _).mpr ⟨x, hx, fdOf_of_len hl⟩)

theorem Inv.i_le (hi : Inv env s) : s.i ≤ s.ring.cq.length := by
  exact Nat.le_trans hi.window.le hi.window.le_length

/-! ## Completions by the kernel -/

section Kernel

variable {i : Nat} {q : Req} {res : Int}

theorem Inv.window_complete (hi : Inv env s) (h1 : s'.pc = s.pc) (h2 : s'.i = s.i)
    (h3 : s'.cqecount = s.cqecount) (h4 : s'.ring = completed s.ring i q res) : Window s' := by
  refine ⟨by rw [h2, h3]; exact hi.window.le, ?_, by rw [h1, h2]; exact hi.window.start⟩
  rw [h3, h4]
  simp only [completed, List.length_append]
  exact Nat.le_add_right_of_le hi.window.le_length

/-- A completion keeps the user data of the request. -/
theorem Inv.null_complete (hi : Inv env s) (hP : todo s = (q, none) ::ₘ P) :
    ∀ x ∈ (q, some res) ::ₘ P, x.1.data = none → x.1.op = .nop := by
  have hn := hi.null
  rw [hP, Multiset.forall_mem_cons] at hn
  exact Multiset.forall_mem_cons.mpr hn

/-- A completion of a request that keeps no descriptor, before and after. -/
theorem Inv.idle (hi : Inv env s) (hq : s.ring.inflight[i]? = some q)
    (hop : q.op = .nop ∨ q.op = .accept ∧ res < 0) :
    Inv env { s with ring := completed s.ring i q res } := by
  obtain ⟨P, hP, hP'⟩ := todo_complete hq hi.i_le res
  have htodo : todo { s with ring := completed s.ring i q res } = (q, some res) ::ₘ P := hP'
  have hlen : q.op.len = none := by
    rcases hop with h | ⟨h, -⟩ <;> rw [h] <;> rfl
  have hnone : fdOf (q, none) = none := by
    unfold fdOf
    rcases hop with h | ⟨h, -⟩ <;> simp [h]
  have hsome : fdOf (q, some res) = none := by
    unfold fdOf
    rcases hop with h | ⟨h, hneg⟩
    · simp [h]
    · simp only [h, Option.bind_some, if_neg (show ¬ 0 ≤ res by omega)]
  refine ⟨?_, by rw [htodo]; exact hi.null_complete hP, ?_, hi.table,
    hi.window_complete rfl rfl rfl rfl, hi.fresh, ?_, hi.answered⟩
  · have ho := hi.owned
    rw [htodo]
    rw [hP] at ho
    cases hd : q.data with
    | none =>
      rw [jobs_cons_none hd] at ho ⊢
      exact ho
    | some p =>
      rw [jobs_cons_some hd] at ho ⊢
      obtain ⟨ci, hci, hok⟩ := ho.job _ (Multiset.mem_cons_self _ _)
      refine ho.update_entry hci rfl ⟨?_, ?_⟩ fun _ _ _ h => h
      · exact ⟨hok.job.event, hok.job.fd, hok.job.listen, hok.job.len,
          fun n r hn => by rw [hlen] at hn; cases hn⟩
      · intro c hl
        simp only [hlen] at hl
        cases hl
  · have hf := hi.fds
    rw [hP, Fds.skip hnone] at hf
    rw [htodo, Fds.skip hsome]
    exact hf
  · have hu := hi.unseen
    rw [hP, Multiset.forall_mem_cons] at hu
    rw [htodo, Multiset.forall_mem_cons]
    refine ⟨fun fd c _ hfd => ?_, hu.2⟩
    rw [hsome] at hfd
    cases hfd

/-- A new connection. -/
theorem Inv.accepted (hi : Inv env s) (hq : s.ring.inflight[i]? = some q) (hop : q.op = .accept)
    (hr : env.reserved fd = false) (ht : s.table fd = none) :
    Inv env { s with
      ring := completed s.ring i q fd
      table := Function.update s.table fd (some s.next)
      next := s.next + 1 } := by
  obtain ⟨P, hP, hP'⟩ := todo_complete hq hi.i_le fd
  have htodo : todo { s with
      ring := completed s.ring i q fd
      table := Function.update s.table fd (some s.next)
      next := s.next + 1 } = (q, some (fd : Int)) ::ₘ P := hP'
  have hsome : fdOf (q, some (fd : Int)) = some fd := by
    unfold fdOf
    simp [hop]
  have hf := hi.fds
  rw [hP, Fds.skip (by unfold fdOf; simp [hop])] at hf
  -- the requests of `P` have descriptors that were open before
  have hne : ∀ y ∈ P, ∀ f, fdOf y = some f → f ≠ fd := by
    rintro y hy f hyf rfl
    have := (hf.mem f).mp ((Multiset.mem_filterMap _ _).mpr ⟨y, hy, hyf⟩)
    rw [ht] at this
    cases this
  have hlen : q.op.len = none := by rw [hop]; rfl
  refine ⟨?_, by rw [htodo]; exact hi.null_complete hP, ?_, hi.table.accept ht hr,
    hi.window_complete rfl rfl rfl rfl, fun c hc => hi.fresh c (Nat.le_of_succ_le hc),
    ?_, hi.answered⟩
  · have ho := hi.owned
    rw [htodo]
    rw [hP] at ho
    cases hd : q.data with
    | none =>
      have := hi.null (q, none) (by rw [hP]; exact Multiset.mem_cons_self _ _) hd
      rw [hop] at this
      cases this
    | some p =>
      rw [jobs_cons_some hd] at ho ⊢
      obtain ⟨ci, hci, hok⟩ := ho.job _ (Multiset.mem_cons_self _ _)
      refine ho.update_entry hci rfl ⟨?_, ?_⟩ ?_
      · exact ⟨hok.job.event, hok.job.fd, hok.job.listen, hok.job.len,
          fun n r hn => by rw [hlen] at hn; cases hn⟩
      · intro c hl
        simp only [hlen] at hl
        cases hl
      · intro e he x hx
        refine ⟨hx.job, fun c hl hc => ?_⟩
        simp only at hc
        rw [Function.update_of_ne (hne e.2 (mem_jobs.mp he).1 _ (fdOf_of_len hl))] at hc
        exact hx.talk c hl hc
  · rw [htodo]
    exact hf.opened hsome ht s.next
  · have hu := hi.unseen
    rw [hP, Multiset.forall_mem_cons] at hu
    rw [htodo, Multiset.forall_mem_cons]
    refine ⟨fun f c _ hfd hc => ?_, fun y hy f c hyop hyf hc => ?_⟩
    · rw [hsome] at hfd
      cases hfd
      simp only [Function.update_self] at hc
      cases hc
      exact hi.fresh s.next (Nat.le_refl _)
    · simp only at hc
      rw [Function.update_of_ne (hne y hy f hyf)] at hc
      exact hu.2 y hy f c hyop hyf hc

theorem grab_blit (buf : Nat → UInt8) {bs : List UInt8} {n : Nat} (h : bs.length = n) :
    grab (blit buf 0 bs) 0 n = bs := by
  subst h
  apply List.ext_getElem
  · simp
  · intro i h1 h2
    simp [grab, blit, h2]

/-- A completion on connection `c` goes to the end of its log; the loop has not processed it. -/
theorem Inv.answered_logged (hi : Inv env s) (c : Nat) (e : Ev) (d : Nat) :
    (Function.update s.conns c ((s.conns c).logged e) d).handled ≤
        (Function.update s.conns c ((s.conns c).logged e) d).log.length ∧
      (Function.update s.conns c ((s.conns c).logged e) d).out =
        (Function.update s.conns c ((s.conns c).logged e) d).seen.flatMap answer := by
  obtain ⟨h1, h2⟩ := hi.answered d
  by_cases hd : d = c
  · subst hd
    rw [Function.update_self]
    simp only [Conn.logged, Conn.seen, List.length_append, List.take_append_of_le_length h1]
    exact ⟨Nat.le_add_right_of_le h1, h2⟩
  · rw [Function.update_of_ne hd]
    exact ⟨h1, h2⟩

/-- What a change of connection `c` leaves alone. -/
theorem Inv.conns_other (hi : Inv env s) (hP : todo s = x ::ₘ P) (hx : fdOf x = some fd)
    (hc : s.table fd = some c) (k : Conn) :
    (∀ d, s.next ≤ d → Function.update s.conns c k d = {}) ∧
      ∀ y ∈ P, ∀ f d, y.1.op = .accept → fdOf y = some f → s.table f = some d →
        Function.update s.conns c k d = {} := by
  have hf := hi.fds
  rw [hP] at hf
  refine ⟨fun d hd => ?_, fun y hy f d hop hyf hd => ?_⟩
  · have hlt := hi.table.lt fd c hc
    rw [Function.update_of_ne (by omega)]
    exact hi.fresh d hd
  · have hdc : d ≠ c := by
      rintro rfl
      exact hf.ne hx hy hyf (hi.table.inj f fd d hd hc)
    rw [Function.update_of_ne hdc]
    exact hi.unseen y (by rw [hP]; exact Multiset.mem_cons_of_mem hy) f d hop hyf hd

/-- A completion of a request that moves bytes. -/
theorem Inv.moved (hi : Inv env s) (hq : s.ring.inflight[i]? = some q) {len : Nat}
    (hlen : q.op.len = some len) (hdata : q.data = some p) (hci : s.heap.cell p = some ci)
    (hc : s.table q.fd = some c) (hres : res ≤ len) (e : Ev) (buf : Nat → UInt8)
    (hat : (s.conns c).At q.op none ci.buffer →
      ((s.conns c).logged e).At q.op (some res) buf) :
    Inv env { s with
      ring := completed s.ring i q res
      heap := s.heap.put p { ci with buffer := buf }
      conns := Function.update s.conns c ((s.conns c).logged e) } := by
  obtain ⟨P, hP, hP'⟩ := todo_complete hq hi.i_le res
  have htodo : todo { s with
      ring := completed s.ring i q res
      heap := s.heap.put p { ci with buffer := buf }
      conns := Function.update s.conns c ((s.conns c).logged e) } = (q, some res) ::ₘ P := hP'
  have hsome : ∀ o : Option Int, fdOf (q, o) = some q.fd :=
    fun o => fdOf_of_len (x := (q, o)) (by rw [hlen]; rfl)
  have hf := hi.fds
  rw [hP] at hf
  obtain ⟨hfresh, hunseen⟩ := hi.conns_other hP (hsome none) hc ((s.conns c).logged e)
  refine ⟨?_, by rw [htodo]; exact hi.null_complete hP, ?_, hi.table,
    hi.window_complete rfl rfl rfl rfl, hfresh, ?_, hi.answered_logged c e⟩
  · have ho := hi.owned
    rw [htodo]
    rw [hP, jobs_cons_some hdata] at ho
    rw [jobs_cons_some hdata]
    have hok := ho.head hci
    refine ho.update hci rfl ⟨?_, ?_⟩ ?_
    · refine ⟨hok.job.event, hok.job.fd, hok.job.listen, hok.job.len, fun n r hn hr => ?_⟩
      simp only [hlen] at hn
      cases hn
      cases hr
      exact hres
    · intro d hl hd
      obtain rfl : c = d := Option.some.inj (hc.symm.trans hd)
      simp only [Function.update_self]
      exact hat (hok.talk c hl hc)
    · intro y hy z hz
      exact ⟨hz.job, hz.talk.other fun hl =>
        hf.others hi.table (hsome none) hc (mem_jobs.mp hy).1 hl⟩
  · rw [htodo]
    exact hf.same ((hsome _).trans (hsome none).symm)
  · rw [htodo, Multiset.forall_mem_cons]
    refine ⟨fun f d hop => ?_, hunseen⟩
    simp only at hop
    rw [hop] at hlen
    cases hlen

theorem Inv.received (hi : Inv env s) (hq : s.ring.inflight[i]? = some q) {len : Nat}
    (hop : q.op = .recv len) (hdata : q.data = some p) (hci : s.heap.cell p = some ci)
    (hc : s.table q.fd = some c) (hres : res ≤ len) {bs : List UInt8}
    (hbs : bs.length = res.toNat) :
    Inv env { s with
      ring := completed s.ring i q res
      heap := s.heap.put p { ci with buffer := blit ci.buffer 0 bs }
      conns := Function.update s.conns c ((s.conns c).logged (.recv res bs)) } := by
  refine hi.moved hq (by rw [hop]; rfl) hdata hci hc hres _ _ ?_
  rw [hop]
  rintro ⟨h1, h2⟩
  refine ⟨(s.conns c).log, ?_, h1, h2⟩
  rw [grab_blit _ hbs]
  rfl

theorem Inv.sent (hi : Inv env s) (hq : s.ring.inflight[i]? = some q) {len : Nat}
    (hop : q.op = .send len) (hdata : q.data = some p) (hci : s.heap.cell p = some ci)
    (hc : s.table q.fd = some c) (hres : res ≤ len) (bs : List UInt8) :
    Inv env { s with
      ring := completed s.ring i q res
      conns := Function.update s.conns c ((s.conns c).logged (.send res bs)) } := by
  have h := hi.moved hq (by rw [hop]; rfl) hdata hci hc hres (.send res bs) ci.buffer (by
    rw [hop]
    rintro ⟨h1, h2⟩
    exact ⟨(s.conns c).log, bs, _, rfl, h1, h2⟩)
  rwa [Heap.put_eq_self hci] at h

end Kernel

/-! ## Turns of the loop -/

section Loop

variable {x : Cqe Req}

theorem Inv.window_turn (hi : Inv env s) (hpc : s.pc = .loop) (hlt : s.i < s.cqecount)
    (h1 : s'.pc = s.pc) (h2 : s'.i = s.i + 1) (h3 : s'.cqecount = s.cqecount)
    (h4 : s'.ring.cq = s.ring.cq) : Window s' := by
  refine ⟨by omega, by rw [h3, h4]; exact hi.window.le_length, fun h => ?_⟩
  rw [h1, hpc] at h
  rcases h with h | h <;> cases h

theorem Inv.null_rest (hi : Inv env s) (hx : s.ring.cq[s.i]? = some x) :
    ∀ y ∈ (s.ring.advance (s.i + 1)).outstanding, y.1.data = none → y.1.op = .nop := by
  have hn := hi.null
  rw [todo_head hx, Multiset.forall_mem_cons] at hn
  exact hn.2

theorem Inv.unseen_rest (hi : Inv env s) (hx : s.ring.cq[s.i]? = some x) :
    ∀ y ∈ (s.ring.advance (s.i + 1)).outstanding, ∀ fd c, y.1.op = .accept → fdOf y = some fd →
      s.table fd = some c → s.conns c = {} := by
  have hu := hi.unseen
  rw [todo_head hx, Multiset.forall_mem_cons] at hu
  exact hu.2

/-- A completion of the entry that was never prepared. -/
theorem Inv.nulled (hi : Inv env s) (hpc : s.pc = .loop) (hlt : s.i < s.cqecount)
    (hx : s.ring.cq[s.i]? = some x) (hdata : x.req.data = none) :
    Inv env { s with i := s.i + 1 } := by
  have hhead := todo_head hx
  have hop : x.req.op = .nop :=
    hi.null _ (by rw [hhead]; exact Multiset.mem_cons_self _ _) hdata
  have hfd : fdOf (x.req, some x.res) = none := by
    unfold fdOf
    simp [hop]
  have ho := hi.owned
  have hf := hi.fds
  rw [hhead, jobs_cons_none hdata] at ho
  rw [hhead, Fds.skip hfd] at hf
  exact ⟨ho, hi.null_rest hx, hf, hi.table,
    hi.window_turn hpc hlt rfl rfl rfl rfl, hi.fresh,
    hi.unseen_rest hx, hi.answered⟩

/-- The descriptor of an accept that the loop processes. -/
theorem Ok.accept_op {j : Nat × Req × Option Int} (hok : Ok env table conns j ci)
    (he : ci.event = .accept) : j.2.1.op = .accept := by
  have hev := hok.job.event
  rw [he] at hev
  exact Op.event_eq_accept.mp hev

/-- The completion that the loop processes is the first of what it has to do. -/
theorem Inv.current (hi : Inv env s) (hx : s.ring.cq[s.i]? = some x) (hdata : x.req.data = some p) :
    Owned Prod.fst (Ok env s.table s.conns) s.heap
        ((p, x.req, some x.res) ::ₘ jobs (s.ring.advance (s.i + 1)).outstanding) ∧
      Fds s.table ((x.req, some x.res) ::ₘ (s.ring.advance (s.i + 1)).outstanding) := by
  have ho := hi.owned
  have hf := hi.fds
  rw [todo_head hx, jobs_cons_some hdata] at ho
  rw [todo_head hx] at hf
  exact ⟨ho, hf⟩

theorem Inv.acceptFail (hi : Inv env s) (hpc : s.pc = .loop) (hlt : s.i < s.cqecount)
    (hx : s.ring.cq[s.i]? = some x) (hdata : x.req.data = some p) (hci : s.heap.cell p = some ci)
    (he : ci.event = .accept) (hres : x.res < 0) :
    Inv env { s with heap := s.heap.free p, i := s.i + 1 } := by
  obtain ⟨ho, hf⟩ := hi.current hx hdata
  have hop : x.req.op = .accept := (ho.head hci).accept_op he
  have hfd : fdOf (x.req, some x.res) = none := by
    unfold fdOf
    simp only [hop, Option.bind_some, if_neg (show ¬ 0 ≤ x.res by omega)]
  rw [Fds.skip hfd] at hf
  exact ⟨ho.retire, hi.null_rest hx, hf, hi.table,
    hi.window_turn hpc hlt rfl rfl rfl rfl, hi.fresh,
    hi.unseen_rest hx, hi.answered⟩

theorem Inv.acceptDone (hi : Inv env s) (hpc : s.pc = .loop) (hlt : s.i < s.cqecount)
    (hx : s.ring.cq[s.i]? = some x) (hdata : x.req.data = some p) (hci : s.heap.cell p = some ci)
    (he : ci.event = .accept) (hres : 0 ≤ x.res) :
    Inv env { s with
      heap := ((s.heap.alloc ⟨x.res.toNat, .read, fun _ => 0, maxline⟩).alloc
        ⟨ci.connfd, .accept, fun _ => 0, 0⟩).free p
      ring := { s.ring with sq := s.ring.sq ++ [⟨.recv maxline, x.res.toNat, some s.heap.next⟩] ++
        [⟨.accept, ci.connfd, some (s.heap.next + 1)⟩] }
      i := s.i + 1 } := by
  obtain ⟨ho, hf⟩ := hi.current hx hdata
  have hok := ho.head hci
  have hop : x.req.op = .accept := hok.accept_op he
  have hfd : fdOf (x.req, some x.res) = some x.res.toNat := by
    unfold fdOf
    simp only [hop, Option.bind_some, if_pos hres]
  -- the two entries that are queued
  have htodo : todo { s with
      heap := ((s.heap.alloc ⟨x.res.toNat, .read, fun _ => 0, maxline⟩).alloc
        ⟨ci.connfd, .accept, fun _ => 0, 0⟩).free p
      ring := { s.ring with sq := s.ring.sq ++ [⟨.recv maxline, x.res.toNat, some s.heap.next⟩] ++
        [⟨.accept, ci.connfd, some (s.heap.next + 1)⟩] }
      i := s.i + 1 } =
      (⟨.accept, ci.connfd, some (s.heap.next + 1)⟩, none) ::ₘ
        (⟨.recv maxline, x.res.toNat, some s.heap.next⟩, none) ::ₘ
          (s.ring.advance (s.i + 1)).outstanding := by
    have h1 := IoRing.outstanding_prep (s.ring.advance (s.i + 1))
      ⟨.recv maxline, x.res.toNat, some s.heap.next⟩
    have h2 := IoRing.outstanding_prep { s.ring.advance (s.i + 1) with
      sq := s.ring.sq ++ [⟨.recv maxline, x.res.toNat, some s.heap.next⟩] }
      ⟨.accept, ci.connfd, some (s.heap.next + 1)⟩
    unfold todo
    rw [← h1]
    exact h2
  have hrecv : Ok env s.table s.conns
      (s.heap.next, ⟨.recv maxline, x.res.toNat, some s.heap.next⟩, none)
      ⟨x.res.toNat, .read, fun _ => 0, maxline⟩ := by
    refine ⟨⟨rfl, rfl, by simp, ?_, by simp⟩, fun d _ hd => ?_⟩
    · intro n hn
      cases hn
      exact ⟨by decide, Nat.le_refl _, rfl⟩
    · have hempty := hi.unseen (x.req, some x.res)
        (by rw [todo_head hx]; exact Multiset.mem_cons_self _ _) x.res.toNat d hop hfd hd
      rw [hempty]
      exact ⟨rfl, rfl⟩
  have haccept : Ok env s.table s.conns
      (s.heap.next + 1, ⟨.accept, ci.connfd, some (s.heap.next + 1)⟩, none)
      ⟨ci.connfd, .accept, fun _ => 0, 0⟩ :=
    ⟨⟨rfl, rfl, fun _ => hok.job.listen he, by simp [Op.len], by simp⟩, by simp [TalkOk, Op.len]⟩
  refine ⟨?_, ?_, ?_, hi.table, hi.window_turn hpc hlt rfl rfl rfl rfl,
    hi.fresh, ?_, hi.answered⟩
  · rw [htodo, jobs_cons_some rfl, jobs_cons_some rfl]
    have h1 := ho.start (c := (s.heap.next,
      (⟨.recv maxline, x.res.toNat, some s.heap.next⟩ : Req), none)) rfl hrecv
    have h2 := h1.start (c := (s.heap.next + 1,
      (⟨.accept, ci.connfd, some (s.heap.next + 1)⟩ : Req), none)) rfl haccept
    rw [Multiset.cons_swap (s.heap.next, _) (p, _), Multiset.cons_swap _ (p, _)] at h2
    exact h2.retire
  · rw [htodo, Multiset.forall_mem_cons, Multiset.forall_mem_cons]
    exact ⟨by simp, by simp, hi.null_rest hx⟩
  · rw [htodo, Fds.skip rfl]
    exact hf.same hfd.symm
  · rw [htodo, Multiset.forall_mem_cons, Multiset.forall_mem_cons]
    exact ⟨by simp [fdOf], by simp, hi.unseen_rest hx⟩

/-- The last completion on a connection, which the loop processes. -/
theorem Conn.At.last {k : Conn} {op : Op} {r : Int} {buf : Nat → UInt8} (h : k.At op (some r) buf)
    (hl : op.len.isSome = true) :
    ∃ l e, k.log = l ++ [e] ∧ k.handled = l.length ∧ (r ≤ 0 → answer e = [.close]) ∧
      (0 < r → ∀ n, op = .recv n →
        answer e = [.send r.toNat (grab buf 0 r.toNat)] ∧
          stage k.log = .writing (grab buf 0 r.toNat)) ∧
      (0 < r → ∀ n, op = .send n → answer e = [] ∧ stage k.log = .reading) := by
  cases op with
  | nop => cases hl
  | accept => cases hl
  | recv n =>
    obtain ⟨l, h1, h2, h3⟩ := h
    refine ⟨l, _, h1, h2, fun hr => ?_, fun hr m _ => ⟨?_, ?_⟩, fun _ m hm => by cases hm⟩
    · simp only [answer, if_pos hr]
    · simp only [answer, if_neg (show ¬ r ≤ 0 by omega)]
    · rw [h1, stage_snoc, h3]
      simp only [Stage.next, if_pos hr]
  | send n =>
    obtain ⟨l, bs, b, h1, h2, h3⟩ := h
    refine ⟨l, _, h1, h2, fun hr => ?_, fun _ m hm => (by cases hm), fun hr m _ => ⟨?_, ?_⟩⟩
    · simp only [answer, if_pos hr]
    · simp only [answer, if_neg (show ¬ r ≤ 0 by omega)]
    · rw [h1, stage_snoc, h3]
      simp only [Stage.next, if_pos hr]

/-- The loop processes the last completion and does what `answer` says. -/
theorem answered_processed (h : ∀ d, (conns d).handled ≤ (conns d).log.length ∧
      (conns d).out = (conns d).seen.flatMap answer) {l : List Ev} {e : Ev}
    (hl : (conns c).log = l ++ [e]) (hh : (conns c).handled = l.length) {k : Conn}
    (h1 : k.log = (conns c).log) (h2 : k.handled = (conns c).handled + 1)
    (h3 : k.out = (conns c).out ++ answer e) (d : Nat) :
    (Function.update conns c k d).handled ≤ (Function.update conns c k d).log.length ∧
      (Function.update conns c k d).out =
        (Function.update conns c k d).seen.flatMap answer := by
  by_cases hd : d = c
  · subst hd
    have hseen : (conns d).seen = l := by
      unfold Conn.seen
      rw [hl, hh, List.take_left' rfl]
    have hfull : k.seen = l ++ [e] := by
      unfold Conn.seen
      rw [h1, h2, hh, hl, List.take_of_length_le (by simp)]
    rw [Function.update_self]
    refine ⟨?_, ?_⟩
    · rw [h1, h2, hh, hl]
      simp
    · rw [hfull, h3, (h d).2, hseen, List.flatMap_append, List.flatMap_singleton]
  · rw [Function.update_of_ne hd]
    exact h d

/-- The request of a completion on a connection. -/
structure Turn (env : Env) (s : State) (x : Cqe Req) (p c : Nat) (ci : ConnInfo) : Prop where
  head : todo s = (x.req, some x.res) ::ₘ (s.ring.advance (s.i + 1)).outstanding
  owned : Owned Prod.fst (Ok env s.table s.conns) s.heap
    ((p, x.req, some x.res) ::ₘ jobs (s.ring.advance (s.i + 1)).outstanding)
  ok : Ok env s.table s.conns (p, x.req, some x.res) ci
  len : x.req.op.len.isSome = true
  fd : fdOf (x.req, some x.res) = some ci.connfd
  fds : Fds s.table ((x.req, some x.res) ::ₘ (s.ring.advance (s.i + 1)).outstanding)
  talk : (s.conns c).At x.req.op (some x.res) ci.buffer

theorem Inv.turn (hi : Inv env s) (hx : s.ring.cq[s.i]? = some x) (hdata : x.req.data = some p)
    (hci : s.heap.cell p = some ci) (he : ci.event ≠ .accept) (hc : s.table ci.connfd = some c) :
    Turn env s x p c ci := by
  obtain ⟨ho, hf⟩ := hi.current hx hdata
  have hok := ho.head hci
  have hfd : x.req.fd = ci.connfd := hok.job.fd
  have hlen : x.req.op.len.isSome = true := (Op.len_isSome hok.job.event).mpr he
  refine ⟨todo_head hx, ho, hok, hlen, ?_, hf, hok.talk c hlen (by rw [← hc]; exact congrArg _ hfd)⟩
  rw [fdOf_of_len hlen]
  exact congrArg some hfd

/-- The other requests do not see a change of connection `c`. -/
theorem Turn.others (ht : Turn env s x p c ci) (hi : Inv env s) (hc : s.table ci.connfd = some c)
    (k : Conn) : ∀ j ∈ jobs (s.ring.advance (s.i + 1)).outstanding, ∀ z,
      Ok env s.table s.conns j z → Ok env s.table (Function.update s.conns c k) j z :=
  fun _ hj _ hz => ⟨hz.job, hz.talk.other fun hl =>
    ht.fds.others hi.table ht.fd hc (mem_jobs.mp hj).1 hl⟩

/-- The connection is closed and its `ConnInfo` freed. -/
theorem Inv.ended (hi : Inv env s) (hpc : s.pc = .loop) (hlt : s.i < s.cqecount)
    (hx : s.ring.cq[s.i]? = some x) (hdata : x.req.data = some p) (hci : s.heap.cell p = some ci)
    (he : ci.event ≠ .accept) (hc : s.table ci.connfd = some c) (hres : x.res ≤ 0) :
    Inv env { s with
      heap := s.heap.free p
      table := Function.update s.table ci.connfd none
      closes := s.closes ++ [some c]
      conns := Function.update s.conns c ((s.conns c).processed.did .close)
      i := s.i + 1 } := by
  have ht := hi.turn hx hdata hci he hc
  obtain ⟨l, e, hl, hh, hclose, -, -⟩ := ht.talk.last ht.len
  obtain ⟨hfresh, hunseen⟩ :=
    hi.conns_other ht.head ht.fd hc ((s.conns c).processed.did .close)
  -- no other request is on the descriptor that is closed
  have hne : ∀ y ∈ (s.ring.advance (s.i + 1)).outstanding, ∀ f, fdOf y = some f →
      f ≠ ci.connfd := fun y hy f hf => ht.fds.ne ht.fd hy hf
  refine ⟨?_, hi.null_rest hx, ht.fds.closed ht.fd, hi.table.close hc,
    hi.window_turn hpc hlt rfl rfl rfl rfl, hfresh, ?_,
    answered_processed hi.answered hl hh rfl rfl (by rw [hclose hres]; rfl)⟩
  · refine ht.owned.retire.imp fun j hj z hz => ?_
    have hz' := ht.others hi hc ((s.conns c).processed.did .close) j hj z hz
    refine ⟨hz'.job, fun d hld hd => ?_⟩
    simp only at hd
    rw [Function.update_of_ne (hne j.2 (mem_jobs.mp hj).1 _ (fdOf_of_len hld))] at hd
    exact hz'.talk d hld hd
  · intro y hy f d hop hf hd
    simp only at hd
    rw [Function.update_of_ne (hne y hy f hf)] at hd
    exact hunseen y hy f d hop hf hd

/-- The request is replaced by the next one on the same connection. -/
theorem Inv.replaced (hi : Inv env s) (hpc : s.pc = .loop) (hlt : s.i < s.cqecount)
    (hx : s.ring.cq[s.i]? = some x) (hdata : x.req.data = some p) (hci : s.heap.cell p = some ci)
    (he : ci.event ≠ .accept) (hc : s.table ci.connfd = some c) {op : Op} {ci' : ConnInfo}
    {k : Conn} {l : List Ev} {e : Ev} (hl : (s.conns c).log = l ++ [e])
    (hh : (s.conns c).handled = l.length) (hop : op.len.isSome = true)
    (hjob : JobOk env (⟨op, ci.connfd, some p⟩, none) ci') (htalk : k.At op none ci'.buffer)
    (h1 : k.log = (s.conns c).log) (h2 : k.handled = (s.conns c).handled + 1)
    (h3 : k.out = (s.conns c).out ++ answer e) :
    Inv env { s with
      heap := s.heap.put p ci'
      ring := { s.ring with sq := s.ring.sq ++ [⟨op, ci.connfd, some p⟩] }
      conns := Function.update s.conns c k
      i := s.i + 1 } := by
  have ht := hi.turn hx hdata hci he hc
  obtain ⟨hfresh, hunseen⟩ := hi.conns_other ht.head ht.fd hc k
  have htodo : todo { s with
      heap := s.heap.put p ci'
      ring := { s.ring with sq := s.ring.sq ++ [⟨op, ci.connfd, some p⟩] }
      conns := Function.update s.conns c k
      i := s.i + 1 } =
      (⟨op, ci.connfd, some p⟩, none) ::ₘ (s.ring.advance (s.i + 1)).outstanding :=
    IoRing.outstanding_prep (s.ring.advance (s.i + 1)) ⟨op, ci.connfd, some p⟩
  have hnop : op ≠ .nop ∧ op ≠ .accept := by
    constructor <;> rintro rfl <;> cases hop
  refine ⟨?_, ?_, ?_, hi.table, hi.window_turn hpc hlt rfl rfl rfl rfl, hfresh,
    ?_, answered_processed hi.answered hl hh h1 h2 h3⟩
  · rw [htodo, jobs_cons_some rfl]
    refine ht.owned.update hci rfl ⟨hjob, fun d _ hd => ?_⟩ (ht.others hi hc k)
    simp only at hd
    obtain rfl : c = d := Option.some.inj (hc.symm.trans hd)
    simp only [Function.update_self]
    exact htalk
  · rw [htodo, Multiset.forall_mem_cons]
    exact ⟨by simp, hi.null_rest hx⟩
  · rw [htodo]
    refine ht.fds.same (Eq.trans ?_ ht.fd.symm)
    exact fdOf_of_len (x := (⟨op, ci.connfd, some p⟩, none)) hop
  · rw [htodo, Multiset.forall_mem_cons]
    exact ⟨fun f d ho => absurd ho hnop.2, hunseen⟩

theorem Inv.echoed (hi : Inv env s) (hpc : s.pc = .loop) (hlt : s.i < s.cqecount)
    (hx : s.ring.cq[s.i]? = some x) (hdata : x.req.data = some p) (hci : s.heap.cell p = some ci)
    (he : ci.event = .read) (hc : s.table ci.connfd = some c) (hres : 0 < x.res) :
    Inv env { s with
      heap := s.heap.put p { ci with event := .write, bufferLength := x.res.toNat }
      ring := { s.ring with sq := s.ring.sq ++ [⟨.send x.res.toNat, ci.connfd, some p⟩] }
      conns := Function.update s.conns c
        ((s.conns c).processed.did (.send x.res.toNat (grab ci.buffer 0 x.res.toNat)))
      i := s.i + 1 } := by
  have hne : ci.event ≠ .accept := by
    rw [he]
    decide
  have ht := hi.turn hx hdata hci hne hc
  obtain ⟨n, hop⟩ : ∃ n, x.req.op = .recv n := by
    have hev : x.req.op.event = some ci.event := ht.ok.job.event
    rw [he] at hev
    exact Op.event_eq_read.mp hev
  obtain ⟨l, e, hl, hh, -, hrecv, -⟩ := ht.talk.last ht.len
  obtain ⟨hans, hstage⟩ := hrecv hres n hop
  have hn := ht.ok.job.len n (by simp only [hop, Op.len])
  have hr : x.res ≤ n := ht.ok.job.res n x.res (by simp only [hop, Op.len]) rfl
  refine hi.replaced hpc hlt hx hdata hci hne hc hl hh rfl ?_ ?_ rfl rfl (by rw [hans]; rfl)
  · refine ⟨rfl, rfl, by simp, fun m hm => ?_, by simp⟩
    cases hm
    exact ⟨by omega, by omega, rfl⟩
  · refine ⟨?_, hstage⟩
    simp only [Conn.did, Conn.processed, hl, hh, List.length_append, List.length_cons,
      List.length_nil]

theorem Inv.resumed (hi : Inv env s) (hpc : s.pc = .loop) (hlt : s.i < s.cqecount)
    (hx : s.ring.cq[s.i]? = some x) (hdata : x.req.data = some p) (hci : s.heap.cell p = some ci)
    (he : ci.event = .write) (hc : s.table ci.connfd = some c) (hres : 0 < x.res) :
    Inv env { s with
      heap := s.heap.put p { ci with event := .read }
      ring := { s.ring with sq := s.ring.sq ++ [⟨.recv ci.bufferLength, ci.connfd, some p⟩] }
      conns := Function.update s.conns c (s.conns c).processed
      i := s.i + 1 } := by
  have hne : ci.event ≠ .accept := by
    rw [he]
    decide
  have ht := hi.turn hx hdata hci hne hc
  obtain ⟨n, hop⟩ : ∃ n, x.req.op = .send n := by
    have hev : x.req.op.event = some ci.event := ht.ok.job.event
    rw [he] at hev
    exact Op.event_eq_write.mp hev
  obtain ⟨l, e, hl, hh, -, -, hsend⟩ := ht.talk.last ht.len
  obtain ⟨hans, hstage⟩ := hsend hres n hop
  have hn := ht.ok.job.len n (by simp only [hop, Op.len])
  refine hi.replaced hpc hlt hx hdata hci hne hc hl hh rfl ?_ ?_ rfl rfl
    (by rw [hans, List.append_nil]; rfl)
  · refine ⟨rfl, rfl, by simp, fun m hm => ?_, by simp⟩
    cases hm
    exact ⟨by omega, by omega, rfl⟩
  · refine ⟨?_, hstage⟩
    simp only [Conn.processed, hl, hh, List.length_append, List.length_cons, List.length_nil]

end Loop

/-! ## Runs -/

theorem inv_init (env : Env) : Inv env (init env) := by
  have htodo : todo (init env) =
      (⟨.nop, 0, none⟩, none) ::ₘ {((⟨.accept, env.sockfd, some 0⟩ : Req), (none : Option Int))} := rfl
  have hempty : Fds (fun _ => none) 0 := by
    refine ⟨Multiset.nodup_zero, fun fd => ?_⟩
    constructor
    · intro h
      exact absurd h (Multiset.notMem_zero fd)
    · intro h
      cases h
  refine ⟨?_, ?_, ?_, ?_, ?_, fun _ _ => rfl, ?_, fun _ => ⟨Nat.le_refl _, rfl⟩⟩
  · rw [htodo, jobs_cons_none rfl, ← Multiset.cons_zero, jobs_cons_some rfl]
    refine (Owned.empty Prod.fst _).start rfl ⟨⟨rfl, rfl, fun _ => rfl, ?_, ?_⟩, ?_⟩
    · simp [Op.len]
    · simp
    · simp [TalkOk, Op.len]
  · rw [htodo]
    simp
  · rw [htodo, Fds.skip rfl, ← Multiset.cons_zero, Fds.skip rfl]
    exact hempty
  · exact ⟨by simp [init], by simp [init], by simp [init], by simp [init], List.nodup_nil⟩
  · exact ⟨Nat.le_refl _, Nat.zero_le _, fun _ => rfl⟩
  · simp [init]

/-- The requests are the same ones; only the loop has moved. -/
theorem Inv.same (hi : Inv env s) (htodo : todo s' = todo s) (h1 : s'.heap = s.heap)
    (h2 : s'.table = s.table) (h3 : s'.conns = s.conns) (h4 : s'.next = s.next)
    (h5 : s'.closes = s.closes) (hw : Window s') : Inv env s' :=
  ⟨by rw [htodo, h1, h2, h3]; exact hi.owned, by rw [htodo]; exact hi.null,
    by rw [htodo, h2]; exact hi.fds, by rw [h2, h4, h5]; exact hi.table, hw,
    by rw [h3, h4]; exact hi.fresh, by rw [htodo, h2, h3]; exact hi.unseen,
    by rw [h3]; exact hi.answered⟩

theorem inv_step {a : Act} (hi : Inv env s) (ht : Trans env s a s') : Inv env s' := by
  have hw := hi.window
  cases ht with
  | idle i q res bs hq hop => exact hi.idle hq hop
  | accepted i q fd bs hq hop hr htb => exact hi.accepted hq hop hr htb
  | received i q len p c ci res given bs hq hop hdata hci hc hres hbs =>
    exact hi.received hq hop hdata hci hc hres hbs
  | sent i q len p c ci res given hq hop hdata hci hc hres =>
    exact hi.sent hq hop hdata hci hc hres _
  | submitted a hpc =>
    have hcq : (s.ring.submit a.submit).1.cq = s.ring.cq := IoRing.cq_submit _ _
    have h0 := hw.start (.inl hpc)
    refine hi.same ?_ rfl rfl rfl rfl rfl ⟨hw.le, by rw [hcq]; exact hw.le_length, fun _ => h0⟩
    exact hw.todo_submitted hpc a.submit
  | peeked a hpc =>
    exact hi.same (hw.todo_peeked hpc _) rfl rfl rfl rfl rfl
      ⟨Nat.zero_le _, Nat.min_le_right _ _, fun _ => rfl⟩
  | advanced a hpc hic =>
    exact hi.same (todo_advanced hic) rfl rfl rfl rfl rfl
      ⟨Nat.le_refl _, Nat.zero_le _, fun _ => rfl⟩
  | crashed a hpc hlt hwhy =>
    refine hi.same rfl rfl rfl rfl rfl rfl ⟨hw.le, hw.le_length, fun h => ?_⟩
    rcases h with h | h <;> cases h
  | null a x hpc hlt hx hdata => exact hi.nulled hpc hlt hx hdata
  | acceptFail a x p ci hpc hlt hx hdata hci he hres =>
    exact hi.acceptFail hpc hlt hx hdata hci he hres
  | acceptDone a x p ci hpc hlt hx hdata hci he hres =>
    exact hi.acceptDone hpc hlt hx hdata hci he hres
  | ended a x p c ci hpc hlt hx hdata hci he hc hres =>
    exact hi.ended hpc hlt hx hdata hci he hc hres
  | echoed a x p c ci hpc hlt hx hdata hci he hc hres =>
    exact hi.echoed hpc hlt hx hdata hci he hc hres
  | resumed a x p c ci hpc hlt hx hdata hci he hc hres =>
    exact hi.resumed hpc hlt hx hdata hci he hc hres

theorem inv_run {acts : List Act} (hr : run (step env) (init env) acts = some s) : Inv env s :=
  run_keeps hr (inv_init env) fun _ _ _ hi hs => inv_step hi (step_trans hi.ready hs)

end KernelMagic.Server
