/-
  What one step of the server can do: the transitions `Trans`, with the test that leads to each and the
  state after it. A completion with an error moves no bytes, so it is the case of no bytes of the
  completion that does; likewise both kinds of `ConnInfo` are dropped in the same way. A turn of the
  loop crashes only for want of memory or of a submission entry (`Crash`).

  `todo` are the requests that are queued, in flight or completed and not yet processed: the
  completions before `i` stay in the queue until `io_uring_cq_advance`, but the loop is done with
  them. `Ready` is what the transitions rely on: no request points to a `ConnInfo` that is freed or
  not its own, and those that move bytes are on open descriptors. `Server.Invariant` shows that this
  holds along every run.
-/
import KernelMagic.Lib.Owned
import KernelMagic.Server.Main

namespace KernelMagic.Server

open KernelMagic.Lib

/-- The requests that are queued, in flight or completed and not processed, with their results. -/
def todo (s : State) : Multiset (Req × Option Int) := (s.ring.advance s.i).outstanding

/-- The ring after the completion of the `i`-th request in flight, `q`. -/
def completed (r : IoRing Req) (i : Nat) (q : Req) (res : Int) : IoRing Req :=
  { r with inflight := r.inflight.eraseIdx i, cq := r.cq ++ [⟨q, res⟩] }

/-- The event under which a request is posted. -/
def Op.event : Op → Option Event
  | .nop => none
  | .accept => some .accept
  | .recv _ => some .read
  | .send _ => some .write

def Op.len : Op → Option Nat
  | .recv n => some n
  | .send n => some n
  | _ => none

theorem Op.event_eq_accept {op : Op} : op.event = some .accept ↔ op = .accept := by
  cases op <;> simp [Op.event]

theorem Op.event_eq_read {op : Op} : op.event = some .read ↔ ∃ n, op = .recv n := by
  cases op <;> simp [Op.event]

theorem Op.event_eq_write {op : Op} : op.event = some .write ↔ ∃ n, op = .send n := by
  cases op <;> simp [Op.event]

/-- A request that is not an accept moves bytes. -/
theorem Op.len_isSome {op : Op} {e : Event} (h : op.event = some e) :
    op.len.isSome = true ↔ e ≠ .accept := by
  cases op <;> cases h <;> simp [Op.len]

/-- A request with its result and the `ConnInfo` it points to. -/
structure JobOk (env : Env) (x : Req × Option Int) (ci : ConnInfo) : Prop where
  event : x.1.op.event = some ci.event
  fd : x.1.fd = ci.connfd
  listen : ci.event = .accept → ci.connfd = env.sockfd
  len : ∀ n, x.1.op.len = some n → 0 < n ∧ n ≤ maxline ∧ ci.bufferLength = n
  res : ∀ n r, x.1.op.len = some n → x.2 = some r → r ≤ n

/-! ## Transitions -/

/-- What a crash in the loop takes. -/
def Crash (s : State) (a : Answers) : Prop :=
  a.malloc = false ∨ s.ring.entries < s.ring.sq.length + 2

inductive Trans (env : Env) (s : State) : Act → State → Prop
  | idle (i : Nat) (q : Req) (res : Int) (bs : List UInt8) (hq : s.ring.inflight[i]? = some q)
      (hop : q.op = .nop ∨ q.op = .accept ∧ res < 0) :
      Trans env s (.complete i res bs) { s with ring := completed s.ring i q res }
  | accepted (i : Nat) (q : Req) (fd : Nat) (bs : List UInt8) (hq : s.ring.inflight[i]? = some q)
      (hop : q.op = .accept) (hr : env.reserved fd = false) (ht : s.table fd = none) :
      Trans env s (.complete i fd bs) { s with
        ring := completed s.ring i q fd
        table := Function.update s.table fd (some s.next)
        next := s.next + 1 }
  | received (i : Nat) (q : Req) (len p c : Nat) (ci : ConnInfo) (res : Int)
      (given bs : List UInt8) (hq : s.ring.inflight[i]? = some q) (hop : q.op = .recv len)
      (hdata : q.data = some p) (hci : s.heap.cell p = some ci) (hc : s.table q.fd = some c)
      (hres : res ≤ len) (hbs : bs.length = res.toNat) :
      Trans env s (.complete i res given) { s with
        ring := completed s.ring i q res
        heap := s.heap.put p { ci with buffer := blit ci.buffer 0 bs }
        conns := Function.update s.conns c ((s.conns c).logged (.recv res bs)) }
  | sent (i : Nat) (q : Req) (len p c : Nat) (ci : ConnInfo) (res : Int) (given : List UInt8)
      (hq : s.ring.inflight[i]? = some q) (hop : q.op = .send len) (hdata : q.data = some p)
      (hci : s.heap.cell p = some ci) (hc : s.table q.fd = some c) (hres : res ≤ len) :
      Trans env s (.complete i res given) { s with
        ring := completed s.ring i q res
        conns := Function.update s.conns c
          ((s.conns c).logged (.send res (grab ci.buffer 0 res.toNat))) }
  | submitted (a : Answers) (hpc : s.pc = .submit) :
      Trans env s (.prog a) { s with ring := (s.ring.submit a.submit).1, pc := .peek }
  | peeked (a : Answers) (hpc : s.pc = .peek) :
      Trans env s (.prog a)
        { s with i := 0, cqecount := min cqeLen s.ring.cq.length, pc := .loop }
  | advanced (a : Answers) (hpc : s.pc = .loop) (hi : s.i = s.cqecount) :
      Trans env s (.prog a) { s with
        ring := s.ring.advance s.cqecount, i := 0, cqecount := 0, pc := .submit }
  | crashed (a : Answers) (hpc : s.pc = .loop) (hi : s.i < s.cqecount) (hwhy : Crash s a) :
      Trans env s (.prog a) { s with pc := .fault }
  | null (a : Answers) (x : Cqe Req) (hpc : s.pc = .loop) (hi : s.i < s.cqecount)
      (hx : s.ring.cq[s.i]? = some x) (hdata : x.req.data = none) :
      Trans env s (.prog a) { s with i := s.i + 1 }
  | acceptFail (a : Answers) (x : Cqe Req) (p : Nat) (ci : ConnInfo) (hpc : s.pc = .loop)
      (hi : s.i < s.cqecount) (hx : s.ring.cq[s.i]? = some x) (hdata : x.req.data = some p)
      (hci : s.heap.cell p = some ci) (he : ci.event = .accept) (hres : x.res < 0) :
      Trans env s (.prog a) { s with heap := s.heap.free p, i := s.i + 1 }
  | acceptDone (a : Answers) (x : Cqe Req) (p : Nat) (ci : ConnInfo) (hpc : s.pc = .loop)
      (hi : s.i < s.cqecount) (hx : s.ring.cq[s.i]? = some x) (hdata : x.req.data = some p)
      (hci : s.heap.cell p = some ci) (he : ci.event = .accept) (hres : 0 ≤ x.res) :
      Trans env s (.prog a) { s with
        heap := ((s.heap.alloc ⟨x.res.toNat, .read, fun _ => 0, maxline⟩).alloc
          ⟨ci.connfd, .accept, fun _ => 0, 0⟩).free p
        ring := { s.ring with sq := s.ring.sq ++ [⟨.recv maxline, x.res.toNat, some s.heap.next⟩] ++
          [⟨.accept, ci.connfd, some (s.heap.next + 1)⟩] }
        i := s.i + 1 }
  | ended (a : Answers) (x : Cqe Req) (p c : Nat) (ci : ConnInfo) (hpc : s.pc = .loop)
      (hi : s.i < s.cqecount) (hx : s.ring.cq[s.i]? = some x) (hdata : x.req.data = some p)
      (hci : s.heap.cell p = some ci) (he : ci.event ≠ .accept) (hc : s.table ci.connfd = some c)
      (hres : x.res ≤ 0) :
      Trans env s (.prog a) { s with
        heap := s.heap.free p
        table := Function.update s.table ci.connfd none
        closes := s.closes ++ [some c]
        conns := Function.update s.conns c ((s.conns c).processed.did .close)
        i := s.i + 1 }
  | echoed (a : Answers) (x : Cqe Req) (p c : Nat) (ci : ConnInfo) (hpc : s.pc = .loop)
      (hi : s.i < s.cqecount) (hx : s.ring.cq[s.i]? = some x) (hdata : x.req.data = some p)
      (hci : s.heap.cell p = some ci) (he : ci.event = .read) (hc : s.table ci.connfd = some c)
      (hres : 0 < x.res) :
      Trans env s (.prog a) { s with
        heap := s.heap.put p { ci with event := .write, bufferLength := x.res.toNat }
        ring := { s.ring with sq := s.ring.sq ++ [⟨.send x.res.toNat, ci.connfd, some p⟩] }
        conns := Function.update s.conns c
          ((s.conns c).processed.did (.send x.res.toNat (grab ci.buffer 0 x.res.toNat)))
        i := s.i + 1 }
  | resumed (a : Answers) (x : Cqe Req) (p c : Nat) (ci : ConnInfo) (hpc : s.pc = .loop)
      (hi : s.i < s.cqecount) (hx : s.ring.cq[s.i]? = some x) (hdata : x.req.data = some p)
      (hci : s.heap.cell p = some ci) (he : ci.event = .write) (hc : s.table ci.connfd = some c)
      (hres : 0 < x.res) :
      Trans env s (.prog a) { s with
        heap := s.heap.put p { ci with event := .read }
        ring := { s.ring with sq := s.ring.sq ++ [⟨.recv ci.bufferLength, ci.connfd, some p⟩] }
        conns := Function.update s.conns c (s.conns c).processed
        i := s.i + 1 }

/-- What the transitions rely on. -/
structure Ready (env : Env) (s : State) : Prop where
  window : s.i ≤ s.cqecount ∧ s.cqecount ≤ s.ring.cq.length
  live : ∀ x ∈ todo s, ∀ p, x.1.data = some p → ∃ ci, s.heap.cell p = some ci ∧ JobOk env x ci
  null : ∀ x ∈ todo s, x.1.data = none → x.1.op = .nop
  table : ∀ x ∈ todo s, x.1.op.len.isSome = true → (s.table x.1.fd).isSome = true

variable {env : Env} {s s' : State} {a : Answers}

theorem mem_todo_of_inflight {q : Req} (h : q ∈ s.ring.inflight) : (q, none) ∈ todo s := by
  unfold todo IoRing.outstanding
  simp [IoRing.advance, h]

theorem mem_todo_of_cq {x : Cqe Req} (h : s.ring.cq[s.i]? = some x) :
    (x.req, some x.res) ∈ todo s := by
  unfold todo IoRing.outstanding
  simp only [IoRing.advance, Multiset.mem_coe, List.mem_append, List.mem_map]
  right
  refine ⟨x, ?_, rfl⟩
  refine List.mem_of_getElem? (i := 0) ?_
  rw [List.getElem?_drop]
  exact h

theorem record_eq {fd c : Nat} (h : s.table fd = some c) (f : Conn → Conn) :
    record s fd f = { s with conns := Function.update s.conns c (f (s.conns c)) } := by
  unfold record
  rw [h]

theorem blit_nil (buf : Nat → UInt8) : blit buf 0 [] = buf := by
  funext i
  simp [blit]

/-- The job of a request that moves bytes. -/
theorem Ready.job (hs : Ready env s) {x : Req × Option Int} (hx : x ∈ todo s) {n : Nat}
    (hn : x.1.op.len = some n) :
    ∃ p ci c, x.1.data = some p ∧ s.heap.cell p = some ci ∧ s.table x.1.fd = some c := by
  cases hd : x.1.data with
  | none =>
    rw [hs.null x hx hd] at hn
    cases hn
  | some p =>
    obtain ⟨ci, hci, -⟩ := hs.live x hx p hd
    obtain ⟨c, hc⟩ := Option.isSome_iff_exists.mp (hs.table x hx (by rw [hn]; rfl))
    exact ⟨p, ci, c, rfl, hci, hc⟩

theorem transfer_trans (hs : Ready env s) {i : Nat} {q : Req} {res : Int} {bs : List UInt8}
    (hq : s.ring.inflight[i]? = some q) (h : transfer env s q res bs = some s') :
    Trans env s (.complete i res bs) { s' with ring := completed s.ring i q res } := by
  have hmem : (q, none) ∈ todo s := mem_todo_of_inflight (List.mem_of_getElem? hq)
  unfold transfer at h
  split at h
  · next hop =>
    cases h
    exact .idle i q res bs hq (.inl hop)
  · next hop =>
    split at h
    · next hres =>
      cases h
      exact .idle i q res bs hq (.inr ⟨hop, hres⟩)
    · next hres =>
      split at h
      · cases h
      · next hfree =>
        rw [Bool.or_eq_true, not_or, Bool.not_eq_true, Option.not_isSome_iff_eq_none] at hfree
        cases h
        have hcast : res = (res.toNat : Int) := by omega
        have ht := Trans.accepted i q res.toNat bs hq hop hfree.1 hfree.2
        rw [← hcast] at ht
        exact ht
  · next len hop =>
    obtain ⟨p, ci, c, hdata, hci, hc⟩ := hs.job hmem (n := len) (by rw [hop]; rfl)
    simp only at hdata hc
    split at h
    · next hres =>
      rw [record_eq hc] at h
      cases h
      have ht := @Trans.received env s i q len p c ci res bs [] hq hop hdata hci hc
        (by omega) (by simp only [List.length_nil]; omega)
      rw [blit_nil, Heap.put_eq_self hci] at ht
      exact ht
    · split at h
      · cases h
      · next hok =>
        rw [not_or, not_not] at hok
        simp only [hdata, Option.bind_some, hci, Option.map_some, record, hc] at h
        cases h
        exact .received i q len p c ci res bs bs hq hop hdata hci hc (by omega) hok.2
  · next len hop =>
    obtain ⟨p, ci, c, hdata, hci, hc⟩ := hs.job hmem (n := len) (by rw [hop]; rfl)
    simp only at hdata hc
    split at h
    · next hres =>
      rw [record_eq hc] at h
      cases h
      have ht := @Trans.sent env s i q len p c ci res bs hq hop hdata hci hc (by omega)
      have hz : res.toNat = 0 := by omega
      rw [hz] at ht
      exact ht
    · split at h
      · cases h
      · next hok =>
        simp only [hdata, Option.bind_some, hci] at h
        rw [record_eq hc] at h
        cases h
        exact .sent i q len p c ci res bs hq hop hdata hci hc (by omega)

theorem kernelStep_trans (hs : Ready env s) {i : Nat} {res : Int} {bs : List UInt8}
    (h : kernelStep env s i res bs = some s') : Trans env s (.complete i res bs) s' := by
  unfold kernelStep at h
  obtain ⟨q, hq, h⟩ := Option.bind_eq_some_iff.mp h
  obtain ⟨t, ht, h⟩ := Option.bind_eq_some_iff.mp h
  simp only [IoRing.complete, hq, Option.map_some] at h
  cases h
  exact transfer_trans hs hq ht

/-! ## The loop -/

/-- The `ConnInfo` of a completion that the loop processes. -/
theorem Ready.head (hs : Ready env s) {x : Cqe Req} (hx : s.ring.cq[s.i]? = some x) {p : Nat}
    (hdata : x.req.data = some p) :
    ∃ ci, s.heap.cell p = some ci ∧ JobOk env (x.req, some x.res) ci :=
  hs.live _ (mem_todo_of_cq hx) p hdata

/-- A `ConnInfo` that is not for accepting belongs to an open connection. -/
theorem Ready.connected (hs : Ready env s) {x : Cqe Req} (hx : s.ring.cq[s.i]? = some x)
    {ci : ConnInfo} (hj : JobOk env (x.req, some x.res) ci) (he : ci.event ≠ .accept) :
    ∃ c, s.table ci.connfd = some c := by
  have hfd : x.req.fd = ci.connfd := hj.fd
  have hev : x.req.op.event = some ci.event := hj.event
  rw [← hfd]
  refine Option.isSome_iff_exists.mp (hs.table _ (mem_todo_of_cq hx) ?_)
  exact (Op.len_isSome hev).mpr he

/-- A part of the loop body has led to a transition, or it has crashed. -/
def Handled (env : Env) (s : State) (a : Answers) (r : Option State) : Prop :=
  (∃ t, r = some t ∧ Trans env s (.prog a) { t with i := s.i + 1 }) ∨ (r = none ∧ Crash s a)

theorem handleAccept_trans (hpc : s.pc = .loop) (hi : s.i < s.cqecount)
    {x : Cqe Req} (hx : s.ring.cq[s.i]? = some x) {p : Nat} (hdata : x.req.data = some p)
    {ci : ConnInfo} (hci : s.heap.cell p = some ci) (he : ci.event = .accept) :
    Handled env s a (handleAccept s p ci x.res a) := by
  unfold handleAccept
  by_cases hres : x.res < 0
  · rw [if_pos hres]
    exact .inl ⟨_, rfl, .acceptFail a x p ci hpc hi hx hdata hci he hres⟩
  by_cases ha : a.malloc = true
  · rw [if_neg hres, if_pos ha]
    unfold setRecvEvent setAcceptEvent
    simp only [Heap.cell_alloc_self, Option.bind_some, Heap.put_alloc]
    by_cases h1 : s.ring.sq.length < s.ring.entries
    · simp only [IoRing.prep_of_lt h1, Option.map_some, Option.bind_some]
      unfold IoRing.prep
      by_cases h2 : s.ring.sq.length + 1 < s.ring.entries
      · have hlt : (s.ring.sq ++ [(⟨.recv maxline, x.res.toNat, some s.heap.next⟩ : Req)]).length <
            s.ring.entries := by
          rw [List.length_append, List.length_singleton]
          exact h2
        simp only [if_pos hlt, Option.map_some]
        exact .inl ⟨_, rfl, .acceptDone a x p ci hpc hi hx hdata hci he (by omega)⟩
      · have hge : ¬ (s.ring.sq ++
            [(⟨.recv maxline, x.res.toNat, some s.heap.next⟩ : Req)]).length < s.ring.entries := by
          rw [List.length_append, List.length_singleton]
          exact h2
        simp only [if_neg hge, Option.map_none]
        exact .inr ⟨rfl, .inr (by omega)⟩
    · simp only [IoRing.prep_of_not_lt h1, Option.map_none, Option.bind_none]
      exact .inr ⟨rfl, .inr (by omega)⟩
  · rw [if_neg hres, if_neg ha]
    exact .inr ⟨rfl, .inl (Bool.not_eq_true _ ▸ ha)⟩

theorem drop_trans (hpc : s.pc = .loop) (hi : s.i < s.cqecount)
    {x : Cqe Req} (hx : s.ring.cq[s.i]? = some x) {p : Nat} (hdata : x.req.data = some p)
    {ci : ConnInfo} (hci : s.heap.cell p = some ci) (he : ci.event ≠ .accept) {c : Nat}
    (hc : s.table ci.connfd = some c) (hres : x.res ≤ 0) :
    Handled env s a (some (drop (record s ci.connfd Conn.processed) p ci)) := by
  have ht := @Trans.ended env s a x p c ci hpc hi hx hdata hci he hc hres
  rw [record_eq hc]
  unfold drop closeFd record
  simp only [hc, Function.update_self, Function.update_idem]
  exact .inl ⟨_, rfl, ht⟩

theorem handleRead_trans (hpc : s.pc = .loop) (hi : s.i < s.cqecount)
    {x : Cqe Req} (hx : s.ring.cq[s.i]? = some x) {p : Nat} (hdata : x.req.data = some p)
    {ci : ConnInfo} (hci : s.heap.cell p = some ci) (he : ci.event = .read) {c : Nat}
    (hc : s.table ci.connfd = some c) :
    Handled env s a (handleRead (record s ci.connfd Conn.processed) p ci x.res) := by
  have hne : ci.event ≠ .accept := by
    rw [he]
    decide
  unfold handleRead
  by_cases h0 : x.res = 0
  · rw [if_pos h0]
    exact drop_trans hpc hi hx hdata hci hne hc (by omega)
  by_cases hneg : x.res < 0
  · rw [if_neg h0, if_pos hneg]
    exact drop_trans hpc hi hx hdata hci hne hc (by omega)
  rw [if_neg h0, if_neg hneg, record_eq hc]
  unfold setSendEvent record
  by_cases h1 : s.ring.sq.length < s.ring.entries
  · have ht := @Trans.echoed env s a x p c ci hpc hi hx hdata hci he hc (by omega)
    simp only [Heap.cell_put_self _ hci, Option.bind_some, IoRing.prep_of_lt h1, Option.map_some,
      hc, Function.update_self, Function.update_idem, Heap.put_put]
    exact .inl ⟨_, rfl, ht⟩
  · simp only [Heap.cell_put_self _ hci, Option.bind_some, IoRing.prep_of_not_lt h1,
      Option.map_none]
    exact .inr ⟨rfl, .inr (by omega)⟩

theorem handleWrite_trans (hpc : s.pc = .loop) (hi : s.i < s.cqecount)
    {x : Cqe Req} (hx : s.ring.cq[s.i]? = some x) {p : Nat} (hdata : x.req.data = some p)
    {ci : ConnInfo} (hci : s.heap.cell p = some ci) (he : ci.event = .write) {c : Nat}
    (hc : s.table ci.connfd = some c) :
    Handled env s a (handleWrite (record s ci.connfd Conn.processed) p ci x.res) := by
  unfold handleWrite
  by_cases hle : x.res ≤ 0
  · rw [if_pos hle]
    exact drop_trans hpc hi hx hdata hci (by rw [he]; decide) hc hle
  rw [if_neg hle, record_eq hc]
  unfold setRecvEvent
  by_cases h1 : s.ring.sq.length < s.ring.entries
  · have ht := @Trans.resumed env s a x p c ci hpc hi hx hdata hci he hc (by omega)
    simp only [hci, Option.bind_some, IoRing.prep_of_lt h1, Option.map_some]
    exact .inl ⟨_, rfl, ht⟩
  · simp only [hci, Option.bind_some, IoRing.prep_of_not_lt h1, Option.map_none]
    exact .inr ⟨rfl, .inr (by omega)⟩

theorem handle_trans (hs : Ready env s) (hpc : s.pc = .loop) (hi : s.i < s.cqecount)
    {x : Cqe Req} (hx : s.ring.cq[s.i]? = some x) : Handled env s a (handle s x a) := by
  unfold handle
  cases hdata : x.req.data with
  | none => exact .inl ⟨s, rfl, .null a x hpc hi hx hdata⟩
  | some p =>
    obtain ⟨ci, hci, hj⟩ := hs.head hx hdata
    simp only [hci, Option.bind_some]
    cases he : ci.event with
    | accept => exact handleAccept_trans hpc hi hx hdata hci he
    | read =>
      obtain ⟨c, hc⟩ := hs.connected hx hj (by rw [he]; decide)
      exact handleRead_trans hpc hi hx hdata hci he hc
    | write =>
      obtain ⟨c, hc⟩ := hs.connected hx hj (by rw [he]; decide)
      exact handleWrite_trans hpc hi hx hdata hci he hc

theorem loopStep_trans (hs : Ready env s) (hpc : s.pc = .loop) :
    Trans env s (.prog a) (loopStep s a) := by
  have hwin := hs.window
  unfold loopStep
  by_cases hi : s.i < s.cqecount
  · rw [if_pos hi]
    have hx := List.getElem?_eq_getElem (show s.i < s.ring.cq.length by omega)
    rcases handle_trans (a := a) hs hpc hi hx with ⟨t, ht, htr⟩ | ⟨ht, hwhy⟩
    · simp only [hx, Option.bind_some, ht]
      exact htr
    · simp only [hx, Option.bind_some, ht]
      exact .crashed a hpc hi hwhy
  · rw [if_neg hi]
    exact .advanced a hpc (by omega)

/-- The machine takes no other transitions. -/
theorem step_trans (hs : Ready env s) {a : Act} (h : step env s a = some s') :
    Trans env s a s' := by
  cases a with
  | complete i res bs => exact kernelStep_trans hs h
  | prog a =>
    unfold step progStep at h
    simp only at h
    split at h
    · next hpc =>
      cases h
      exact .submitted a hpc
    · next hpc =>
      unfold peekStep at h
      split at h
      · cases h
      · cases h
        exact .peeked a hpc
    · next hpc =>
      cases h
      exact loopStep_trans hs hpc
    · cases h

end KernelMagic.Server
