/-
  The lengths of the recvs. A `ConnInfo` is made with `bufferLength` 4096 and every recv is posted with
  what it holds; but the loop stores the length of each message in it, and nobody puts it back. So the
  recv behind a message asks for no more than the message had.

  `Echoing`: a send has the length of the last message on its connection. With it, the recvs of a
  connection all have length 4096 in exactly the runs in which the messages behind which one is posted
  have (`recv_capacity_iff`).
-/
import KernelMagic.Lib.History
import KernelMagic.Server.Accepting

namespace KernelMagic.Server

open KernelMagic.Lib

/-- The lengths of the messages that have been received. -/
def messages (l : List Ev) : List Nat :=
  l.filterMap fun e => match e with
    | .recv res _ => if 0 < res then some res.toNat else none
    | .send _ _ => none

/-- The request is a recv of this length. -/
def Op.recvLen : Op → Option Nat
  | .recv n => some n
  | _ => none

/-- What a step has queued. -/
def posted (s s' : State) : List Req := s'.ring.sq.drop s.ring.sq.length

/-- The recvs that a step posts on connection `c` are for `MAXLINE` bytes. -/
def PostsFull (env : Env) (c : Nat) (s : State) (a : Act) : Prop :=
  ∀ s' ∈ step env s a, ∀ q ∈ posted s s', s'.table q.fd = some c →
    ∀ n ∈ q.op.recvLen, n = maxline

/-- The completion that the loop takes up. -/
def current (s : State) : Option (Cqe Req) :=
  if s.pc = .loop ∧ s.i < s.cqecount then s.ring.cq[s.i]? else none

def Op.isSend : Op → Bool
  | .send _ => true
  | _ => false

/-- When the loop goes back to receiving on connection `c`, the last message had `MAXLINE` bytes. -/
def EchoesFull (c : Nat) (s : State) : Act → Prop
  | .complete _ _ _ => True
  | .prog _ => ∀ x ∈ current s, x.req.op.isSend = true → 0 < x.res → s.table x.req.fd = some c →
      s.ring.sq.length < s.ring.entries → (messages (s.conns c).log).getLast? = some maxline

/-- A send has the length of the last message on its connection. -/
def Echoing (table : Nat → Option Nat) (conns : Nat → Conn) (P : Multiset (Req × Option Int)) :
    Prop :=
  ∀ x ∈ P, ∀ n c, x.1.op = .send n → table x.1.fd = some c →
    (messages (conns c).log).getLast? = some n

variable {env : Env} {s s' : State} {c : Nat} {table table' : Nat → Option Nat}
  {conns conns' : Nat → Conn} {P P' : Multiset (Req × Option Int)}

theorem messages_recv (l : List Ev) {r : Int} (hr : 0 < r) (bs : List UInt8) :
    (messages (l ++ [.recv r bs])).getLast? = some r.toNat := by
  simp [messages, hr]

theorem messages_send (l : List Ev) (r : Int) (bs : List UInt8) :
    messages (l ++ [.send r bs]) = messages l := by
  simp [messages]

/-! ## The lengths of the sends -/

theorem Echoing.keep (h : Echoing table conns P)
    (hk : ∀ y ∈ P', ∀ n c, y.1.op = .send n → table' y.1.fd = some c →
      (∃ z ∈ P, z.1 = y.1) ∧ table y.1.fd = some c ∧
        messages (conns' c).log = messages (conns c).log) : Echoing table' conns' P' := by
  intro y hy n c hop hc
  obtain ⟨⟨z, hz, he⟩, ht, hm⟩ := hk y hy n c hop hc
  rw [hm]
  exact h z hz n c (by rw [he]; exact hop) (by rw [he]; exact ht)

/-- A change of the history of connection `d` that receives nothing. -/
theorem messages_update (d : Nat) (k : Conn) (hk : messages k.log = messages (conns d).log)
    (c : Nat) : messages (Function.update conns d k c).log = messages (conns c).log := by
  by_cases hd : c = d
  · subst hd
    rw [Function.update_self, hk]
  · rw [Function.update_of_ne hd]

theorem Op.len_send {op : Op} {n : Nat} (h : op = .send n) : op.len.isSome = true := by
  rw [h]
  rfl

/-- The same requests, of which one may have got its result. -/
theorem mem_completed {q : Req} {res : Int} {y : Req × Option Int} (hy : y ∈ (q, some res) ::ₘ P) :
    ∃ z ∈ (q, none) ::ₘ P, z.1 = y.1 := by
  obtain rfl | hy := Multiset.mem_cons.mp hy
  · exact ⟨_, Multiset.mem_cons_self _ _, rfl⟩
  · exact ⟨y, Multiset.mem_cons_of_mem hy, rfl⟩

theorem echoing_step {a : Act} (hi : Inv env s) (h : Echoing s.table s.conns (todo s))
    (ht : Trans env s a s') : Echoing s'.table s'.conns (todo s') := by
  have hw := hi.window
  cases ht with
  | idle i q res bs hq hop =>
    obtain ⟨P, hP, hP'⟩ := todo_complete hq hi.i_le res
    rw [hP] at h
    rw [show todo { s with ring := completed s.ring i q res } = (q, some res) ::ₘ P from hP']
    exact h.keep fun y hy n c hop hc => ⟨mem_completed hy, hc, rfl⟩
  | accepted i q fd bs hq hop hr htb =>
    obtain ⟨P, hP, hP'⟩ := todo_complete hq hi.i_le fd
    have hopen := hi.ready.table
    rw [hP] at h hopen
    rw [show todo { s with
      ring := completed s.ring i q fd
      table := Function.update s.table fd (some s.next)
      next := s.next + 1 } = (q, some (fd : Int)) ::ₘ P from hP']
    refine h.keep fun y hy n c hop hc => ?_
    obtain ⟨z, hz, he⟩ := mem_completed hy
    -- the requests that move bytes are on descriptors that were open
    have hne : y.1.fd ≠ fd := by
      intro hfd
      have := hopen z hz (by rw [he]; exact Op.len_send hop)
      rw [he, hfd, htb] at this
      cases this
    simp only [Function.update_of_ne hne] at hc
    exact ⟨⟨z, hz, he⟩, hc, rfl⟩
  | received i q len p d ci res given bs hq hop hdata hci hd hres hbs =>
    obtain ⟨P, hP, hP'⟩ := todo_complete hq hi.i_le res
    have hf := hi.fds
    rw [hP] at h hf
    rw [show todo { s with
      ring := completed s.ring i q res
      heap := s.heap.put p { ci with buffer := blit ci.buffer 0 bs }
      conns := Function.update s.conns d ((s.conns d).logged (.recv res bs)) } =
        (q, some res) ::ₘ P from hP']
    refine h.keep fun y hy n c hyop hc => ?_
    -- no send is under way on the connection of the recv
    have hcd : c ≠ d := by
      rintro rfl
      obtain rfl | hyP := Multiset.mem_cons.mp hy
      · rw [hop] at hyop
        cases hyop
      · exact hf.others hi.table (fdOf_of_len (x := (q, none)) (by rw [hop]; rfl)) hd hyP
          (Op.len_send hyop) hc
    have hk : Function.update s.conns d ((s.conns d).logged (.recv res bs)) c = s.conns c :=
      Function.update_of_ne hcd _ _
    exact ⟨mem_completed hy, hc, congrArg (fun k => messages k.log) hk⟩
  | sent i q len p d ci res given hq hop hdata hci hd hres =>
    obtain ⟨P, hP, hP'⟩ := todo_complete hq hi.i_le res
    rw [hP] at h
    rw [show todo { s with
      ring := completed s.ring i q res
      conns := Function.update s.conns d
        ((s.conns d).logged (.send res (grab ci.buffer 0 res.toNat))) } =
          (q, some res) ::ₘ P from hP']
    exact h.keep fun y hy n c hyop hc =>
      ⟨mem_completed hy, hc, messages_update d _ (messages_send _ _ _) c⟩
  | submitted a hpc =>
    rw [hw.todo_submitted hpc]
    exact h
  | peeked a hpc =>
    rw [hw.todo_peeked hpc]
    exact h
  | advanced a hpc hic =>
    rw [todo_advanced hic]
    exact h
  | crashed a hpc hlt hwhy => exact h
  | null a x hpc hlt hx hdata =>
    rw [todo_head hx] at h
    exact h.keep fun y hy n c hop hc => ⟨⟨y, Multiset.mem_cons_of_mem hy, rfl⟩, hc, rfl⟩
  | acceptFail a x p ci hpc hlt hx hdata hci he hres =>
    rw [todo_head hx] at h
    exact h.keep fun y hy n c hop hc => ⟨⟨y, Multiset.mem_cons_of_mem hy, rfl⟩, hc, rfl⟩
  | acceptDone a x p ci hpc hlt hx hdata hci he hres =>
    rw [todo_head hx] at h
    simp only [List.append_assoc]
    rw [todo_turn]
    refine h.keep fun y hy n c hop hc => ?_
    obtain hy | hy := Multiset.mem_add.mp hy
    · simp only [List.cons_append, List.nil_append, List.map_cons, List.map_nil,
        Multiset.mem_coe, List.mem_cons, List.not_mem_nil, or_false] at hy
      obtain rfl | rfl := hy <;> cases hop
    · exact ⟨⟨y, Multiset.mem_cons_of_mem hy, rfl⟩, hc, rfl⟩
  | ended a x p d ci hpc hlt hx hdata hci he hd hres =>
    rw [todo_head hx] at h
    refine h.keep fun y hy n c hop hc => ?_
    have hne : y.1.fd ≠ ci.connfd := by
      intro hfd
      simp only [hfd, Function.update_self] at hc
      cases hc
    simp only [Function.update_of_ne hne] at hc
    exact ⟨⟨y, Multiset.mem_cons_of_mem hy, rfl⟩, hc, messages_update d _ (by rfl) c⟩
  | echoed a x p d ci hpc hlt hx hdata hci he hd hres =>
    have hturn := hi.turn hx hdata hci (by rw [he]; decide) hd
    rw [hturn.head] at h
    rw [todo_turn]
    rintro y hy n c hop hc
    obtain hy | hy := Multiset.mem_add.mp hy
    · -- the new send has the length of the message that has just been received
      obtain rfl := List.mem_singleton.mp (Multiset.mem_coe.mp hy)
      cases hop
      obtain rfl : d = c := Option.some.inj (hd.symm.trans hc)
      obtain ⟨m, hm⟩ := Op.event_eq_read.mp (hturn.ok.job.event.trans (congrArg some he))
      have hat := hturn.talk
      rw [show x.req.op = .recv m from hm] at hat
      obtain ⟨l, hl, -, -⟩ := hat
      simp only [Function.update_self, Conn.did, Conn.processed]
      rw [hl]
      exact messages_recv l hres _
    · have hlast := h y (Multiset.mem_cons_of_mem hy) n c hop hc
      rw [← hlast]
      exact congrArg List.getLast? (messages_update d _ (by rfl) c)
  | resumed a x p d ci hpc hlt hx hdata hci he hd hres =>
    rw [todo_head hx] at h
    rw [todo_turn]
    refine h.keep fun y hy n c hop hc => ?_
    obtain hy | hy := Multiset.mem_add.mp hy
    · obtain rfl := List.mem_singleton.mp (Multiset.mem_coe.mp hy)
      cases hop
    · exact ⟨⟨y, Multiset.mem_cons_of_mem hy, rfl⟩, hc, messages_update d _ (by rfl) c⟩

theorem echoing_init (env : Env) : Echoing (init env).table (init env).conns (todo (init env)) := by
  intro x _ n c _ hc
  cases hc

/-! ## The lengths of the recvs -/

theorem current_of_lt {x : Cqe Req} (hpc : s.pc = .loop) (hlt : s.i < s.cqecount)
    (hx : s.ring.cq[s.i]? = some x) : current s = some x := by
  rw [current, if_pos ⟨hpc, hlt⟩, hx]

theorem current_of_pc (h : s.pc ≠ .loop) : current s = none := if_neg fun hn => h hn.1

/-- The turn on a send that has succeeded needs one entry of the queue. -/
theorem turn_send (hi : Inv env s) {x : Cqe Req} (hpc : s.pc = .loop) (hlt : s.i < s.cqecount)
    (hx : s.ring.cq[s.i]? = some x) (hop : x.req.op.isSend = true) (hres : 0 < x.res)
    {a : Answers} (hs : step env s (.prog a) = some s') :
    s'.pc = .loop ↔ s.ring.sq.length < s.ring.entries := by
  have hmem : (x.req, some x.res) ∈ todo s := mem_todo_of_cq hx
  cases hdata : x.req.data with
  | none =>
    rw [hi.null _ hmem hdata] at hop
    cases hop
  | some p =>
    obtain ⟨ci, hci, hj⟩ := hi.ready.head hx hdata
    have he : ci.event = .write := by
      have hev : x.req.op.event = some ci.event := hj.event
      unfold Op.isSend at hop
      split at hop
      · next hsend =>
        rw [hsend] at hev
        exact (Option.some.inj hev).symm
      · cases hop
    have hh : handle s x a = setRecvEvent (record s ci.connfd Conn.processed) ci.connfd p := by
      unfold handle
      simp only [hdata, hci, Option.bind_some, he, handleWrite]
      exact if_neg (by omega)
    have hrec : (record s ci.connfd Conn.processed).pc = s.pc ∧
        (record s ci.connfd Conn.processed).heap = s.heap ∧
        (record s ci.connfd Conn.processed).ring = s.ring := by
      unfold record
      split <;> exact ⟨rfl, rfl, rfl⟩
    simp only [step, progStep, hpc, loopStep, if_pos hlt, hx, Option.bind_some, hh, setRecvEvent,
      hrec, hci, IoRing.prep] at hs
    by_cases hroom : s.ring.sq.length < s.ring.entries
    · simp only [if_pos hroom, Option.map_some] at hs
      rw [← Option.some.inj hs]
      exact iff_of_true rfl hroom
    · simp only [if_neg hroom, Option.map_none] at hs
      rw [← Option.some.inj hs]
      exact iff_of_false (by simp) hroom

/-- A step that queues no recv, and does not take up a send that has succeeded. -/
theorem posts_iff_other {a : Act} (hs : step env s a = some s') {qs : List Req}
    (hqs : posted s s' = qs) (hp : ∀ q ∈ qs, q.op.recvLen = none ∨ q.op = .recv maxline)
    (hx : ∀ x ∈ current s, ∀ b, a = .prog b → x.req.op.isSend = true →
      s.ring.sq.length < s.ring.entries → x.res ≤ 0) :
    PostsFull env c s a ↔ EchoesFull c s a := by
  refine iff_of_true (fun t ht q hq _ n hn => ?_) ?_
  · obtain rfl : s' = t := Option.some.inj (hs.symm.trans ht)
    rw [hqs] at hq
    rcases hp q hq with h | h
    · rw [h] at hn
      cases hn
    · rw [h] at hn
      exact (Option.some.inj hn).symm
  · cases a with
    | complete i res bs => trivial
    | prog b =>
      intro x hcur hsend hres _ hroom
      exact absurd (hx x hcur b rfl hsend hroom) (by omega)

theorem posted_same (h : s'.ring.sq = s.ring.sq) : posted s s' = [] := by
  rw [posted, h, List.drop_length]

theorem posted_append {qs : List Req} (h : s'.ring.sq = s.ring.sq ++ qs) : posted s s' = qs := by
  rw [posted, h, List.drop_left]

theorem posted_submit (a : SubmitRet) (h : s'.ring = (s.ring.submit a).1) : posted s s' = [] := by
  rw [posted, h, List.drop_eq_nil_iff]
  cases a with
  | all => exact Nat.zero_le _
  | taken n =>
    simp only [IoRing.submit, List.length_drop]
    omega
  | error e => exact Nat.le_refl _

theorem capacity_step {a : Act} (hi : Inv env s) (he : Echoing s.table s.conns (todo s))
    (hs : step env s a = some s') : PostsFull env c s a ↔ EchoesFull c s a := by
  have ht := step_trans hi.ready hs
  cases ht with
  | idle i q res bs hq hop =>
    exact posts_iff_other hs (posted_same rfl) (by simp) (by simp)
  | accepted i q fd bs hq hop hr htb =>
    exact posts_iff_other hs (posted_same rfl) (by simp) (by simp)
  | received i q len p d ci res given bs hq hop hdata hci hd hres hbs =>
    exact posts_iff_other hs (posted_same rfl) (by simp) (by simp)
  | sent i q len p d ci res given hq hop hdata hci hd hres =>
    exact posts_iff_other hs (posted_same rfl) (by simp) (by simp)
  | submitted a hpc =>
    exact posts_iff_other hs (posted_submit a.submit rfl) (by simp)
      (by rw [current_of_pc (by rw [hpc]; decide)]; simp)
  | peeked a hpc =>
    exact posts_iff_other hs (posted_same rfl) (by simp)
      (by rw [current_of_pc (by rw [hpc]; decide)]; simp)
  | advanced a hpc hic =>
    refine posts_iff_other hs (posted_same rfl) (by simp) ?_
    rw [current, if_neg (by omega)]
    simp
  | crashed a hpc hlt hwhy =>
    refine posts_iff_other hs (posted_same rfl) (by simp) fun x hx b _ hsend hroom => ?_
    -- a turn that finds room does not crash
    by_contra hres
    rw [current, if_pos ⟨hpc, hlt⟩] at hx
    have hturn := (turn_send hi hpc hlt hx hsend (by omega) hs).mpr hroom
    cases hturn
  | null a x hpc hlt hx hdata =>
    refine posts_iff_other hs (posted_same rfl) (by simp) ?_
    rw [current_of_lt hpc hlt hx]
    rintro y ⟨rfl⟩ b - hsend -
    rw [hi.null _ (mem_todo_of_cq hx) hdata] at hsend
    cases hsend
  | acceptFail a x p ci hpc hlt hx hdata hci hev hres =>
    refine posts_iff_other hs (posted_same rfl) (by simp) ?_
    rw [current_of_lt hpc hlt hx]
    rintro y ⟨rfl⟩ b - - -
    exact Int.le_of_lt hres
  | acceptDone a x p ci hpc hlt hx hdata hci hev hres =>
    refine posts_iff_other hs (posted_append (List.append_assoc _ _ _)) (by simp [Op.recvLen]) ?_
    rw [current_of_lt hpc hlt hx]
    rintro y ⟨rfl⟩ b - hsend -
    have hop : x.req.op = .accept := (hi.head hx hdata hci).accept_op hev
    rw [hop] at hsend
    cases hsend
  | ended a x p d ci hpc hlt hx hdata hci hev hd hres =>
    refine posts_iff_other hs (posted_same rfl) (by simp) ?_
    rw [current_of_lt hpc hlt hx]
    rintro y ⟨rfl⟩ b - - -
    exact hres
  | echoed a x p d ci hpc hlt hx hdata hci hev hd hres =>
    refine posts_iff_other hs (posted_append rfl) (by simp [Op.recvLen]) ?_
    rw [current_of_lt hpc hlt hx]
    rintro y ⟨rfl⟩ b - hsend -
    have hj := (hi.head hx hdata hci).job.event
    obtain ⟨n, hop⟩ := Op.event_eq_read.mp (hj.trans (congrArg some hev))
    rw [show x.req.op = .recv n from hop] at hsend
    cases hsend
  | resumed a x p d ci hpc hlt hx hdata hci hev hd hres =>
    have hj := (hi.head hx hdata hci).job
    obtain ⟨n, hop⟩ := Op.event_eq_write.mp (hj.event.trans (congrArg some hev))
    have hop : x.req.op = .send n := hop
    have hfd : x.req.fd = ci.connfd := hj.fd
    have hlen : ci.bufferLength = n := (hj.len n (by simp only [hop, Op.len])).2.2
    have hroom := (turn_send hi hpc hlt hx (by rw [hop]; rfl) hres hs).mp hpc
    have hlast := he _ (mem_todo_of_cq hx) n d hop (by rw [← hd]; exact congrArg _ hfd)
    constructor
    · intro h y hy hsend _ hc _
      rw [current_of_lt hpc hlt hx] at hy
      cases hy
      have hdc : d = c := by
        rw [hfd, hd] at hc
        exact Option.some.inj hc
      subst hdc
      have hn := h _ hs ⟨.recv ci.bufferLength, ci.connfd, some p⟩
        (by rw [posted_append rfl]; exact List.mem_singleton_self _) hd ci.bufferLength rfl
      rw [hlast, ← hn, hlen]
    · intro h t ht q hq hc m hm
      obtain rfl := Option.some.inj (hs.symm.trans ht)
      rw [posted_append rfl] at hq
      obtain rfl := List.mem_singleton.mp hq
      cases hm
      obtain rfl : d = c := Option.some.inj (hd.symm.trans hc)
      have hfull := h x (current_of_lt hpc hlt hx) (by rw [hop]; rfl) hres
        (by rw [← hd]; exact congrArg _ hfd) hroom
      rw [hlen]
      exact Option.some.inj (hlast.symm.trans hfull)

/-- **Capacity.** In every run: the recvs that are posted on a connection are all for `MAXLINE` bytes if
    and only if each message behind which one is posted has had as many. -/
theorem recv_capacity_iff (env : Env) (c : Nat) (acts : List Act) (s : State)
    (hr : run (step env) (init env) acts = some s) :
    Along (step env) (PostsFull env c) (init env) acts ↔
      Along (step env) (EchoesFull c) (init env) acts := by
  have hstep : ∀ s a s', Inv env s ∧ Echoing s.table s.conns (todo s) → step env s a = some s' →
      (Inv env s' ∧ Echoing s'.table s'.conns (todo s')) ∧
        (PostsFull env c s a ↔ EchoesFull c s a) := by
    intro s a s' ⟨hi, he⟩ hs
    have ht := step_trans hi.ready hs
    exact ⟨⟨inv_step hi ht, echoing_step hi he ht⟩, capacity_step hi he hs⟩
  exact along_congr hstep ⟨inv_init env, echoing_init env⟩ hr

instance (env : Env) (c : Nat) (s : State) (a : Act) : Decidable (PostsFull env c s a) :=
  inferInstanceAs (Decidable (∀ s' ∈ step env s a, ∀ q ∈ posted s s', s'.table q.fd = some c →
    ∀ n ∈ q.op.recvLen, n = maxline))

instance (c : Nat) (s : State) : (a : Act) → Decidable (EchoesFull c s a)
  | .complete _ _ _ => isTrue trivial
  | .prog _ => inferInstanceAs (Decidable (∀ x ∈ current s, x.req.op.isSend = true → 0 < x.res →
      s.table x.req.fd = some c → s.ring.sq.length < s.ring.entries →
      (messages (s.conns c).log).getLast? = some maxline))

/-- A client sends this message, and the loop goes back to receiving. -/
def echoRun (bs : List UInt8) : List Act :=
  [.prog {}, .complete 1 5 [], .prog {}, .prog {}, .prog {}, .prog {},
    .complete 1 bs.length bs, .prog {}, .prog {}, .prog {}, .prog {},
    .complete 2 bs.length [], .prog {}, .prog {}]

/-- A message of 4096 bytes leaves a recv of 4096 bytes. -/
theorem recv_capacity_full :
    ∃ s, run (step env₀) (init env₀) (echoRun (List.replicate 4096 97)) = some s ∧
      s.ring.sq.map Req.op = [.recv maxline] ∧
      Along (step env₀) (PostsFull env₀ 0) (init env₀) (echoRun (List.replicate 4096 97)) := by
  have h : (run (step env₀) (init env₀) (echoRun (List.replicate 4096 97))).map
      (fun s => s.ring.sq.map Req.op) = some [.recv maxline] := by
    decide +kernel
  obtain ⟨s, hr, hs⟩ := Option.map_eq_some_iff.mp h
  exact ⟨s, hr, hs, (recv_capacity_iff env₀ 0 _ s hr).mpr (by decide +kernel)⟩

/-- A message of two bytes leaves a recv of two bytes. -/
theorem recv_capacity_two :
    ∃ s, run (step env₀) (init env₀) (echoRun [97, 98]) = some s ∧
      s.ring.sq.map Req.op = [.recv 2] ∧
      ¬ Along (step env₀) (PostsFull env₀ 0) (init env₀) (echoRun [97, 98]) := by
  have h : (run (step env₀) (init env₀) (echoRun [97, 98])).map (fun s => s.ring.sq.map Req.op) =
      some [.recv 2] := by
    decide +kernel
  obtain ⟨s, hr, hs⟩ := Option.map_eq_some_iff.mp h
  exact ⟨s, hr, hs, by decide +kernel⟩

end KernelMagic.Server
