/-
  What the sends of `socket_uring_normal.c` transmit.

  All clients share one buffer, so the answer to one may be overwritten by the message of another
  before it goes out; and a recv that is posted after its connection has been closed may take up the
  bytes of whoever is given the descriptor next. `echo_isolated`: when no recv delivers bytes while a
  message is in the buffer (`Quiet`) and no send fails (`Sends`), each send transmits the bytes of the
  recv that caused it, all of them unless the kernel completes it short; and the connection that the
  descriptor belonged to when they came in is the one it belongs to when they go out.
  `echo_mixed_up` are two clients whose messages arrive in one batch.
-/
import KernelMagic.Socket.Buffer
import KernelMagic.Socket.Closing

namespace KernelMagic.Socket.Normal

open KernelMagic.Lib

/-- The bytes that went out are those that came in, on the same descriptor and from the same
    connection; all of them if all that was posted went out. -/
structure Faithful (e : Sent) : Prop where
  origin : e.origin = some e.owner
  hit : e.hit = some e.owner
  source : e.source = e.fd
  payload : e.payload <+: e.cause
  whole : e.payload.length = e.len → e.payload = e.cause

/-- Where the bytes of a request are from: those of a recv were delivered by its own connection, those
    of a send by the recv on its descriptor. -/
def Traced (x : Req × Option Int) : Prop :=
  match x.1.op with
  | .nop => True
  | .accept => True
  | .recv _ => ∀ r ∈ x.2, 0 ≤ r → x.1.tag.origin = some x.1.tag.owner
  | .send _ => x.1.tag.source = x.1.fd ∧ x.1.tag.origin = some x.1.tag.owner

structure Isolated (env : Env) (P : Multiset (Req × Option Int)) (w : World) : Prop where
  closing : Closing env P w
  clean : Clean P w.buffer
  traced : ∀ x ∈ P, Traced x
  sent : ∀ e ∈ w.sent, Faithful e

variable {env : Env} {s : State} {w w' : World} {q q' : Req} {x : Cqe Req}
  {P : Multiset (Req × Option Int)}

/-- A recv or a send holds the descriptor of its own connection. -/
theorem Isolated.held (h : Isolated env ((q, none) ::ₘ P) w)
    (hk : keep (q, none) = some (q.fd, q.tag.owner)) : w.table q.fd = some q.tag.owner := by
  have hmem : (q.fd, q.tag.owner) ∈ keeps ((q, none) ::ₘ P) := by
    rw [keeps_cons_some hk]
    exact Multiset.mem_cons_self _ _
  exact h.closing.kept.table _ hmem

theorem Isolated.transmitted {len : Nat} {res : Int} (h : Isolated env ((q, none) ::ₘ P) w)
    (hop : q.op = .send len) (hres : res ≤ len) :
    Faithful ⟨q.fd, len, q.tag.owner, w.table q.fd, q.tag.source, q.tag.origin, q.tag.bytes,
      w.buffer.take res.toNat⟩ := by
  have hmem := Multiset.mem_cons_self (q, (none : Option Int)) P
  have htraced := h.traced _ hmem
  simp only [Traced, hop] at htraced
  obtain ⟨⟨rest, hbuf⟩, hlen⟩ := h.clean.held (q, none) hmem (by simp [busy, hop])
  simp only [span, hop] at hbuf hlen
  have htake : w.buffer.take res.toNat = q.tag.bytes.take res.toNat := by
    rw [← hbuf]
    exact List.take_append_of_le_length (by omega)
  refine ⟨htraced.2, h.held (by simp [keep, hop]), htraced.1, ?_, ?_⟩
  · simp only
    rw [htake]
    exact List.take_prefix _ _
  · simp only
    rw [htake]
    intro hall
    exact (List.take_prefix _ _).eq_of_length (by omega)

theorem Isolated.traced_transfer {res : Int} (h : Isolated env ((q, none) ::ₘ P) w)
    (ht : Transfer env w q res q' w') : Traced (q', some res) := by
  have htraced := h.traced _ (Multiset.mem_cons_self _ _)
  unfold Traced at htraced ⊢
  cases ht with
  | nop hop => simp only [hop]
  | refused res hop hres => simp only [hop]
  | accepted fd hop hfd ht => simp only [Req.owned, hop]
  | failed len res hop hres =>
    simp only [hop, Option.mem_some_iff, forall_eq']
    omega
  | received len bs hop hlen =>
    simp only [Req.filled, hop]
    exact fun _ _ _ => h.held (by simp [keep, hop])
  | sent len res hop hres =>
    simp only [hop] at htraced ⊢
    exact htraced

theorem isolated_kernel {res : Int} (h : Isolated env ((q, none) ::ₘ P) w)
    (hq : busy (q, some res) = true → ∀ y ∈ P, busy y = false)
    (hsend : q.op.isSend = true → 0 ≤ res) (ht : Transfer env w q res q' w') :
    Isolated env ((q', some res) ::ₘ P) w' := by
  refine ⟨closing_kernel h.closing hsend ht, clean_transfer h.clean hq ht, ?_, ?_⟩
  · have htraced := h.traced
    rw [Multiset.forall_mem_cons] at htraced ⊢
    exact ⟨h.traced_transfer ht, htraced.2⟩
  · cases ht with
    | nop hop => exact h.sent
    | refused res hop hres => exact h.sent
    | accepted fd hop hfd ht => exact h.sent
    | failed len res hop hres => exact h.sent
    | received len bs hop hlen => exact h.sent
    | sent len res hop hres =>
      intro e he
      rcases List.mem_append.mp he with he | he
      · exact h.sent e he
      · rw [List.mem_singleton.mp he]
        exact h.transmitted hop hres

theorem Isolated.clean_react {news : List Req} (h : Isolated env ((x.req, some x.res) ::ₘ P) w)
    (hr : Reaction Serve w x news w') :
    Clean ((news.map (·, none) : List (Req × Option Int)) + P) w'.buffer := by
  cases hr with
  | refused hop hres => exact h.clean.swap (by simp)
  | adopted hop hres => exact h.clean.swap (by simp [busy, recvReq, acceptReq])
  | unprepared hop => exact h.clean.swap (by simp [busy, recvReq, acceptReq])
  | served hs =>
    cases hs with
    | hungUp len hop hres => exact h.clean.swap (by simp)
    | echoed len hop hres =>
      -- the bytes of the recv are now on account of the send
      have hb : busy (x.req, some x.res) = true := by simp [busy, hop, hres]
      have hheld := h.clean.held _ (Multiset.mem_cons_self _ _) hb
      refine clean_of_busy (h.clean.others hb) ⟨hheld.1, ?_⟩
      rw [show span (echoReq x, none) = span (x.req, some x.res) by
        simp [span, echoReq, sendReq, hop]]
      exact hheld.2
    | resumed len hop hres => exact h.clean.swap (by simp [busy, againReq, recvReq])
    | broken len hop hres => exact h.clean.swap (by simp [busy, againReq, recvReq])

/-- A recv that is posted has no bytes yet, and the send that is posted takes those of its recv. -/
theorem traced_news {news : List Req} (hx : Traced (x.req, some x.res))
    (hr : Reaction Serve w x news w') : ∀ r ∈ news, Traced (r, none) := by
  intro r hmem
  cases hr with
  | refused hop hres => cases hmem
  | adopted hop hres =>
    rcases List.mem_pair.mp hmem with rfl | rfl
    · simp [Traced, recvReq]
    · simp [Traced, acceptReq]
  | unprepared hop =>
    rcases List.mem_pair.mp hmem with rfl | rfl
    · simp [Traced, recvReq]
    · simp [Traced, acceptReq]
  | served hs =>
    cases hs with
    | hungUp len hop hres => cases hmem
    | echoed len hop hres =>
      rw [List.mem_singleton.mp hmem]
      simp only [Traced, hop] at hx
      exact ⟨rfl, hx x.res rfl hres.le⟩
    | resumed len hop hres =>
      rw [List.mem_singleton.mp hmem]
      simp [Traced, againReq, recvReq]
    | broken len hop hres =>
      rw [List.mem_singleton.mp hmem]
      simp [Traced, againReq, recvReq]

theorem isolated_prog {news : List Req} (h0 : env.sockfd ≠ 0)
    (h : Isolated env ((x.req, some x.res) ::ₘ P) w) (hr : Reaction Serve w x news w') :
    Isolated env ((news.map (·, none) : List (Req × Option Int)) + P) w' := by
  have htraced := h.traced
  rw [Multiset.forall_mem_cons] at htraced
  refine ⟨closing_prog h0 h.closing hr, h.clean_react hr, ?_, ?_⟩
  · intro y hy
    rcases Multiset.mem_add.mp hy with hy | hy
    · obtain ⟨r, hmem, rfl⟩ := List.mem_map.mp hy
      exact traced_news htraced.1 hr r hmem
    · exact htraced.2 y hy
  · cases hr with
    | refused hop hres => exact h.sent
    | adopted hop hres => exact h.sent
    | unprepared hop => exact h.sent
    | served hs => cases hs <;> exact h.sent

theorem isolated_keeps (h0 : env.sockfd ≠ 0) :
    Keeps env Serve (fun s a => Quiet s a ∧ Sends s a) (Isolated env) where
  kernel := by
    intro s i res bs q q' w Q hP hq ht htodo henc h
    rw [htodo] at h
    exact isolated_kernel h (hP.1.others hq htodo) (hP.2 q hq) ht
  prog := by
    intro s a x news w Q hP hx hr htodo henc h
    rw [htodo] at h
    exact isolated_prog h0 h hr

theorem isolated_init (hin : env.reserved 0 = true) :
    Isolated env ((unprepared, none) ::ₘ (acceptReq env.sockfd, none) ::ₘ 0) (init env).world where
  closing := closing_init hin
  clean := clean_of_idle (by simp [busy, unprepared, acceptReq]) _
  traced := by simp [Traced, unprepared, acceptReq]
  sent := by
    intro e he
    cases he

/-- Each send goes out on the connection that the bytes came from, and transmits those bytes. -/
theorem echo_isolated (env : Env) (acts : List Act) (s : State) (hin : env.reserved 0 = true)
    (h0 : env.sockfd ≠ 0) (hq : Along (step env program) Quiet (init env) acts)
    (hs : Along (step env program) Sends (init env) acts)
    (hr : run (step env program) (init env) acts = some s) :
    ∀ e ∈ s.world.sent, e.origin = some e.owner ∧ e.hit = some e.owner ∧ e.source = e.fd ∧
      e.payload <+: e.cause ∧ (e.payload.length = e.len → e.payload = e.cause) := by
  intro e he
  have h := (run_keeps serves (isolated_keeps h0) (isolated_init hin) (hq.and hs) hr).holds.sent e he
  exact ⟨h.origin, h.hit, h.source, h.payload, h.whole⟩

/-- The no-op and the first accept are processed, then a second accept; the requests on descriptor 0
    fail. The message of client 5 is answered before that of client 6 arrives. -/
def inTurn : List Act :=
  [.prog {}, .complete 0 0 [], .complete 0 5 [], .prog {}, .prog {}, .prog {}, .prog {}, .prog {},
    .complete 0 (-88) [], .complete 0 (-22) [], .complete 1 6 [],
    .prog {}, .prog {}, .prog {}, .prog {}, .prog {}, .prog {},
    .complete 0 2 [97, 98], .prog {}, .prog {}, .prog {}, .prog {},
    .complete 2 2 [], .complete 0 2 [120, 121], .prog {}, .prog {}, .prog {}, .prog {}, .prog {},
    .complete 2 1 []]

theorem echo_isolated_inTurn :
    ∃ s, run (step env₀ program) (init env₀) inTurn = some s ∧
      s.world.sent =
        [⟨5, 2, .conn 0, some (.conn 0), 5, some (.conn 0), [97, 98], [97, 98]⟩,
          ⟨6, 2, .conn 1, some (.conn 1), 6, some (.conn 1), [120, 121], [120]⟩] ∧
      ∀ e ∈ s.world.sent, e.origin = some e.owner ∧ e.hit = some e.owner ∧ e.source = e.fd ∧
        e.payload <+: e.cause ∧ (e.payload.length = e.len → e.payload = e.cause) := by
  have h : (run (step env₀ program) (init env₀) inTurn).map (fun s => s.world.sent) =
      some [⟨5, 2, .conn 0, some (.conn 0), 5, some (.conn 0), [97, 98], [97, 98]⟩,
        ⟨6, 2, .conn 1, some (.conn 1), 6, some (.conn 1), [120, 121], [120]⟩] := by
    decide +kernel
  obtain ⟨s, hr, hs⟩ := Option.map_eq_some_iff.mp h
  exact ⟨s, hr, hs, echo_isolated env₀ inTurn s rfl (by decide) (by decide +kernel)
    (by decide +kernel) hr⟩

/-- Both messages are in the completion queue before the loop looks at it. -/
def together : List Act :=
  [.prog {}, .complete 0 0 [], .complete 0 5 [], .prog {}, .prog {}, .prog {}, .prog {}, .prog {},
    .complete 0 (-88) [], .complete 0 (-22) [], .complete 1 6 [],
    .prog {}, .prog {}, .prog {}, .prog {}, .prog {}, .prog {},
    .complete 0 2 [97, 98], .complete 0 2 [120, 121], .prog {}, .prog {}, .prog {}, .prog {}, .prog {},
    .complete 1 2 [], .complete 1 2 []]

/-- Client 5 is sent what client 6 has written. -/
theorem echo_mixed_up :
    ∃ s, run (step env₀ program) (init env₀) together = some s ∧
      ∃ e ∈ s.world.sent, e.fd = 5 ∧ e.hit = some (.conn 0) ∧ e.origin = some (.conn 0) ∧
        e.cause = [97, 98] ∧ e.payload = [120, 121] := by
  have h : (run (step env₀ program) (init env₀) together).map (fun s => s.world.sent) =
      some [⟨5, 2, .conn 0, some (.conn 0), 5, some (.conn 0), [97, 98], [120, 121]⟩,
        ⟨6, 2, .conn 1, some (.conn 1), 6, some (.conn 1), [120, 121], [120, 121]⟩] := by
    decide +kernel
  obtain ⟨s, hr, hs⟩ := Option.map_eq_some_iff.mp h
  refine ⟨s, hr, ⟨5, 2, .conn 0, some (.conn 0), 5, some (.conn 0), [97, 98], [120, 121]⟩, ?_, rfl,
    rfl, rfl, rfl, rfl⟩
  rw [hs]
  exact List.mem_cons_self

end KernelMagic.Socket.Normal
