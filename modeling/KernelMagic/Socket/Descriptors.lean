/-
  The descriptors of `socket_uring.c`. A connection is closed by `render` alone, so a request has to
  stand behind every open one: the accept that has returned the descriptor, then the recv posted on it
  (`Covers`). `descriptors_served` shows this for clients that send something before anything else
  happens to their connection. The loop ignores a recv that fails or finds the end of the stream, and
  the descriptor is left open with nobody to close it (`descriptor_leaked`).
-/
import KernelMagic.Socket.Uring

namespace KernelMagic.Socket.Uring

open KernelMagic.Lib

def isRecv : Op → Bool
  | .recv _ => true
  | _ => false

def isConn : Option Owner → Bool
  | some (.conn _) => true
  | _ => false

/-- A recv on the descriptor of a connection delivers bytes. -/
def Recvs (s : State) : Act → Prop
  | .complete i res _ => ∀ q ∈ s.ring.inflight[i]?, isRecv q.op = true →
      isConn (s.world.table q.fd) = true → 0 < res
  | .prog _ => True

instance decidableRecvs (s : State) : (a : Act) → Decidable (Recvs s a)
  | .complete i res _ =>
    inferInstanceAs (Decidable (∀ q ∈ s.ring.inflight[i]?, isRecv q.op = true →
      isConn (s.world.table q.fd) = true → 0 < res))
  | .prog _ => isTrue trivial

/-- The request leads to the close of connection `c` on descriptor `fd`. -/
def Covers (fd c : Nat) (x : Req × Option Int) : Prop :=
  match x.1.op with
  | .nop => False
  | .accept => x.2 = some (fd : Int) ∧ x.1.tag.owner = .conn c
  | .recv _ => x.1.fd = fd ∧ ∀ r ∈ x.2, 0 < r
  | .send _ => x.1.fd = fd

def Covered (P : Multiset (Req × Option Int)) (w : World) : Prop :=
  ∀ fd c, w.table fd = some (.conn c) → ∃ x ∈ P, Covers fd c x

variable {env : Env} {s : State} {w w' : World} {q q' : Req} {c : Cqe Req}
  {P Q : Multiset (Req × Option Int)} {x : Req × Option Int}

/-- Request `x` makes way for `Q`. -/
theorem Covered.replace (h : Covered (x ::ₘ P) w)
    (htable : ∀ fd k, w'.table fd = some (.conn k) → w.table fd = some (.conn k))
    (hx : ∀ fd k, w'.table fd = some (.conn k) → Covers fd k x → ∃ y ∈ Q, Covers fd k y) :
    Covered (Q + P) w' := by
  intro fd k ht
  obtain ⟨y, hy, hc⟩ := h fd k (htable fd k ht)
  rcases Multiset.mem_cons.mp hy with rfl | hy
  · obtain ⟨z, hz, hcz⟩ := hx fd k ht hc
    exact ⟨z, Multiset.mem_add.mpr (.inl hz), hcz⟩
  · exact ⟨y, Multiset.mem_add.mpr (.inr hy), hc⟩

theorem covered_kernel {res : Int} (h : Covered ((q, none) ::ₘ P) w)
    (hrecv : isRecv q.op = true → isConn (w.table q.fd) = true → 0 < res)
    (ht : Transfer env w q res q' w') : Covered ((q', some res) ::ₘ P) w' := by
  rw [← Multiset.singleton_add]
  cases ht with
  | nop hop => exact h.replace (fun _ _ ht => ht) fun fd k _ hc => by simp [Covers, hop] at hc
  | refused res hop hres =>
    exact h.replace (fun _ _ ht => ht) fun fd k _ hc => by simp [Covers, hop] at hc
  | accepted fd₀ hop hfd ht₀ =>
    intro fd k ht
    by_cases he : fd = fd₀
    · subst he
      have hk : Owner.conn w.next = .conn k := by
        simpa [World.accept] using ht
      refine ⟨_, Multiset.mem_add.mpr (.inl (Multiset.mem_singleton_self _)), ?_⟩
      simp [Covers, Req.owned, hop, hk]
    · have ht' : w.table fd = some (.conn k) := by
        rw [← ht]
        exact (Function.update_of_ne he _ _).symm
      obtain ⟨y, hy, hc⟩ := h fd k ht'
      refine ⟨y, Multiset.mem_add.mpr (.inr ?_), hc⟩
      refine (Multiset.mem_cons.mp hy).resolve_left ?_
      rintro rfl
      simp [Covers, hop] at hc
  | failed len res hop hres =>
    refine h.replace (fun _ _ ht => ht) fun fd k ht hc => ?_
    simp only [Covers, hop] at hc
    have := hrecv (by simp [hop, isRecv]) (by rw [hc.1, ht]; rfl)
    omega
  | received len bs hop hlen =>
    refine h.replace (fun _ _ ht => ht) fun fd k ht hc => ?_
    simp only [Covers, hop] at hc
    refine ⟨_, Multiset.mem_singleton_self _, ?_⟩
    have htable : w.table fd = some (.conn k) := ht
    have hpos := hrecv (by simp [hop, isRecv]) (by rw [hc.1, htable]; rfl)
    simp only [Covers, Req.filled, hop]
    refine ⟨hc.1, fun r hr => ?_⟩
    rw [← Option.some.inj hr]
    exact hpos
  | sent len res hop hres =>
    refine h.replace (fun _ _ ht => ht) fun fd k ht hc => ?_
    simp only [Covers, hop] at hc
    refine ⟨_, Multiset.mem_singleton_self _, ?_⟩
    simp only [Covers, hop]
    exact hc

theorem covered_prog {news : List Req} (h : Covered ((c.req, some c.res) ::ₘ P) w)
    (hr : Reaction Serve w c news w') :
    Covered ((news.map (·, none) : List (Req × Option Int)) + P) w' := by
  cases hr with
  | refused hop hres =>
    refine h.replace (fun _ _ ht => ht) fun fd k _ hc => ?_
    simp only [Covers, hop, Option.some.injEq] at hc
    omega
  | adopted hop hres =>
    refine h.replace (fun _ _ ht => ht) fun fd k _ hc => ?_
    simp only [Covers, hop, Option.some.injEq] at hc
    refine ⟨(recvReq c.res.toNat maxline c.req.tag.owner, none), by simp, ?_⟩
    simp only [Covers, recvReq]
    exact ⟨by omega, by simp⟩
  | unprepared hop =>
    refine h.replace (fun _ _ ht => ht) fun fd k _ hc => ?_
    simp [Covers, hop] at hc
  | served hs =>
    cases hs with
    | ignored len hop hres =>
      refine h.replace (fun _ _ ht => ht) fun fd k _ hc => ?_
      simp only [Covers, hop] at hc
      have := hc.2 c.res rfl
      omega
    | answered len path buf file hop hres hpath =>
      -- the descriptor of the request is closed; the others have other requests
      have hne : ∀ fd k, ((rendered w c.req.fd path buf file).close c.req.fd
          c.req.tag.owner).table fd = some (.conn k) → fd ≠ c.req.fd := by
        rintro fd k ht rfl
        simp [World.close] at ht
      refine h.replace (fun fd k ht => ?_) fun fd k ht hc => ?_
      · rw [← ht]
        exact (Function.update_of_ne (hne fd k ht) _ _).symm
      · simp only [Covers, hop] at hc
        exact absurd hc.1.symm (hne fd k ht)
    | resumed len hop =>
      refine h.replace (fun _ _ ht => ht) fun fd k _ hc => ?_
      simp only [Covers, hop] at hc
      refine ⟨(recvReq c.req.fd maxline c.req.tag.owner, none), by simp, ?_⟩
      simp only [Covers, recvReq]
      exact ⟨hc, by simp⟩

theorem covered_keeps : Keeps env Serve Recvs Covered where
  kernel := by
    intro s i res bs q q' w Q hP hq ht htodo henc h
    rw [htodo] at h
    exact covered_kernel h (hP q hq) ht
  prog := by
    intro s a x news w Q hP hx hr htodo henc h
    rw [htodo] at h
    exact covered_prog h hr

theorem covered_init (env : Env) :
    Covered ((unprepared, none) ::ₘ (acceptReq env.sockfd, none) ::ₘ 0) (init env).world := by
  intro fd k ht
  simp only [init, World.posted, World.start] at ht
  split at ht <;> cases ht

/-- The loop has processed the accept of connection `c`. -/
def Seen (s : State) (c : Nat) : Prop :=
  ∀ x ∈ todo s, x.1.op = .accept → x.1.tag.owner ≠ .conn c

instance (s : State) (c : Nat) : Decidable (Seen s c) :=
  inferInstanceAs (Decidable (∀ x ∈ todo s, x.1.op = .accept → x.1.tag.owner ≠ .conn c))

/-- A connection that is open and that the loop has seen has a recv or a send behind it. -/
theorem descriptors_served (env : Env) (acts : List Act) (s : State)
    (hP : Along (step env program) Recvs (init env) acts)
    (hr : run (step env program) (init env) acts = some s) (fd c : Nat)
    (hopen : s.world.table fd = some (.conn c))
    (hseen : Seen s c) :
    ∃ x ∈ todo s, x.1.fd = fd ∧ ∃ n, x.1.op = .recv n ∨ x.1.op = .send n := by
  obtain ⟨x, hx, hc⟩ :=
    (run_keeps serves covered_keeps (covered_init env) hP hr).holds fd c hopen
  refine ⟨x, hx, ?_⟩
  unfold Covers at hc
  split at hc
  · exact absurd hc id
  · next hop => exact absurd hc.2 (hseen x hx hop)
  · next n hop => exact ⟨hc.1, n, .inl hop⟩
  · next n hop => exact ⟨hc, n, .inr hop⟩

/-- The client on descriptor 5 is answered, and the next one, on the same descriptor, is waited for;
    the recv on descriptor 0 fails. -/
def connected : List Act :=
  [.prog {}, .complete 0 0 [], .complete 0 5 [], .prog {}, .prog {}, .prog {}, .prog {}, .prog {},
    .complete 0 (-88) [], .complete 1 7 (ascii "GET /a "), .prog {}, .prog {},
    .prog { file := some (ascii "hello") }, .prog {}, .prog {}, .complete 1 5 [], .prog {}, .prog {},
    .prog {}, .prog {}]

theorem descriptors_served_connected :
    ∃ s, run (step env₀ program) (init env₀) connected = some s ∧
      s.world.opens = [ascii ".//a"] ∧ s.world.closes = [⟨5, .conn 0, some (.conn 0)⟩] ∧
      s.world.table 5 = some (.conn 1) ∧
      ∃ x ∈ todo s, x.1.fd = 5 ∧ ∃ n, x.1.op = .recv n ∨ x.1.op = .send n := by
  have h : (run (step env₀ program) (init env₀) connected).map (fun s =>
      (s.world.opens, s.world.closes, s.world.table 5, decide (Seen s 1))) =
      some ([ascii ".//a"], [⟨5, .conn 0, some (.conn 0)⟩], some (.conn 1), true) := by
    decide +kernel
  obtain ⟨s, hr, hs⟩ := Option.map_eq_some_iff.mp h
  obtain ⟨hopens, hs⟩ := Prod.mk.inj hs
  obtain ⟨hcloses, hs⟩ := Prod.mk.inj hs
  obtain ⟨hopen, hseen⟩ := Prod.mk.inj hs
  exact ⟨s, hr, hopens, hcloses, hopen, descriptors_served env₀ connected s (by decide +kernel) hr 5 1
    hopen (of_decide_eq_true hseen)⟩

/-- The client hangs up without a request. -/
def hangup : List Act :=
  [.prog {}, .complete 0 0 [], .complete 0 5 [], .prog {}, .prog {}, .prog {}, .prog {}, .prog {},
    .complete 2 0 [], .prog {}, .prog {}]

/-- Its descriptor is open, the loop is done with it, and no request is on it. -/
theorem descriptor_leaked :
    ∃ s, run (step env₀ program) (init env₀) hangup = some s ∧
      s.world.table 5 = some (.conn 0) ∧ Seen s 0 ∧ ∀ x ∈ todo s, x.1.fd ≠ 5 := by
  have h : (run (step env₀ program) (init env₀) hangup).map (fun s =>
      (s.world.table 5, decide (Seen s 0 ∧ ∀ x ∈ todo s, x.1.fd ≠ 5))) =
        some (some (.conn 0), true) := by
    decide +kernel
  obtain ⟨s, hr, hs⟩ := Option.map_eq_some_iff.mp h
  obtain ⟨hopen, hnone⟩ := Prod.mk.inj hs
  exact ⟨s, hr, hopen, of_decide_eq_true hnone⟩

end KernelMagic.Socket.Uring
