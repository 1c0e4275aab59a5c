/-
  Who closes which descriptor in `socket_uring_normal.c`.

  A descriptor number is given to one connection after another, so a close or a request that comes too
  late acts on somebody else's connection. `close_discipline`: as long as no send fails, each close
  and each posted request acts on the connection on whose account it is done, and no connection is
  closed twice. A failed send breaks it at once: the descriptor is closed and a recv is posted on it
  in the same turn (`recv_after_close`).

  The invariant counts the descriptors that the outstanding requests keep open (`keeps`): each request
  that moves bytes keeps its own, an accept the one it has returned until the loop sees it, and the
  unprepared entry, which the loop will take for an accept, keeps descriptor 0. `Kept` relates this
  collection to the descriptor table and the histories; opening and closing each change one element.
-/
import KernelMagic.Socket.Normal

namespace KernelMagic.Socket

open KernelMagic.Lib

/-- The connection has a number below `n`, if it is one. -/
def Owner.Below : Owner → Nat → Prop
  | .own, _ => True
  | .conn c, n => c < n

theorem Owner.Below.mono {o : Owner} {n m : Nat} (h : o.Below n) (hm : n ≤ m) : o.Below m := by
  cases o with
  | own => trivial
  | conn c => exact Nat.lt_of_lt_of_le h hm

theorem Owner.Below.ne {o : Owner} {n : Nat} (h : o.Below n) : o ≠ .conn n := by
  rintro rfl
  exact Nat.lt_irrefl n h

/-- The descriptors `K`, each with its owner, are kept open. -/
structure Kept (env : Env) (K : Multiset (Nat × Owner)) (w : World) : Prop where
  table : ∀ k ∈ K, w.table k.1 = some k.2
  nodup : (K.map Prod.snd).Nodup
  own : ∀ k ∈ K, k.2 = .own → k.1 = 0
  listen : w.table env.sockfd = some .own
  fresh : ∀ k ∈ K, k.2.Below w.next
  closed : ∀ e ∈ w.closes, e.owner ∉ K.map Prod.snd ∧ e.owner.Below w.next
  hits : ∀ e ∈ w.closes, e.hit = some e.owner
  once : (w.closes.map Close.owner).Nodup
  posts : ∀ e ∈ w.posts, e.hit = some e.owner

variable {env : Env} {w w' : World} {K : Multiset (Nat × Owner)} {fd : Nat} {o : Owner} {q : Req}

theorem Kept.frame (h : Kept env K w) (ht : w'.table = w.table) (hn : w'.next = w.next)
    (hc : w'.closes = w.closes) (hp : w'.posts = w.posts) : Kept env K w' := by
  refine ⟨?_, h.nodup, h.own, ?_, ?_, ?_, ?_, ?_, ?_⟩
  · rw [ht]
    exact h.table
  · rw [ht]
    exact h.listen
  · rw [hn]
    exact h.fresh
  · rw [hc, hn]
    exact h.closed
  · rw [hc]
    exact h.hits
  · rw [hc]
    exact h.once
  · rw [hp]
    exact h.posts

theorem Kept.accept (h : Kept env K w) (ht : w.table fd = none) :
    Kept env ((fd, .conn w.next) ::ₘ K) (w.accept fd) := by
  have hother : ∀ fd', (w.table fd').isSome = true → (w.accept fd).table fd' = w.table fd' := by
    intro fd' hs
    refine Function.update_of_ne ?_ _ _
    rintro rfl
    rw [ht] at hs
    cases hs
  have hnew : Owner.conn w.next ∉ K.map Prod.snd := by
    intro hm
    obtain ⟨k, hk, he⟩ := Multiset.mem_map.mp hm
    exact (h.fresh k hk).ne he
  refine ⟨?_, ?_, ?_, ?_, ?_, ?_, h.hits, h.once, h.posts⟩
  · rw [Multiset.forall_mem_cons]
    refine ⟨Function.update_self _ _ _, fun k hk => ?_⟩
    rw [hother k.1 (by rw [h.table k hk]; rfl)]
    exact h.table k hk
  · rw [Multiset.map_cons, Multiset.nodup_cons]
    exact ⟨hnew, h.nodup⟩
  · rw [Multiset.forall_mem_cons]
    exact ⟨by simp, h.own⟩
  · rw [hother _ (by rw [h.listen]; rfl)]
    exact h.listen
  · rw [Multiset.forall_mem_cons]
    exact ⟨Nat.lt_succ_self _, fun k hk => (h.fresh k hk).mono (Nat.le_succ _)⟩
  · intro e he
    obtain ⟨hout, hlt⟩ := h.closed e he
    refine ⟨?_, hlt.mono (Nat.le_succ _)⟩
    rw [Multiset.map_cons, Multiset.mem_cons, not_or]
    exact ⟨hlt.ne, hout⟩

theorem Kept.close (h : Kept env ((fd, o) ::ₘ K) w) (h0 : env.sockfd ≠ 0) :
    Kept env K (w.close fd o) := by
  have hopen := h.table
  have hown := h.own
  have hfresh := h.fresh
  have hnodup := h.nodup
  rw [Multiset.forall_mem_cons] at hopen hown hfresh
  rw [Multiset.map_cons, Multiset.nodup_cons] at hnodup
  -- the other descriptors have other owners, so they are other descriptors
  have hother : ∀ fd' o', w.table fd' = some o' → o' ≠ o →
      (w.close fd o).table fd' = some o' := by
    intro fd' o' ht hne
    rw [← ht]
    refine Function.update_of_ne ?_ _ _
    rintro rfl
    exact hne (Option.some.inj (ht.symm.trans hopen.1))
  refine ⟨?_, hnodup.2, hown.2, ?_, hfresh.2, ?_, ?_, ?_, h.posts⟩
  · intro k hk
    refine hother k.1 k.2 (hopen.2 k hk) ?_
    intro he
    exact hnodup.1 (Multiset.mem_map.mpr ⟨k, hk, he⟩)
  · rw [World.close]
    simp only
    rw [Function.update_of_ne ?_]
    · exact h.listen
    · rintro rfl
      exact h0 (hown.1 (Option.some.inj (hopen.1.symm.trans h.listen)))
  · intro e he
    rcases List.mem_append.mp he with he | he
    · have hc := h.closed e he
      rw [Multiset.map_cons, Multiset.mem_cons, not_or] at hc
      exact ⟨hc.1.2, hc.2⟩
    · rw [List.mem_singleton.mp he]
      exact ⟨hnodup.1, hfresh.1⟩
  · intro e he
    rcases List.mem_append.mp he with he | he
    · exact h.hits e he
    · rw [List.mem_singleton.mp he]
      exact hopen.1
  · have happend : (w.close fd o).closes.map Close.owner = w.closes.map Close.owner ++ [o] := by
      simp [World.close]
    rw [happend, List.nodup_append]
    refine ⟨h.once, List.nodup_singleton o, ?_⟩
    intro a ha b hb hab
    obtain ⟨e, he, rfl⟩ := List.mem_map.mp ha
    rw [List.mem_singleton.mp hb] at hab
    refine (h.closed e he).1 ?_
    rw [hab, Multiset.map_cons]
    exact Multiset.mem_cons_self _ _

theorem Kept.post (h : Kept env K w) (hq : w.table q.fd = some q.tag.owner) :
    Kept env K (w.posted q) := by
  refine ⟨h.table, h.nodup, h.own, h.listen, h.fresh, h.closed, h.hits, h.once, ?_⟩
  intro e he
  rcases List.mem_append.mp he with he | he
  · exact h.posts e he
  · rw [List.mem_singleton.mp he]
    exact hq

/-! ## The descriptors of the requests -/

/-- The descriptor that a request keeps open. -/
def keep (x : Req × Option Int) : Option (Nat × Owner) :=
  match x.1.op with
  | .nop => some (0, x.1.tag.owner)
  | .accept => x.2.bind fun r => if 0 ≤ r then some (r.toNat, x.1.tag.owner) else none
  | .recv _ => some (x.1.fd, x.1.tag.owner)
  | .send _ => some (x.1.fd, x.1.tag.owner)

def keeps (P : Multiset (Req × Option Int)) : Multiset (Nat × Owner) := P.filterMap keep

def Op.isSend : Op → Bool
  | .send _ => true
  | _ => false

/-- No send fails. -/
def Sends (s : State) : Act → Prop
  | .complete i res _ => ∀ q ∈ s.ring.inflight[i]?, q.op.isSend = true → 0 ≤ res
  | .prog _ => True

instance decidableSends (s : State) : (a : Act) → Decidable (Sends s a)
  | .complete i res _ =>
    inferInstanceAs (Decidable (∀ q ∈ s.ring.inflight[i]?, q.op.isSend = true → 0 ≤ res))
  | .prog _ => isTrue trivial

/-- A request, with what its result says about it. -/
def JobOk (env : Env) (x : Req × Option Int) : Prop :=
  match x.1.op with
  | .nop => x.1.tag.owner = .own
  | .accept => ∀ r ∈ x.2, 0 ≤ r → x.1.fd = env.sockfd
  | .recv _ => True
  | .send _ => ∀ r ∈ x.2, 0 ≤ r

structure Closing (env : Env) (P : Multiset (Req × Option Int)) (w : World) : Prop where
  kept : Kept env (keeps P) w
  jobs : ∀ x ∈ P, JobOk env x

variable {s : State} {q' : Req} {x y : Req × Option Int} {c : Cqe Req} {k : Nat × Owner}
  {P : Multiset (Req × Option Int)}

theorem keeps_cons_some (h : keep x = some k) : keeps (x ::ₘ P) = k ::ₘ keeps P :=
  Multiset.filterMap_cons_some _ _ _ h

theorem keeps_cons_none (h : keep x = none) : keeps (x ::ₘ P) = keeps P :=
  Multiset.filterMap_cons_none _ _ h

theorem keeps_congr (h : keep y = keep x) : keeps (y ::ₘ P) = keeps (x ::ₘ P) := by
  cases hx : keep x with
  | none => rw [keeps_cons_none hx, keeps_cons_none (h.trans hx)]
  | some k => rw [keeps_cons_some hx, keeps_cons_some (h.trans hx)]

theorem jobOk_transfer {res : Int} (h : JobOk env (q, none))
    (hsend : q.op.isSend = true → 0 ≤ res) (ht : Transfer env w q res q' w') :
    JobOk env (q', some res) := by
  unfold JobOk at h ⊢
  cases ht with
  | nop hop =>
    simp only [hop] at h ⊢
    exact h
  | refused res hop hres =>
    simp only [hop, Option.mem_some_iff, forall_eq']
    omega
  | accepted fd hop hfd ht =>
    simp only [Req.owned, hop]
    exact fun _ _ _ => hfd
  | failed len res hop hres => simp only [hop]
  | received len bs hop hlen => simp only [Req.filled, hop]
  | sent len res hop hres =>
    rw [hop] at hsend
    simp only [hop, Option.mem_some_iff, forall_eq']
    exact hsend rfl

theorem closing_kernel {res : Int} (h : Closing env ((q, none) ::ₘ P) w)
    (hsend : q.op.isSend = true → 0 ≤ res) (ht : Transfer env w q res q' w') :
    Closing env ((q', some res) ::ₘ P) w' := by
  have hjobs := h.jobs
  rw [Multiset.forall_mem_cons] at hjobs
  refine ⟨?_, ?_⟩
  · have hk := h.kept
    cases ht with
    | nop hop =>
      rw [keeps_congr (x := (q, none)) (by simp [keep, hop])]
      exact hk
    | refused res hop hres =>
      rw [keeps_congr (x := (q, none)) (by simp [keep, hop, hres])]
      exact hk
    | accepted fd hop hfd ht =>
      rw [keeps_cons_none (by simp [keep, hop])] at hk
      rw [keeps_cons_some (k := (fd, .conn w.next)) (by simp [keep, Req.owned, hop])]
      exact hk.accept ht
    | failed len res hop hres =>
      rw [keeps_congr (x := (q, none)) (by simp [keep, hop])]
      exact hk
    | received len bs hop hlen =>
      rw [keeps_congr (x := (q, none)) (by simp [keep, Req.filled, hop])]
      exact hk.frame rfl rfl rfl rfl
    | sent len res hop hres =>
      rw [keeps_congr (x := (q, none)) (by simp [keep, hop])]
      exact hk.frame rfl rfl rfl rfl
  · rw [Multiset.forall_mem_cons]
    exact ⟨jobOk_transfer hjobs.1 hsend ht, hjobs.2⟩

/-- A request that is posted in place of another one, on the descriptor that one has kept. -/
theorem Kept.replace (h : Kept env (keeps (x ::ₘ P)) w) (hk : keep (q, none) = keep x)
    (hx : keep x = some (q.fd, q.tag.owner)) :
    Kept env (keeps ((q, none) ::ₘ P)) (w.posted q) := by
  rw [keeps_congr hk]
  refine h.post ?_
  have hmem : (q.fd, q.tag.owner) ∈ keeps (x ::ₘ P) := by
    rw [keeps_cons_some hx]
    exact Multiset.mem_cons_self _ _
  exact h.table _ hmem

theorem Kept.listenOn (h : Kept env (keeps P) w) (hfd : w.table fd = some .own) :
    Kept env (keeps ((acceptReq fd, none) ::ₘ P)) (w.posted (acceptReq fd)) := by
  rw [keeps_cons_none rfl]
  exact h.post hfd

/-! ## The loop -/

namespace Normal

theorem Closing.adopt (h : Closing env (x ::ₘ P) w) (hx : keep x = some (fd, o)) {sfd : Nat}
    (hlisten : w.table sfd = some .own) :
    Closing env ((acceptReq sfd, none) ::ₘ (recvReq fd maxline o, none) ::ₘ P)
      ((w.posted (recvReq fd maxline o)).posted (acceptReq sfd)) := by
  have hjobs := h.jobs
  rw [Multiset.forall_mem_cons] at hjobs
  have hkept := h.kept.replace (q := recvReq fd maxline o) hx.symm hx
  refine ⟨hkept.listenOn hlisten, ?_⟩
  rw [Multiset.forall_mem_cons, Multiset.forall_mem_cons]
  exact ⟨by simp [JobOk, acceptReq], trivial, hjobs.2⟩

theorem closing_prog {news : List Req} (h0 : env.sockfd ≠ 0)
    (h : Closing env ((c.req, some c.res) ::ₘ P) w) (hr : Reaction Serve w c news w') :
    Closing env ((news.map (·, none) : List (Req × Option Int)) + P) w' := by
  have hjobs := h.jobs
  rw [Multiset.forall_mem_cons] at hjobs
  have hjob := hjobs.1
  unfold JobOk at hjob
  have hkept := h.kept
  cases hr with
  | refused hop hres =>
    rw [keeps_cons_none (by simp [keep, hop, hres])] at hkept
    rw [news_nil]
    exact ⟨hkept, hjobs.2⟩
  | adopted hop hres =>
    simp only [hop] at hjob
    have hfd := hjob c.res rfl hres
    rw [news_two]
    refine Closing.adopt h (by simp [keep, hop, hres]) ?_
    rw [hfd]
    exact hkept.listen
  | unprepared hop =>
    simp only [hop] at hjob
    have hx : keep (c.req, some c.res) = some (0, c.req.tag.owner) := by simp [keep, hop]
    rw [news_two]
    refine Closing.adopt h hx ?_
    rw [← hjob]
    rw [keeps_cons_some hx] at hkept
    exact hkept.table _ (Multiset.mem_cons_self _ _)
  | served hs =>
    cases hs with
    | hungUp len hop hres =>
      rw [keeps_cons_some (k := (c.req.fd, c.req.tag.owner)) (by simp [keep, hop])] at hkept
      rw [news_nil]
      exact ⟨hkept.close h0, hjobs.2⟩
    | echoed len hop hres =>
      rw [news_one]
      refine ⟨hkept.replace ?_ ?_, ?_⟩
      · simp [keep, echoReq, sendReq, hop]
      · simp [keep, echoReq, sendReq, hop]
      · rw [Multiset.forall_mem_cons]
        exact ⟨by simp [JobOk, echoReq, sendReq], hjobs.2⟩
    | resumed len hop hres =>
      rw [news_one]
      refine ⟨hkept.replace ?_ ?_, ?_⟩
      · simp [keep, againReq, recvReq, hop]
      · simp [keep, againReq, recvReq, hop]
      · rw [Multiset.forall_mem_cons]
        exact ⟨trivial, hjobs.2⟩
    | broken len hop hres =>
      simp only [hop] at hjob
      have := hjob c.res rfl
      omega

theorem closing_keeps (h0 : env.sockfd ≠ 0) : Keeps env Serve Sends (Closing env) where
  kernel := by
    intro s i res bs q q' w Q hP hq ht htodo henc h
    rw [htodo] at h
    exact closing_kernel h (hP q hq) ht
  prog := by
    intro s a x news w Q hP hx hr htodo henc h
    rw [htodo] at h
    exact closing_prog h0 h hr

theorem closing_init (hin : env.reserved 0 = true) :
    Closing env ((unprepared, none) ::ₘ (acceptReq env.sockfd, none) ::ₘ 0) (init env).world := by
  have hkeeps : keeps ((unprepared, none) ::ₘ (acceptReq env.sockfd, none) ::ₘ 0) =
      (0, .own) ::ₘ 0 := rfl
  refine ⟨?_, by simp [JobOk, unprepared, acceptReq, ownTag]⟩
  rw [hkeeps]
  have hlisten : (World.start env).table env.sockfd = some .own := if_pos env.listening
  refine Kept.post ⟨?_, ?_, ?_, hlisten, ?_, ?_, ?_, List.nodup_nil, ?_⟩ hlisten
  · rw [Multiset.forall_mem_cons]
    exact ⟨if_pos hin, by simp⟩
  · simp
  · simp
  · rw [Multiset.forall_mem_cons]
    exact ⟨trivial, by simp⟩
  · intro e he
    cases he
  · intro e he
    cases he
  · intro e he
    cases he

/-- Each close hits the connection on whose account it is done, none is closed twice, and no request
    is posted on a descriptor that is not that connection's. -/
theorem close_discipline (env : Env) (acts : List Act) (s : State) (hin : env.reserved 0 = true)
    (h0 : env.sockfd ≠ 0) (hP : Along (step env program) Sends (init env) acts)
    (hr : run (step env program) (init env) acts = some s) :
    (∀ e ∈ s.world.closes, e.hit = some e.owner) ∧ (s.world.closes.map Close.owner).Nodup ∧
      ∀ e ∈ s.world.posts, e.hit = some e.owner := by
  have h := (run_keeps serves (closing_keeps h0) (closing_init hin) hP hr).holds.kept
  exact ⟨h.hits, h.once, h.posts⟩

/-- Descriptor 5 is used for two clients, one after the other. -/
def twice : List Act :=
  [.prog {}, .complete 0 0 [], .complete 0 5 [], .prog {}, .prog {}, .prog {}, .prog {}, .prog {},
    .complete 0 (-88) [], .complete 0 (-22) [], .complete 0 0 [],
    .prog {}, .prog {}, .prog {}, .prog {}, .prog {}, .prog {},
    .complete 0 5 [], .prog {}, .prog {}, .prog {}, .prog {}, .complete 0 (-104) [],
    .prog {}, .prog {}]

theorem close_discipline_twice :
    ∃ s, run (step env₀ program) (init env₀) twice = some s ∧
      s.world.closes =
        [⟨0, .own, some .own⟩, ⟨5, .conn 0, some (.conn 0)⟩, ⟨5, .conn 1, some (.conn 1)⟩] ∧
      ∀ e ∈ s.world.posts, e.hit = some e.owner := by
  have h : (run (step env₀ program) (init env₀) twice).map (fun s => s.world.closes) =
      some [⟨0, .own, some .own⟩, ⟨5, .conn 0, some (.conn 0)⟩, ⟨5, .conn 1, some (.conn 1)⟩] := by
    decide +kernel
  obtain ⟨s, hr, hs⟩ := Option.map_eq_some_iff.mp h
  exact ⟨s, hr, hs,
    (close_discipline env₀ twice s rfl (by decide) (by decide +kernel) hr).2.2⟩

/-- The send to client 5 fails; its descriptor is given to another client, whose connection is then
    closed by the recv that was posted too late. -/
def late : List Act :=
  [.prog {}, .complete 0 0 [], .complete 0 5 [], .prog {}, .prog {}, .prog {}, .prog {}, .prog {},
    .complete 2 1 [97], .prog {}, .prog {}, .prog {}, .prog {},
    .complete 3 (-32) [], .prog {}, .prog {}, .prog {}, .prog {},
    .complete 2 5 [], .complete 2 (-9) [], .prog {}, .prog {}, .prog {}]

theorem recv_after_close :
    ∃ s, run (step env₀ program) (init env₀) late = some s ∧
      (∃ e ∈ s.world.posts, e.fd = 5 ∧ e.owner = .conn 0 ∧ e.hit = none) ∧
      s.world.closes = [⟨5, .conn 0, some (.conn 0)⟩, ⟨5, .conn 0, some (.conn 1)⟩] := by
  have h : (run (step env₀ program) (init env₀) late).map (fun s =>
      (decide (∃ e ∈ s.world.posts, e.fd = 5 ∧ e.owner = .conn 0 ∧ e.hit = none), s.world.closes)) =
      some (true, [⟨5, .conn 0, some (.conn 0)⟩, ⟨5, .conn 0, some (.conn 1)⟩]) := by
    decide +kernel
  obtain ⟨s, hr, hs⟩ := Option.map_eq_some_iff.mp h
  obtain ⟨hpost, hcloses⟩ := Prod.mk.inj hs
  exact ⟨s, hr, of_decide_eq_true hpost, hcloses⟩

end Normal

end KernelMagic.Socket
