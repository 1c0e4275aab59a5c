/-
  A function that a module has the kernel run later, on another thread: a work item, a tasklet, a
  thread. It is pending from the time it is queued until it starts, and not run twice at once. `body` is
  the list of its steps.

  The module runs at the same time. `code k e j m` is its next step at `k`, with the answer `e` of its
  environment: where it is then, what it does to the function and the memory after it, `none` when it
  has to wait. A cancel takes a pending function off its queue and does not touch a running one.

  Three rules reduce runs of the two to single steps of `code`:
  * `Quiet`: a module that takes the function off its queue, or finds it not pending, then finds it not
    running, and does not queue it after that, has stopped it for good.
  * `Once`: a function that is queued once runs at most once, and `own`, which only the function
    changes, has seen of its body what is behind it; it has not run only if it has been cancelled.
  * `left_lt`: every step is progress, if every step of the module is.
-/
import KernelMagic.Lib.Machine

namespace KernelMagic.Lib

variable {β ε κ σ ρ : Type}

/-- `rest` are the steps that are left of the run under way. -/
structure Job (β : Type) where
  pending : Bool := false
  rest : Option (List β) := none
  deriving DecidableEq

namespace Job

/-- Neither pending nor running. -/
def idle : Job β := {}

/-- What a step of a module does to the function. -/
inductive Op where
  | keep
  | queue
  | cancel
  deriving DecidableEq

def apply (j : Job β) : Op → Job β
  | .keep => j
  | .queue => { j with pending := true }
  | .cancel => { j with pending := false }

/-- The steps that are left, the start and the return among them. -/
def left (body : List β) (j : Job β) : Nat :=
  (if j.pending then body.length + 2 else 0) +
    match j.rest with
    | none => 0
    | some l => l.length + 1

theorem left_apply (body : List β) (j : Job β) (op : Op) :
    (j.apply op).left body ≤ j.left body + if op = .queue then body.length + 2 else 0 := by
  obtain ⟨p, r⟩ := j
  cases op with
  | keep => exact Nat.le_refl _
  | queue =>
    simp only [left, apply, if_true]
    split <;> omega
  | cancel => simp [left, apply]

theorem eq_idle {j : Job β} (hp : j.pending = false) (hr : j.rest = none) : j = idle := by
  obtain ⟨p, r⟩ := j
  cases hp
  cases hr
  rfl

end Job

/-- The function, the module and the memory. -/
structure Deferred (β κ σ : Type) where
  job : Job β
  module : κ
  mem : σ
  deriving DecidableEq

/-- Who takes the next step. -/
inductive Party (ε : Type) where
  | job
  | module (e : ε)
  deriving DecidableEq

namespace Deferred

/-- The start, a step or the return of the function. -/
def jobStep (act : β → σ → σ) (body : List β) (s : Deferred β κ σ) : Option (Deferred β κ σ) :=
  match s.job.rest with
  | none => if s.job.pending then some { s with job := ⟨false, some body⟩ } else none
  | some (b :: l) => some { s with job := { s.job with rest := some l }, mem := act b s.mem }
  | some [] => some { s with job := { s.job with rest := none } }

def moduleStep (code : κ → ε → Job β → σ → Option (κ × Job.Op × σ)) (e : ε)
    (s : Deferred β κ σ) : Option (Deferred β κ σ) :=
  (code s.module e s.job s.mem).map fun r => ⟨s.job.apply r.2.1, r.1, r.2.2⟩

def step (act : β → σ → σ) (body : List β)
    (code : κ → ε → Job β → σ → Option (κ × Job.Op × σ)) (s : Deferred β κ σ) :
    Party ε → Option (Deferred β κ σ)
  | .job => jobStep act body s
  | .module e => moduleStep code e s

variable {act : β → σ → σ} {body : List β} {s s' : Deferred β κ σ}
  {code : κ → ε → Job β → σ → Option (κ × Job.Op × σ)} {e : ε} {a : Party ε}

theorem jobStep_cases (h : jobStep act body s = some s') :
    (s.job = ⟨true, none⟩ ∧ s' = { s with job := ⟨false, some body⟩ }) ∨
      (∃ b l, s.job.rest = some (b :: l) ∧
        s' = { s with job := { s.job with rest := some l }, mem := act b s.mem }) ∨
      (s.job.rest = some [] ∧ s' = { s with job := { s.job with rest := none } }) := by
  obtain ⟨⟨p, r⟩, k, m⟩ := s
  match r, p with
  | none, true => exact .inl ⟨rfl, (Option.some.inj h).symm⟩
  | none, false => cases h
  | some (b :: l), p => exact .inr (.inl ⟨b, l, rfl, (Option.some.inj h).symm⟩)
  | some [], p => exact .inr (.inr ⟨rfl, (Option.some.inj h).symm⟩)

theorem moduleStep_cases (h : moduleStep code e s = some s') :
    ∃ k' op m', code s.module e s.job s.mem = some (k', op, m') ∧ s' = ⟨s.job.apply op, k', m'⟩ := by
  obtain ⟨⟨k', op, m'⟩, hc, rfl⟩ := Option.map_eq_some_iff.mp h
  exact ⟨k', op, m', hc, rfl⟩

/-- A function that is pending or running can go on. -/
theorem exists_jobStep (h : s.job ≠ .idle) : ∃ s', jobStep act body s = some s' := by
  obtain ⟨⟨p, r⟩, k, m⟩ := s
  match r, p with
  | none, true => exact ⟨_, rfl⟩
  | none, false => exact absurd rfl h
  | some (_ :: _), _ => exact ⟨_, rfl⟩
  | some [], _ => exact ⟨_, rfl⟩

/-- An idle function takes no step. -/
theorem jobStep_idle (h : s.job = .idle) : jobStep act body s = none := by
  obtain ⟨j, k, m⟩ := s
  cases h
  rfl

/-! ## A function that is stopped -/

/-- At the places with `taken` the module has seen to it that the function is not pending, at those with
    `after` that it is not running either, and it does not queue it there. -/
structure Quiet (code : κ → ε → Job β → σ → Option (κ × Job.Op × σ)) (taken after : κ → Prop) :
    Prop where
  take : ∀ k e j m k' op m', code k e j m = some (k', op, m') → taken k' →
    op = .cancel ∨ op = .keep ∧ (taken k ∨ j.pending = false)
  wait : ∀ k e j m k' op m', code k e j m = some (k', op, m') → after k' →
    taken k' ∧ (after k ∨ j.rest = none)

/-- What the rule keeps. -/
structure Quiet.Inv (taken after : κ → Prop) (s : Deferred β κ σ) : Prop where
  take : taken s.module → s.job.pending = false
  wait : after s.module → s.job = .idle

theorem Quiet.Inv.of_idle {taken after : κ → Prop} (h : s.job = .idle) : Quiet.Inv taken after s :=
  ⟨fun _ => congrArg Job.pending h, fun _ => h⟩

theorem Quiet.step {taken after : κ → Prop} (hq : Quiet code taken after)
    (hi : Quiet.Inv taken after s) (h : step act body code s a = some s') :
    Quiet.Inv taken after s' := by
  obtain ⟨htake, hwait⟩ := hi
  match a with
  | .job =>
    have hnot : ¬ after s.module := by
      intro hafter
      rw [Deferred.step, jobStep_idle (hwait hafter)] at h
      cases h
    rcases jobStep_cases h with ⟨hj, rfl⟩ | ⟨b, l, hj, rfl⟩ | ⟨hj, rfl⟩
    · exact ⟨fun _ => rfl, fun hafter => absurd hafter hnot⟩
    · exact ⟨htake, fun hafter => absurd hafter hnot⟩
    · exact ⟨htake, fun hafter => absurd hafter hnot⟩
  | .module e =>
    obtain ⟨k', op, m', hc, rfl⟩ := moduleStep_cases h
    have hpending : taken k' → (s.job.apply op).pending = false := by
      intro ht
      rcases hq.take _ _ _ _ _ _ _ hc ht with rfl | ⟨rfl, hk | hp⟩
      · rfl
      · exact htake hk
      · exact hp
    refine ⟨hpending, fun hafter => ?_⟩
    obtain ⟨ht, hk⟩ := hq.wait _ _ _ _ _ _ _ hc hafter
    refine Job.eq_idle (hpending ht) ?_
    have hrest : s.job.rest = none := by
      rcases hk with hk | hr
      · rw [hwait hk]
        rfl
      · exact hr
    rw [← hrest]
    cases op <;> rfl

/-! ## A function that is queued once -/

/-- What is left of the function when it has come from `r0` to `r`; `skipped` says that it may never
    have run. -/
structure Progress (act' : β → ρ → ρ) (body : List β) (r0 : ρ) (skipped : Prop) (j : Job β)
    (r : ρ) : Prop where
  pending : j.pending = true → j.rest = none ∧ r = r0
  running : ∀ l, j.rest = some l → ∃ l₀, body = l₀ ++ l ∧ r = l₀.foldl (fun r b => act' b r) r0
  done : j = .idle → skipped ∧ r = r0 ∨ r = body.foldl (fun r b => act' b r) r0

/-- The module queues the function at most once, at a place with `may`; behind the places with
    `skipped` it may have cancelled it. It does not change `own`. -/
structure Once (code : κ → ε → Job β → σ → Option (κ × Job.Op × σ)) (own : σ → ρ)
    (may skipped : κ → Prop) : Prop where
  own_eq : ∀ k e j m k' op m', code k e j m = some (k', op, m') → own m' = own m
  before : ∀ k e j m k' op m', code k e j m = some (k', op, m') → may k' → may k ∧ op ≠ .queue
  queue : ∀ k e j m k' op m', code k e j m = some (k', op, m') → op = .queue → may k
  skip : ∀ k e j m k' op m', code k e j m = some (k', op, m') → op ≠ .queue →
    skipped k ∨ op = .cancel → skipped k'

/-- What the rule keeps. -/
structure Once.Inv (act' : β → ρ → ρ) (body : List β) (own : σ → ρ) (r0 : ρ)
    (may skipped : κ → Prop) (s : Deferred β κ σ) : Prop where
  before : may s.module → s.job = .idle ∧ own s.mem = r0
  progress : Progress act' body r0 (skipped s.module) s.job (own s.mem)

section Rule

variable {own : σ → ρ} {act' : β → ρ → ρ} {r0 : ρ} {may skipped : κ → Prop}

/-- At every moment a first part of the body is done. -/
theorem Progress.exists_prefix {skipped : Prop} {j : Job β} {r : ρ}
    (h : Progress act' body r0 skipped j r) :
    ∃ l₀, l₀ <+: body ∧ r = l₀.foldl (fun r b => act' b r) r0 := by
  cases hp : j.pending with
  | true => exact ⟨[], List.nil_prefix, (h.pending hp).2⟩
  | false =>
    cases hr : j.rest with
    | some l =>
      obtain ⟨l₀, hbody, hown⟩ := h.running l hr
      exact ⟨l₀, ⟨l, hbody.symm⟩, hown⟩
    | none =>
      rcases h.done (Job.eq_idle hp hr) with ⟨-, hown⟩ | hown
      · exact ⟨[], List.nil_prefix, hown⟩
      · exact ⟨body, List.prefix_rfl, hown⟩

theorem Once.Inv.of_idle (h : s.job = .idle) (hr : own s.mem = r0) (hs : skipped s.module) :
    Once.Inv act' body own r0 may skipped s := by
  refine ⟨fun _ => ⟨h, hr⟩, ?_⟩
  rw [h]
  exact ⟨by simp [Job.idle], by simp [Job.idle], fun _ => .inl ⟨hs, hr⟩⟩

/-- A function that takes a step has been queued, and goes on in its body. -/
theorem Once.jobStep (hact : ∀ b m, own (act b m) = act' b (own m))
    (hi : Once.Inv act' body own r0 may skipped s) (h : jobStep act body s = some s') :
    Once.Inv act' body own r0 may skipped s' := by
  obtain ⟨hbefore, hpending, hrunning, hdone⟩ := hi
  have hmay : ¬ may s.module := by
    intro hm
    rw [jobStep_idle (hbefore hm).1] at h
    cases h
  rcases jobStep_cases h with ⟨hj, rfl⟩ | ⟨b, l, hj, rfl⟩ | ⟨hj, rfl⟩
  · refine ⟨fun hm => absurd hm hmay, ⟨by simp, ?_, by simp [Job.idle]⟩⟩
    intro l hl
    cases hl
    exact ⟨[], rfl, (hpending (by rw [hj])).2⟩
  · refine ⟨fun hm => absurd hm hmay, ⟨fun hp => ?_, ?_, by simp [Job.idle]⟩⟩
    · rw [(hpending hp).1] at hj
      cases hj
    · intro l' hl'
      obtain rfl := Option.some.inj hl'
      obtain ⟨l₀, hbody, hr⟩ := hrunning _ hj
      refine ⟨l₀ ++ [b], by rw [hbody, List.append_assoc]; rfl, ?_⟩
      rw [hact, hr, List.foldl_append, List.foldl_cons, List.foldl_nil]
  · refine ⟨fun hm => absurd hm hmay, ⟨fun hp => ⟨rfl, (hpending hp).2⟩, by simp, fun _ => ?_⟩⟩
    obtain ⟨l₀, hbody, hr⟩ := hrunning _ hj
    rw [List.append_nil] at hbody
    exact .inr (hbody ▸ hr)

theorem Once.moduleStep (ho : Once code own may skipped)
    (hi : Once.Inv act' body own r0 may skipped s) (h : moduleStep code e s = some s') :
    Once.Inv act' body own r0 may skipped s' := by
  obtain ⟨hbefore, hpending, hrunning, hdone⟩ := hi
  obtain ⟨k', op, m', hc, rfl⟩ := moduleStep_cases h
  have hown := ho.own_eq _ _ _ _ _ _ _ hc
  have hb := ho.before _ _ _ _ _ _ _ hc
  have hskip := ho.skip _ _ _ _ _ _ _ hc
  have hrun : ∀ l, s.job.rest = some l →
      ∃ l₀, body = l₀ ++ l ∧ own m' = l₀.foldl (fun r b => act' b r) r0 := by
    intro l hl
    obtain ⟨l₀, hbody, hr⟩ := hrunning l hl
    exact ⟨l₀, hbody, hown.trans hr⟩
  match op with
  | .keep =>
    refine ⟨fun hm => ⟨(hbefore (hb hm).1).1, hown.trans (hbefore (hb hm).1).2⟩, ⟨?_, hrun, ?_⟩⟩
    · exact fun hp => ⟨(hpending hp).1, hown.trans (hpending hp).2⟩
    · intro hd
      rcases hdone hd with ⟨hs, hr⟩ | hr
      · exact .inl ⟨hskip (by decide) (.inl hs), hown.trans hr⟩
      · exact .inr (hown.trans hr)
  | .queue =>
    obtain ⟨hidle, hr⟩ := hbefore (ho.queue _ _ _ _ _ _ _ hc rfl)
    refine ⟨fun hm' => absurd rfl (hb hm').2, ?_⟩
    rw [show s.job.apply .queue = ⟨true, none⟩ by rw [hidle]; rfl]
    exact ⟨fun _ => ⟨rfl, hown.trans hr⟩, by simp, by simp [Job.idle]⟩
  | .cancel =>
    refine ⟨fun hm => ⟨?_, hown.trans (hbefore (hb hm).1).2⟩,
      ⟨by simp [Job.apply], hrun, fun hd => ?_⟩⟩
    · show s.job.apply .cancel = .idle
      rw [(hbefore (hb hm).1).1]
      rfl
    · have hrest : s.job.rest = none := congrArg Job.rest hd
      cases hp : s.job.pending with
      | true => exact .inl ⟨hskip (by decide) (.inr rfl), hown.trans (hpending hp).2⟩
      | false =>
        rcases hdone (Job.eq_idle hp hrest) with ⟨hs, hr⟩ | hr
        · exact .inl ⟨hskip (by decide) (.inl hs), hown.trans hr⟩
        · exact .inr (hown.trans hr)

theorem Once.step (ho : Once code own may skipped) (hact : ∀ b m, own (act b m) = act' b (own m))
    (hi : Once.Inv act' body own r0 may skipped s) (h : step act body code s a = some s') :
    Once.Inv act' body own r0 may skipped s' := by
  match a with
  | .job => exact Once.jobStep hact hi h
  | .module e => exact ho.moduleStep hi h

end Rule

/-! ## Progress -/

/-- The steps that are left of both. -/
def left (body : List β) (μ : κ → Nat) (s : Deferred β κ σ) : Nat :=
  s.job.left body + μ s.module

/-- A module whose measure goes down, by more than a run of the function when it queues it. -/
theorem left_lt {μ : κ → Nat}
    (hμ : ∀ k e j m k' op m', code k e j m = some (k', op, m') →
      μ k' + (if op = .queue then body.length + 2 else 0) < μ k)
    (h : step act body code s a = some s') : left body μ s' < left body μ s := by
  match a with
  | .job =>
    rcases jobStep_cases h with ⟨hj, rfl⟩ | ⟨b, l, hj, rfl⟩ | ⟨hj, rfl⟩
    · simp [left, Job.left, hj]
    · simp [left, Job.left, hj]
    · simp [left, Job.left, hj]
  | .module e =>
    obtain ⟨k', op, m', hc, rfl⟩ := moduleStep_cases h
    have hlt := hμ _ _ _ _ _ _ _ hc
    have hle := Job.left_apply body s.job op
    simp only [left]
    omega

end Deferred

end KernelMagic.Lib
