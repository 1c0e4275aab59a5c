/-
  The three servers do not spin: `servers_never_spin`, with the one of `Server` beside the two that
  share the loop of `Socket`.
-/
import KernelMagic.Server.Settling
import KernelMagic.Socket.Normal
import KernelMagic.Socket.Uring

namespace KernelMagic.Socket

open KernelMagic.Lib

variable {env : Env} {p : Program} {R : Service} {s s' : State}

def Pc.phase : Pc → Phase
  | .submit => .submit
  | .peek => .wait
  | .loop => .serve
  | .fault => .stopped

def State.view (s : State) : EventLoop := ⟨s.pc.phase, s.i, s.cqecount, s.ring.cq.length⟩

/-- A completion is an arrival, a step of the program one of the loop. -/
def Act.kind : Act → Kind
  | .complete _ _ _ => .arrival
  | .prog a => .turn a.waitErr

theorem view_complete {i : Nat} {res : Int} {bs : List UInt8}
    (h : kernelStep env s i res bs = some s') : s'.view = s.view.arrive := by
  unfold kernelStep at h
  obtain ⟨q, -, h⟩ := Option.bind_eq_some_iff.mp h
  obtain ⟨⟨q', w⟩, -, rfl⟩ := Option.map_eq_some_iff.mp h
  simp only [State.view, EventLoop.arrive, List.length_append, List.length_singleton]

/-- A turn that does not crash leaves the batch as it is. -/
theorem loopStep_turn {I : Multiset (Req × Option Int) → World → Prop} (hp : Serves p R)
    {a : Answers} (hi : Inv I s) (hpc : s.pc = .loop) :
    EventLoop.Turn cqeLen a.waitErr s.view (loopStep p s a).view := by
  have hle := hi.window.le
  have hlen := hi.window.le_length
  unfold loopStep
  by_cases hlt : s.i < s.cqecount
  · have hx := List.getElem?_eq_getElem (show s.i < s.ring.cq.length by omega)
    have henc := hi.encoded
    rw [todo_head hx, Multiset.forall_mem_cons] at henc
    rw [if_pos hlt, hx, Option.bind_some]
    cases hh : handle p s s.ring.cq[s.i] a with
    | none =>
      simp only [State.view, hpc]
      exact .crashed _ _ _ hlt
    | some t =>
      obtain ⟨news, w, rfl, -⟩ := handle_cases hp henc.1 hh
      simp only [State.view, react, hpc]
      exact .served _ _ _ hlt
  · have hic : s.i = s.cqecount := by omega
    rw [if_neg hlt]
    simp only [State.view, hpc, hic, IoRing.advance, List.length_drop]
    exact .dropped _ _

theorem view_turn {I : Multiset (Req × Option Int) → World → Prop} (hp : Serves p R) {a : Answers}
    (hi : Inv I s) (h : progStep p s a = some s') :
    EventLoop.Turn cqeLen a.waitErr s.view s'.view := by
  unfold progStep at h
  cases hpc : s.pc with
  | submit =>
    simp only [hpc] at h
    obtain rfl := Option.some.inj h
    simp only [State.view, hpc, IoRing.cq_submit]
    exact .submitted _ _ _
  | peek =>
    simp only [hpc, peekStep] at h
    split at h
    · cases h
    · next hnot =>
      obtain rfl := Option.some.inj h
      simp only [State.view, hpc]
      refine .waited _ _ _ ?_
      cases hcq : s.ring.cq with
      | nil => simpa [hcq] using hnot
      | cons x l => exact .inl (Nat.succ_pos _)
  | loop =>
    simp only [hpc] at h
    obtain rfl := Option.some.inj h
    exact loopStep_turn hp hi hpc
  | fault =>
    simp only [hpc] at h
    cases h

theorem drives (hp : Serves p R) :
    Drives (step env p) (fun _ _ => True) (Inv fun _ _ => True) State.view Act.kind cqeLen where
  size_pos := by decide
  keeps s a s' hi _ h := by
    have hk : Keeps env R (fun _ _ => True) fun _ _ => True :=
      ⟨fun _ _ _ _ _ _ _ _ _ _ _ _ _ _ => trivial, fun _ _ _ _ _ _ _ _ _ _ _ _ => trivial⟩
    exact step_keeps hp hk s a s' hi trivial h
  arrival s a s' hi _ h hk := by
    cases a with
    | complete i res bs => exact view_complete h
    | prog a => cases hk
  turn s a s' early hi _ h hk := by
    cases a with
    | complete i res bs => cases hk
    | prog a =>
      cases hk
      exact view_turn hp hi h

theorem paced_run (hp : Serves p R) {acts : List Act}
    (hr : run (step env p) (init env) acts = some s) : Paced Act.kind acts := by
  have h0 : Inv (fun _ _ => True) (init env) := by
    refine ⟨⟨Nat.le_refl _, Nat.zero_le _, fun _ => rfl⟩, ?_, trivial⟩
    rw [todo_init]
    simp [Encoded, unprepared, acceptReq]
  refine (drives hp).paced h0 rfl ?_ hr
  exact along_of_forall (fun _ _ h => h) _ _ fun _ _ => trivial

/-- **No spinning.** In every run of each of the three servers, the program takes at most four steps for
    each completion, three for each wait that may return early, and the first submit. -/
theorem servers_never_spin (env' : Server.Env) (env : Env) :
    (∀ acts s, run (Server.step env') (Server.init env') acts = some s →
      Paced Server.Act.kind acts) ∧
    (∀ acts s, run (step env Normal.program) (init env) acts = some s → Paced Act.kind acts) ∧
    (∀ acts s, run (step env Uring.program) (init env) acts = some s → Paced Act.kind acts) :=
  ⟨fun _ _ hr => Server.paced_run hr, fun _ _ hr => paced_run Normal.serves hr,
    fun _ _ hr => paced_run Uring.serves hr⟩

/-- One client of the first server, until the loop waits again. -/
def oneByOne : List Server.Act := Server.oneClient ++ [.prog {}, .prog {}]

/-- The no-op, until the loop waits again. -/
def nopAlone : List Act := [.prog {}, .complete 0 0 [], .prog {}, .prog {}, .prog {}, .prog {}]

/-- Completions that come one at a time take all four steps. -/
theorem never_spin_oneByOne :
    (∃ s, run (Server.step Server.env₀) (Server.init Server.env₀) oneByOne = some s) ∧
      (∃ s, run (step env₀ Normal.program) (init env₀) nopAlone = some s) ∧
      oneByOne.countP (fun a => a.kind.isTurn) = 4 * 4 + 1 ∧
      nopAlone.countP (fun a => a.kind.isTurn) = 4 * 1 + 1 ∧
      Paced Server.Act.kind oneByOne ∧ Paced Act.kind nopAlone := by
  obtain ⟨s₁, h₁⟩ := Option.isSome_iff_exists.mp (show (run (Server.step Server.env₀)
    (Server.init Server.env₀) oneByOne).isSome = true by decide +kernel)
  obtain ⟨s₂, h₂⟩ := Option.isSome_iff_exists.mp (show (run (step env₀ Normal.program)
    (init env₀) nopAlone).isSome = true by decide +kernel)
  have h := servers_never_spin Server.env₀ env₀
  exact ⟨⟨s₁, h₁⟩, ⟨s₂, h₂⟩, by decide, by decide, h.1 _ s₁ h₁, h.2.1 _ s₂ h₂⟩

end KernelMagic.Socket
