/-
  Isolation of the connections. What the server does on a connection depends only on what the loop
  has seen of it: the results and bytes of its recvs, and the results of its sends (`Conn.view`). Two
  runs that agree on this agree on the sends that are posted, with length and payload, and on the
  close, whatever the other clients do, however completions are batched, and under whatever number
  and descriptor the connection goes in each run.

  In the invariant each run is compared with the same function of the view (`Seen.answer`), so that
  no relation between the states of the two runs is needed.
-/
import KernelMagic.Server.Invariant

namespace KernelMagic.Server

open KernelMagic.Lib

variable {env : Env} {s : State}

/-- What the loop is told by a completion. -/
inductive Seen where
  | received (res : Int) (bs : List UInt8)
  | sent (res : Int)
  deriving DecidableEq, Repr

def Ev.view : Ev → Seen
  | .recv res bs => .received res bs
  | .send res _ => .sent res

/-- What the loop has been told of the connection so far. -/
def Conn.view (k : Conn) : List Seen := k.seen.map Ev.view

def Seen.answer : Seen → List Out
  | .received res bs => if res ≤ 0 then [.close] else [.send res.toNat bs]
  | .sent res => if res ≤ 0 then [.close] else []

theorem answer_eq (e : Ev) : answer e = e.view.answer := by
  cases e <;> rfl

/-- The program has no other reason to act on a connection. -/
theorem Inv.out_eq (hi : Inv env s) (c : Nat) :
    (s.conns c).out = (s.conns c).view.flatMap Seen.answer := by
  rw [(hi.answered c).2, Conn.view, List.flatMap_map]
  exact List.flatMap_congr fun e _ => answer_eq e

/-- A piece of a list made of at most one element for each entry of another list. -/
theorem flatMap_split {α β : Type} {f : α → List β} (hf : ∀ e, (f e).length ≤ 1) {l : List α}
    {pre post : List β} {o : β} (h : l.flatMap f = pre ++ o :: post) :
    ∃ l₁ e l₂, l = l₁ ++ e :: l₂ ∧ l₁.flatMap f = pre ∧ f e = [o] := by
  induction l generalizing pre with
  | nil => simp at h
  | cons e l ih =>
    have hlen := hf e
    rw [List.flatMap_cons] at h
    match he : f e with
    | [] =>
      rw [he, List.nil_append] at h
      obtain ⟨l₁, e', l₂, rfl, hpre, ho⟩ := ih h
      refine ⟨e :: l₁, e', l₂, rfl, ?_, ho⟩
      rw [List.flatMap_cons, he, hpre]
      rfl
    | [b] =>
      rw [he] at h
      cases pre with
      | nil =>
        obtain ⟨rfl, -⟩ := List.cons.inj h
        exact ⟨[], e, l, rfl, rfl, he⟩
      | cons b' pre =>
        obtain ⟨rfl, h'⟩ := List.cons.inj h
        obtain ⟨l₁, e', l₂, rfl, hpre, ho⟩ := ih h'
        refine ⟨e :: l₁, e', l₂, rfl, ?_, ho⟩
        rw [List.flatMap_cons, he, hpre]
        rfl
    | _ :: _ :: _ =>
      rw [he] at hlen
      simp at hlen

theorem Seen.length_answer (v : Seen) : v.answer.length ≤ 1 := by
  unfold Seen.answer
  split <;> split <;> simp

/-- A send is posted when the completion of a recv has been processed, and only then: at that moment
    `l ++ [.received r bs]` is what the loop has been told. -/
theorem Inv.payload (hi : Inv env s) {c n : Nat} {bs : List UInt8} {pre post : List Out}
    (h : (s.conns c).out = pre ++ .send n bs :: post) :
    ∃ l r, l ++ [.received r bs] <+: (s.conns c).view ∧ l.flatMap Seen.answer = pre ∧
      n = r.toNat := by
  rw [hi.out_eq] at h
  obtain ⟨l, e, m, hl, hpre, he⟩ := flatMap_split Seen.length_answer h
  cases e with
  | received r b =>
    simp only [Seen.answer] at he
    split at he
    · cases he
    · cases he
      refine ⟨l, r, ⟨m, ?_⟩, hpre, rfl⟩
      rw [hl, List.append_assoc]
      rfl
  | sent r =>
    simp only [Seen.answer] at he
    split at he <;> cases he

theorem server_isolation (env₁ env₂ : Env) (acts₁ acts₂ : List Act) (s₁ s₂ : State) (c₁ c₂ : Nat)
    (hr₁ : run (step env₁) (init env₁) acts₁ = some s₁)
    (hr₂ : run (step env₂) (init env₂) acts₂ = some s₂)
    (hv : (s₁.conns c₁).view = (s₂.conns c₂).view) :
    (s₁.conns c₁).out = (s₂.conns c₂).out ∧
      ∀ pre n bs post, (s₁.conns c₁).out = pre ++ .send n bs :: post →
        ∃ l r, l ++ [.received r bs] <+: (s₁.conns c₁).view ∧ l.flatMap Seen.answer = pre ∧
          n = r.toNat := by
  have h₁ := inv_run hr₁
  have h₂ := inv_run hr₂
  refine ⟨?_, fun pre n bs post h => h₁.payload h⟩
  rw [h₁.out_eq, h₂.out_eq, hv]

/-- One client sends two bytes and hangs up. -/
def alone : List Act :=
  [.prog {}, .complete 1 5 [], .prog {}, .prog {}, .prog {}, .prog {},
    .complete 1 2 [97, 98], .prog {}, .prog {}, .prog {}, .prog {},
    .complete 2 2 [], .prog {}, .prog {}, .prog {}, .prog {},
    .complete 2 0 [], .prog {}, .prog {}]

/-- The same client after another one, whose message is in the same batches. -/
def second : List Act :=
  [.prog {}, .complete 1 5 [], .prog {}, .prog {}, .prog {}, .prog {},
    .complete 2 7 [], .prog {}, .prog {}, .prog {}, .prog {},
    .complete 1 3 [1, 2, 3], .complete 1 2 [97, 98], .prog {}, .prog {}, .prog {}, .prog {}, .prog {},
    .complete 3 2 [], .complete 2 1 [], .prog {}, .prog {}, .prog {}, .prog {}, .prog {},
    .complete 2 0 [], .prog {}, .prog {}]

theorem server_isolation_second :
    ∃ s₁ s₂, run (step env₀) (init env₀) alone = some s₁ ∧
      run (step env₀) (init env₀) second = some s₂ ∧
      (s₁.conns 0).out = [.send 2 [97, 98], .close] ∧ (s₁.conns 0).out = (s₂.conns 1).out := by
  have h₁ : (run (step env₀) (init env₀) alone).map
      (fun s => ((s.conns 0).view, (s.conns 0).out)) =
        some ([.received 2 [97, 98], .sent 2, .received 0 []], [.send 2 [97, 98], .close]) := by
    decide +kernel
  have h₂ : (run (step env₀) (init env₀) second).map (fun s => (s.conns 1).view) =
      some [.received 2 [97, 98], .sent 2, .received 0 []] := by
    decide +kernel
  obtain ⟨s₁, hr₁, hs₁⟩ := Option.map_eq_some_iff.mp h₁
  obtain ⟨s₂, hr₂, hv₂⟩ := Option.map_eq_some_iff.mp h₂
  obtain ⟨hv₁, ho₁⟩ := Prod.mk.inj hs₁
  exact ⟨s₁, s₂, hr₁, hr₂, ho₁,
    (server_isolation env₀ env₀ alone second s₁ s₂ 0 1 hr₁ hr₂ (hv₁.trans hv₂.symm)).1⟩

end KernelMagic.Server
