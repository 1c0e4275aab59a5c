/-
  `netdev_demo.c`: a virtual network device that passes what it is to send on to a real one, and that
  receives frames of its own making.

  The network core opens and closes the device, hands it packets while its queue is started, and polls
  it while its NAPI context is scheduled; a `step` is one of these calls. It does not open a device
  that is open, and `unregister_netdev` closes one that is. `napi_disable` waits until the context is off
  the schedule. The environment answers whether an allocation, the registration and the search for the
  real device succeed.

  `next` counts the packets handed to `demo_xmit`, and `freed` and `sent` are what became of them. No
  function of the module looks at these, nor at `received`, which are the frames given to the stack.
-/
import KernelMagic.Lib.History

namespace KernelMagic.Netdev

open KernelMagic.Lib

/-- `ENOMEM` and `ENODEV`. -/
def enomem : Int := 12

def enodev : Int := 19

/-- The bytes of a packet after `skb_put(skb, 64)`. -/
abbrev Frame : Type := List.Vector UInt8 64

/-- `vnet_dev` counts the net devices that are allocated, `real_dev` the references to the real one.
    `enabled`, `scheduled` and `missed` are the bits of the NAPI context. -/
structure State where
  loaded : Bool := false
  vnetDev : Nat := 0
  up : Bool := false
  queue : Bool := false
  enabled : Bool := false
  scheduled : Bool := false
  missed : Bool := false
  realDev : Nat := 0
  next : Nat := 0
  freed : List Nat := []
  sent : List Nat := []
  received : List Frame := []
  deriving DecidableEq

/-! ## NAPI -/

/-- `napi_schedule`: no effect on a context that is not enabled, and on one that is on the schedule it
    leaves a mark that it has been called. -/
def napiSchedule (s : State) : State :=
  if s.enabled then { s with scheduled := true, missed := s.missed || s.scheduled } else s

/-- `napi_complete_done`: off the schedule, but with the mark it stays for one more poll. -/
def napiCompleteDone (s : State) : State := { s with scheduled := s.missed, missed := false }

def napiDisable (s : State) : State :=
  { s with enabled := false, scheduled := false, missed := false }

/-! ## The module -/

/-- `demo_xmit` of packet `skb`; `found` is whether the real device is there. -/
def demoXmit (s : State) (skb : Nat) (found : Bool) : State :=
  if found then { s with realDev := s.realDev + 1, sent := s.sent ++ [skb] }
  else { s with freed := s.freed ++ [skb] }

/-- The Ethernet header: `h_dest`, `h_source` and `h_proto`. -/
def header : List UInt8 := List.replicate 6 0xff ++ List.replicate 6 0 ++ [0x08, 0x00]

/-- A packet with what its memory held before, and the header in front of it. -/
def fill (junk : Frame) : Frame :=
  ⟨header ++ junk.1.drop 14, by simp [header, junk.2]⟩

/-- The `while` loop of `demo_napi_poll` with `left` turns to go; each allocation gives memory or
    fails, and fails when the list is at its end. -/
def pollLoop : Nat → List (Option Frame) → List Frame
  | 0, _ => []
  | _ + 1, [] => []
  | _ + 1, none :: _ => []
  | left + 1, some junk :: skbs => fill junk :: pollLoop left skbs

/-- `demo_napi_poll`: the state and what it returns. -/
def demoNapiPoll (s : State) (budget : Nat) (skbs : List (Option Frame)) : State × Nat :=
  let frames := pollLoop budget skbs
  let s' := { s with received := s.received ++ frames }
  if frames.length < budget then (napiCompleteDone s', frames.length) else (s', frames.length)

/-- `demo_napi_trigger`. -/
def demoNapiTrigger (s : State) : State := napiSchedule s

def demoOpen (s : State) : State := demoNapiTrigger { s with queue := true, enabled := true }

def demoStop (s : State) : State := napiDisable { s with queue := false }

/-- `vnet_init`: the state and what it returns. -/
def vnetInit (s : State) (alloc register : Bool) : State × Int :=
  if alloc then
    let s' := { s with vnetDev := s.vnetDev + 1 }
    if register then ({ s' with loaded := true }, 0)
    else ({ s' with vnetDev := s'.vnetDev - 1 }, -enodev)
  else (s, -enomem)

/-- `unregister_netdev` closes the device. -/
def unregisterNetdev (s : State) : State := if s.up then { demoStop s with up := false } else s

/-- `vnet_exit`. -/
def vnetExit (s : State) : State :=
  let s' := unregisterNetdev s
  { s' with vnetDev := s'.vnetDev - 1, loaded := false }

/-! ## The network core -/

inductive Act where
  | insmod (alloc register : Bool)
  | rmmod
  | ifup
  | ifdown
  | xmit (found : Bool)
  | trigger
  | poll (budget : Nat) (skbs : List (Option Frame))
  deriving DecidableEq

def step (s : State) : Act → Option State
  | .insmod alloc register => if s.loaded then none else some (vnetInit s alloc register).1
  | .rmmod => if s.loaded then some (vnetExit s) else none
  | .ifup => if s.loaded && !s.up then some { demoOpen s with up := true } else none
  | .ifdown => if s.up then some { demoStop s with up := false } else none
  | .xmit found =>
    if s.up && s.queue then some { demoXmit s s.next found with next := s.next + 1 } else none
  | .trigger => if s.up then some (demoNapiTrigger s) else none
  | .poll budget skbs =>
    if s.enabled && s.scheduled then some (demoNapiPoll s budget skbs).1 else none

/-! ## Polling -/

variable {s s' : State} {a : Act} {budget : Nat} {skbs : List (Option Frame)}

theorem length_pollLoop_le (budget : Nat) (skbs : List (Option Frame)) :
    (pollLoop budget skbs).length ≤ budget := by
  fun_induction pollLoop budget skbs with
  | case1 => exact Nat.le_refl 0
  | case2 => exact Nat.zero_le _
  | case3 => exact Nat.zero_le _
  | case4 left junk skbs ih => exact Nat.succ_le_succ ih

theorem header_pollLoop (budget : Nat) (skbs : List (Option Frame)) :
    ∀ f ∈ pollLoop budget skbs, f.1.take 14 = header := by
  fun_induction pollLoop budget skbs with
  | case1 => exact fun f hf => absurd hf List.not_mem_nil
  | case2 => exact fun f hf => absurd hf List.not_mem_nil
  | case3 => exact fun f hf => absurd hf List.not_mem_nil
  | case4 left junk skbs ih =>
    rw [List.forall_mem_cons]
    exact ⟨List.take_left' rfl, ih⟩

/-- Every allocation of the poll succeeds. -/
def Served (budget : Nat) (skbs : List (Option Frame)) : Prop :=
  budget ≤ skbs.length ∧ none ∉ skbs.take budget

instance (budget : Nat) (skbs : List (Option Frame)) : Decidable (Served budget skbs) :=
  inferInstanceAs (Decidable (_ ∧ _))

theorem length_pollLoop_eq_iff (budget : Nat) (skbs : List (Option Frame)) :
    (pollLoop budget skbs).length = budget ↔ Served budget skbs := by
  unfold Served
  fun_induction pollLoop budget skbs with
  | case1 => simp
  | case2 => simp
  | case3 => simp
  | case4 left junk skbs ih =>
    simp only [Nat.succ_eq_add_one, List.length_cons, Nat.add_right_cancel_iff, ih,
      Nat.add_le_add_iff_right, List.take_succ_cons, List.mem_cons, reduceCtorEq, false_or]

/-- What `demo_napi_poll` does: it says that it is done exactly when it returns less than its budget,
    which is when an allocation fails. -/
theorem demoNapiPoll_spec (s : State) (budget : Nat) (skbs : List (Option Frame)) :
    ∃ frames : List Frame, frames.length ≤ budget ∧ (∀ f ∈ frames, f.1.take 14 = header) ∧
      (frames.length = budget ↔ Served budget skbs) ∧
      demoNapiPoll s budget skbs = ({ s with
        received := s.received ++ frames
        scheduled := if Served budget skbs then s.scheduled else s.missed
        missed := s.missed && decide (Served budget skbs) }, frames.length) := by
  refine ⟨pollLoop budget skbs, length_pollLoop_le budget skbs, header_pollLoop budget skbs,
    length_pollLoop_eq_iff budget skbs, ?_⟩
  have hiff := length_pollLoop_eq_iff budget skbs
  have hle := length_pollLoop_le budget skbs
  unfold demoNapiPoll
  by_cases hs : Served budget skbs
  · have hlen := hiff.mpr hs
    simp only [hlen, Nat.lt_irrefl, if_false, hs, if_true, decide_true, Bool.and_true]
  · have hne : (pollLoop budget skbs).length ≠ budget := fun h => hs (hiff.mp h)
    have hlt : (pollLoop budget skbs).length < budget := by omega
    simp only [hlt, if_true, napiCompleteDone, hs, if_false, decide_false, Bool.and_false]

/-! ## Accounts -/

/-- What every state of a run has. -/
structure Inv (s : State) : Prop where
  consumed : ∀ skb, (s.freed ++ s.sent).count skb = if skb < s.next then 1 else 0
  realDev : s.realDev = s.sent.length
  vnetDev : s.vnetDev = if s.loaded then 1 else 0
  header : ∀ f ∈ s.received, f.1.take 14 = header
  up : s.up = true → s.loaded = true ∧ s.queue = true ∧ s.enabled = true
  down : s.up = false →
    s.queue = false ∧ s.enabled = false ∧ s.scheduled = false ∧ s.missed = false

theorem inv_start : Inv {} where
  consumed := fun _ => rfl
  realDev := rfl
  vnetDev := rfl
  header := fun _ hf => absurd hf List.not_mem_nil
  up := fun h => absurd h (by decide)
  down := fun _ => ⟨rfl, rfl, rfl, rfl⟩

/-- A packet is freed or sent, and not both. -/
theorem Inv.xmit (hi : Inv s) (found : Bool) :
    Inv { demoXmit s s.next found with next := s.next + 1 } := by
  have hcount (skb : Nat) : (s.freed ++ s.sent).count skb + (if s.next = skb then 1 else 0) =
      if skb < s.next + 1 then 1 else 0 := by
    rw [hi.consumed]
    split <;> split <;> split <;> omega
  cases found with
  | true =>
    refine ⟨fun skb => ?_, ?_, hi.vnetDev, hi.header, hi.up, hi.down⟩
    · show (s.freed ++ (s.sent ++ [s.next])).count skb = _
      rw [← hcount skb, ← List.append_assoc, List.count_append, List.count_singleton]
      simp only [beq_iff_eq]
    · show s.realDev + 1 = (s.sent ++ [s.next]).length
      rw [hi.realDev, List.length_append, List.length_singleton]
  | false =>
    refine ⟨fun skb => ?_, hi.realDev, hi.vnetDev, hi.header, hi.up, hi.down⟩
    show ((s.freed ++ [s.next]) ++ s.sent).count skb = _
    rw [← hcount skb, List.count_append, List.count_append, List.count_append,
      List.count_singleton]
    simp only [beq_iff_eq]
    omega

theorem Inv.poll (hi : Inv s) (budget : Nat) (skbs : List (Option Frame)) :
    Inv (demoNapiPoll s budget skbs).1 := by
  obtain ⟨frames, -, hheader, -, heq⟩ := demoNapiPoll_spec s budget skbs
  rw [heq]
  refine ⟨hi.consumed, hi.realDev, hi.vnetDev, fun f hf => ?_, hi.up, fun hd => ?_⟩
  · rcases List.mem_append.mp hf with hf | hf
    · exact hi.header f hf
    · exact hheader f hf
  · obtain ⟨hq, he, hs, hm⟩ := hi.down hd
    refine ⟨hq, he, ?_, ?_⟩
    · show (if Served budget skbs then s.scheduled else s.missed) = false
      rw [hs, hm, ite_self]
    · show (s.missed && _) = false
      rw [hm, Bool.false_and]

theorem Inv.step (hi : Inv s) (hs : step s a = some s') : Inv s' := by
  match a with
  | .insmod alloc register =>
    simp only [Netdev.step] at hs
    split at hs
    · cases hs
    · next hl =>
      obtain rfl := Option.some.inj hs
      have hv := hi.vnetDev
      rw [if_neg hl] at hv
      have hd : s.up = false := by
        by_contra hup
        exact hl (hi.up (by simpa using hup)).1
      match alloc, register with
      | true, true =>
        refine ⟨hi.consumed, hi.realDev, ?_, hi.header, fun h => ?_, hi.down⟩
        · show s.vnetDev + 1 = 1
          rw [hv]
        · exact absurd (hd.symm.trans h) (by decide)
      | true, false =>
        refine ⟨hi.consumed, hi.realDev, ?_, hi.header, hi.up, hi.down⟩
        show s.vnetDev + 1 - 1 = _
        rw [Nat.add_sub_cancel]
        exact hi.vnetDev
      | false, _ => exact hi
  | .rmmod =>
    simp only [Netdev.step] at hs
    split at hs
    · next hl =>
      obtain rfl := Option.some.inj hs
      have hv : s.vnetDev = 1 := by rw [hi.vnetDev, if_pos hl]
      unfold vnetExit unregisterNetdev
      cases hup : s.up with
      | true =>
        refine ⟨hi.consumed, hi.realDev, ?_, hi.header, fun h => absurd h (by simp),
          fun _ => ⟨rfl, rfl, rfl, rfl⟩⟩
        show s.vnetDev - 1 = 0
        rw [hv]
      | false =>
        refine ⟨hi.consumed, hi.realDev, ?_, hi.header, fun h => ?_, fun _ => hi.down hup⟩
        · show s.vnetDev - 1 = 0
          rw [hv]
        · exact absurd (hup.symm.trans h) (by decide)
    · cases hs
  | .ifup =>
    simp only [Netdev.step] at hs
    split at hs
    · next h =>
      obtain rfl := Option.some.inj hs
      rw [Bool.and_eq_true] at h
      exact ⟨hi.consumed, hi.realDev, hi.vnetDev, hi.header, fun _ => ⟨h.1, rfl, rfl⟩,
        fun hd => absurd hd (by simp)⟩
    · cases hs
  | .ifdown =>
    simp only [Netdev.step] at hs
    split at hs
    · obtain rfl := Option.some.inj hs
      exact ⟨hi.consumed, hi.realDev, hi.vnetDev, hi.header, fun h => absurd h (by simp),
        fun _ => ⟨rfl, rfl, rfl, rfl⟩⟩
    · cases hs
  | .xmit found =>
    simp only [Netdev.step] at hs
    split at hs
    · obtain rfl := Option.some.inj hs
      exact hi.xmit found
    · cases hs
  | .trigger =>
    simp only [Netdev.step] at hs
    split at hs
    · next hup =>
      obtain rfl := Option.some.inj hs
      unfold demoNapiTrigger napiSchedule
      rw [if_pos (hi.up hup).2.2]
      refine ⟨hi.consumed, hi.realDev, hi.vnetDev, hi.header, hi.up, fun hd => ?_⟩
      exact absurd (hup.symm.trans hd) (by decide)
    · cases hs
  | .poll budget skbs =>
    simp only [Netdev.step] at hs
    split at hs
    · obtain rfl := Option.some.inj hs
      exact hi.poll budget skbs
    · cases hs

/-- **Accounts.** In every state of every run: each packet handed to `demo_xmit` has been consumed exactly
    once, by freeing it or by sending it; the real device has one more reference for each packet sent,
    and never one less; each frame received starts with the broadcast header; there is one net device
    while the module is loaded and none otherwise; and the queue and NAPI are on exactly while the
    device is up. -/
theorem netdev_accounts (as : List Act) (s : State) (hr : run step {} as = some s) :
    (∀ skb, (s.freed ++ s.sent).count skb = if skb < s.next then 1 else 0) ∧
      s.realDev = s.sent.length ∧ (∀ f ∈ s.received, f.1.take 14 = header) ∧
      (s.vnetDev = if s.loaded then 1 else 0) ∧ s.queue = s.up ∧ s.enabled = s.up := by
  have hi : Inv s := run_keeps hr inv_start fun _ _ _ hi hs => hi.step hs
  refine ⟨hi.consumed, hi.realDev, hi.header, hi.vnetDev, ?_, ?_⟩
  · cases hup : s.up with
    | true => exact (hi.up hup).2.1
    | false => exact (hi.down hup).1
  · cases hup : s.up with
    | true => exact (hi.up hup).2.2
    | false => exact (hi.down hup).2.1

/-- Two packets are handed over, one of them while the real device is missing, and one is received. -/
def traffic : List Act :=
  [.insmod true true, .ifup, .xmit true, .xmit false,
    .poll 2 [some (List.Vector.replicate 64 1), none], .rmmod]

theorem accounts_traffic :
    ∃ s, run step {} traffic = some s ∧ s.next = 2 ∧ s.realDev = 1 ∧ s.received.length = 1 ∧
      (∀ skb, (s.freed ++ s.sent).count skb = if skb < s.next then 1 else 0) ∧
      s.realDev = s.sent.length ∧ (∀ f ∈ s.received, f.1.take 14 = header) ∧
      (s.vnetDev = if s.loaded then 1 else 0) ∧ s.queue = s.up ∧ s.enabled = s.up := by
  have hr : (run step {} traffic).map (fun s => (s.next, s.realDev, s.received.length)) =
      some (2, 1, 1) := by
    decide
  obtain ⟨s, hr, hs⟩ := Option.map_eq_some_iff.mp hr
  simp only [Prod.mk.injEq] at hs
  exact ⟨s, hr, hs.1, hs.2.1, hs.2.2, netdev_accounts traffic s hr⟩

/-! ## The poll does not end -/

/-- An allocation of a poll fails only when a trigger has come since the device is on the schedule. -/
def FullPoll (s : State) : Act → Prop
  | .poll budget skbs => s.missed = true ∨ Served budget skbs
  | .insmod _ _ => True
  | .rmmod => True
  | .ifup => True
  | .ifdown => True
  | .xmit _ => True
  | .trigger => True

instance (s : State) : (a : Act) → Decidable (FullPoll s a)
  | .poll budget skbs => inferInstanceAs (Decidable (_ ∨ Served budget skbs))
  | .insmod _ _ => isTrue trivial
  | .rmmod => isTrue trivial
  | .ifup => isTrue trivial
  | .ifdown => isTrue trivial
  | .xmit _ => isTrue trivial
  | .trigger => isTrue trivial

/-- The device is polled as long as it is up. -/
def Polled (s : State) : Prop := s.up = true → s.scheduled = true

/-- One call keeps the device on the schedule if and only if it is no poll that is done with no trigger
    behind it. -/
theorem polled_step (hi : Inv s) (hp : Polled s) (hs : step s a = some s') :
    Polled s' ↔ FullPoll s a := by
  match a with
  | .insmod alloc register =>
    simp only [step] at hs
    split at hs
    · cases hs
    · next hl =>
      obtain rfl := Option.some.inj hs
      have hd : s.up = false := by
        by_contra hup
        exact hl (hi.up (by simpa using hup)).1
      refine iff_of_true (fun hup => ?_) trivial
      match alloc, register with
      | true, true => exact absurd (hd.symm.trans hup) (by decide)
      | true, false => exact absurd (hd.symm.trans hup) (by decide)
      | false, _ => exact absurd (hd.symm.trans hup) (by decide)
  | .rmmod =>
    simp only [step] at hs
    split at hs
    · obtain rfl := Option.some.inj hs
      refine iff_of_true (fun hup => ?_) trivial
      unfold vnetExit unregisterNetdev at hup
      split at hup
      · exact absurd hup (by simp)
      · next hd => exact absurd hup hd
    · cases hs
  | .ifup =>
    simp only [step] at hs
    split at hs
    · obtain rfl := Option.some.inj hs
      exact iff_of_true (fun _ => rfl) trivial
    · cases hs
  | .ifdown =>
    simp only [step] at hs
    split at hs
    · obtain rfl := Option.some.inj hs
      exact iff_of_true (fun hup => absurd hup (by simp)) trivial
    · cases hs
  | .xmit found =>
    simp only [step] at hs
    split at hs
    · obtain rfl := Option.some.inj hs
      cases found with
      | true => exact iff_of_true hp trivial
      | false => exact iff_of_true hp trivial
    · cases hs
  | .trigger =>
    simp only [step] at hs
    split at hs
    · next hup =>
      obtain rfl := Option.some.inj hs
      refine iff_of_true (fun _ => ?_) trivial
      unfold demoNapiTrigger napiSchedule
      rw [if_pos (hi.up hup).2.2]
    · cases hs
  | .poll budget skbs =>
    simp only [step] at hs
    split at hs
    · next h =>
      obtain rfl := Option.some.inj hs
      rw [Bool.and_eq_true] at h
      have hup : s.up = true := by
        by_contra hd
        exact absurd ((hi.down (by simpa using hd)).2.1.symm.trans h.1) (by decide)
      obtain ⟨frames, -, -, -, heq⟩ := demoNapiPoll_spec s budget skbs
      rw [heq]
      simp only [Polled, FullPoll, hup, true_implies]
      by_cases hserved : Served budget skbs
      · exact iff_of_true (by rw [if_pos hserved, h.2]) (.inr hserved)
      · rw [if_neg hserved, or_iff_left hserved]
    · cases hs

/-- **Polling.** A device that is up is polled all the time, in a run, if and only if each poll in which an
    allocation fails finds that a trigger has come since the device is on the schedule, which gives it
    one more poll: nothing else ends the poll that `demo_open` starts. -/
theorem polled_iff (as : List Act) (t : State) (hr : run step {} as = some t) :
    Always step Polled {} as ↔ Along step FullPoll {} as := by
  have hrun : ∀ s, Inv s → Polled s → run step s as = some t →
      (Always step Polled s as ↔ Along step FullPoll s as) := by
    clear hr
    induction as with
    | nil => exact fun s _ hp _ => iff_of_true hp trivial
    | cons a as ih =>
      intro s hi hp hr
      obtain ⟨s', hs, hr'⟩ := run_cons_eq_some.mp hr
      have hstep := polled_step hi hp hs
      rw [along_cons hs]
      constructor
      · intro h
        have h' := h.2 s' hs
        exact ⟨hstep.mp h'.head, (ih s' (hi.step hs) h'.head hr').mp h'⟩
      · rintro ⟨hf, h⟩
        refine ⟨hp, fun u hu => ?_⟩
        obtain rfl := Option.some.inj (hs.symm.trans hu)
        exact (ih s' (hi.step hs) (hstep.mpr hf) hr').mpr h
  exact hrun {} inv_start (fun h => absurd h (by decide)) hr

/-- The first poll is full, and the trigger behind it makes up for the allocation that fails in the
    second. -/
def polledTraffic : List Act :=
  [.insmod true true, .ifup, .poll 2 (List.replicate 2 (some (List.Vector.replicate 64 1))), .trigger,
    .poll 2 [none], .poll 1 [some (List.Vector.replicate 64 1)]]

theorem polled_traffic :
    (¬ Along step FullPoll {} traffic ∧ ¬ Always step Polled {} traffic) ∧
      Along step FullPoll {} polledTraffic ∧ Always step Polled {} polledTraffic ∧
      ∃ t, run step {} polledTraffic = some t ∧ t.up = true ∧ t.received.length = 3 := by
  have hr : (run step {} traffic).isSome = true := by decide
  obtain ⟨t, hr⟩ := Option.isSome_iff_exists.mp hr
  have hnot : ¬ Along step FullPoll {} traffic := by decide
  have hr' : (run step {} polledTraffic).map (fun t => (t.up, t.received.length)) =
      some (true, 3) := by
    decide
  obtain ⟨t', hr', ht'⟩ := Option.map_eq_some_iff.mp hr'
  have hfull : Along step FullPoll {} polledTraffic := by decide
  exact ⟨⟨hnot, fun h => hnot ((polled_iff traffic t hr).mp h)⟩, hfull,
    (polled_iff polledTraffic t' hr').mpr hfull, t', hr', Prod.mk.inj ht'⟩

end KernelMagic.Netdev
