/-
  `socket_uring_client.c` on one connection of the server: what is typed, what goes over the wire, what
  comes back and is printed.

  The client has two threads. `main` reads a word with `scanf("%s", buf)` and sends it; at the end of the
  input the buffer stays as it is and is sent again. `recv_msg` prints what it receives, with a NUL
  behind it. Both write behind the end of their buffer of 4096 bytes when there is too much: a word of
  4096 bytes, or a `recv` that fills the buffer. With such a step the run is at fault and ends, and so it
  does when the input has no word and the buffer is sent as it was on the stack.

  The connection carries bytes in order in either direction: `up` are those that the client has sent and
  the server has not received, `down` the other way. The server is the whole server with all its
  clients, of which this one is connection `c`; what happens on the connection is read off its log.
-/
import KernelMagic.Lib.CString
import KernelMagic.Server.Echo

namespace KernelMagic.Server

open KernelMagic.Lib

/-! ## The client -/

/-- The size of `buf` and of `buf2`. -/
def clientBufLen : Nat := 4096

/-- `isspace`. -/
def isSpace (b : UInt8) : Bool := b == 32 || (9 ≤ b && b ≤ 13)

/-- `scanf("%s")`: the word and the rest of the input, `none` at its end. -/
def scanWord (input : List UInt8) : Option (List UInt8 × List UInt8) :=
  match input.dropWhile isSpace with
  | [] => none
  | b :: l => some ((b :: l).takeWhile (!isSpace ·), (b :: l).dropWhile (!isSpace ·))

/-- `buf` is the string in the buffer, `none` before the first word; `taken` is what the calls of `send`
    have taken in all, and `printed` what stands behind each "recv: ". -/
structure Client where
  stdin : List UInt8
  buf : Option (List UInt8) := none
  taken : List UInt8 := []
  printed : List (List UInt8) := []
  deriving DecidableEq

/-- `scanf` into `buf`: the client, and the string that `send` finds there. `none` when the word does not
    fit, and when there is none and has been none. -/
def Client.scan (k : Client) : Option (Client × List UInt8) :=
  match scanWord k.stdin with
  | none => k.buf.map fun buf => (k, buf)
  | some (word, rest) =>
    if word.length < clientBufLen then
      some ({ k with stdin := rest, buf := some (cstr word) }, cstr word)
    else none

/-- `send` takes `r` bytes of `buf`: the client, and the bytes; it takes no more than there are. -/
def Client.send (k : Client) (buf : List UInt8) (r : Nat) : Option (Client × List UInt8) :=
  if r ≤ buf.length then some ({ k with taken := k.taken ++ buf.take r }, buf.take r) else none

/-- One turn of the loop of `recv_msg`, when `recv` gives `bs`; `none` when they fill `buf2`. -/
def Client.recvMsg (k : Client) (bs : List UInt8) : Option Client :=
  if bs.length < clientBufLen then
    some (if 0 < bs.length then { k with printed := k.printed ++ [cstr (bs ++ [0])] } else k)
  else none

/-! ## The connection -/

structure Link where
  server : State
  client : Client
  up : List UInt8
  down : List UInt8
  fault : Bool := false

inductive LinkAct where
  | server (a : Act)
  | send (r : Nat)
  | recv (n : Nat)

/-- What the server has received on the connection comes from the client, what it has transmitted goes to
    it. -/
def Link.carry (s : Link) (t : State) : List Ev → Option Link
  | [] => some { s with server := t }
  | [.recv _ bs] =>
    if bs <+: s.up then some { s with server := t, up := s.up.drop bs.length } else none
  | [.send _ bs] => some { s with server := t, down := s.down ++ bs }
  | _ => none

/-- One turn of the loop of `main`. -/
def Link.main (s : Link) (r : Nat) : Option Link :=
  match s.client.scan with
  | none => some { s with fault := true }
  | some (k, buf) => (k.send buf r).map fun x => { s with client := x.1, up := s.up ++ x.2 }

/-- One turn of the loop of `recv_msg`: `recv` gives the next `n` bytes, at most the 4096 asked for. -/
def Link.recvMsg (s : Link) (n : Nat) : Option Link :=
  if clientBufLen < n then none
  else
    match s.client.recvMsg (s.down.take n) with
    | none => some { s with fault := true }
    | some k => some { s with client := k, down := s.down.drop n }

def linkStep (env : Env) (c : Nat) (s : Link) (a : LinkAct) : Option Link :=
  if s.fault then none
  else
    match a with
    | .server a => (step env s.server a).bind fun t =>
        s.carry t ((t.conns c).log.drop (s.server.conns c).log.length)
    | .send r => s.main r
    | .recv n => s.recvMsg n

/-- The server starts, and the client has `stdin` to read. -/
def Link.start (env : Env) (stdin : List UInt8) : Link :=
  { server := init env, client := { stdin := stdin }, up := [], down := [] }

/-- The sends of the server on the connection that succeed are complete. -/
def LinkFull (c : Nat) (s : Link) : LinkAct → Prop
  | .server a => FullSend c s.server a
  | .send _ => True
  | .recv _ => True

instance (c : Nat) (s : Link) : (a : LinkAct) → Decidable (LinkFull c s a)
  | .server a => inferInstanceAs (Decidable (FullSend c s.server a))
  | .send _ => isTrue trivial
  | .recv _ => isTrue trivial

/-- The client keeps to its buffers: it sends a string that it has read and that fits, and receives less
    than `buf2` holds. -/
def Within (s : Link) : LinkAct → Prop
  | .server _ => True
  | .send _ => (∀ x ∈ scanWord s.client.stdin, x.1.length < clientBufLen) ∧
      (scanWord s.client.stdin = none → s.client.buf ≠ none)
  | .recv n => (s.down.take n).length < clientBufLen

instance (s : Link) : (a : LinkAct) → Decidable (Within s a)
  | .server _ => isTrue trivial
  | .send _ => inferInstanceAs (Decidable (_ ∧ _))
  | .recv n => inferInstanceAs (Decidable ((s.down.take n).length < clientBufLen))

/-! ## A step -/

variable {env : Env} {c : Nat} {k k' : Client} {s s' : Link} {a : LinkAct} {r : Nat}
  {buf bs : List UInt8}

/-- The string in the buffer has no NUL. -/
def Client.Clean (k : Client) : Prop := ∀ buf ∈ k.buf, 0 ∉ buf

theorem Client.scan_spec (h : k.scan = some (k', buf)) :
    k'.taken = k.taken ∧ k'.printed = k.printed ∧ (k.Clean → k'.Clean ∧ 0 ∉ buf) := by
  unfold Client.scan at h
  split at h
  · obtain ⟨b, hb, hk⟩ := Option.map_eq_some_iff.mp h
    obtain ⟨rfl, rfl⟩ := Prod.mk.inj hk
    exact ⟨rfl, rfl, fun hc => ⟨hc, hc b hb⟩⟩
  · split at h
    · obtain ⟨rfl, rfl⟩ := Prod.mk.inj (Option.some.inj h)
      have h0 : ∀ word : List UInt8, 0 ∉ cstr word := fun _ h0 => ne_zero_of_mem_cstr h0 rfl
      refine ⟨rfl, rfl, fun _ => ⟨fun b hb => ?_, h0 _⟩⟩
      obtain rfl := Option.some.inj hb
      exact h0 _
    · cases h

theorem Client.send_spec (h : k.send buf r = some (k', bs)) :
    bs = buf.take r ∧ k' = { k with taken := k.taken ++ bs } := by
  unfold Client.send at h
  split at h
  · obtain ⟨rfl, rfl⟩ := Prod.mk.inj (Option.some.inj h)
    exact ⟨rfl, rfl⟩
  · cases h

/-- What is received without a NUL is printed as it is. -/
theorem Client.recvMsg_spec (h : k.recvMsg bs = some k') (h0 : 0 ∉ bs) :
    k'.taken = k.taken ∧ k'.buf = k.buf ∧ k'.printed.flatten = k.printed.flatten ++ bs := by
  unfold Client.recvMsg at h
  split at h
  · obtain rfl := Option.some.inj h
    split
    · refine ⟨rfl, rfl, ?_⟩
      rw [List.flatten_append, List.flatten_singleton,
        cstr_append_zero fun b hb hz => h0 (hz ▸ hb)]
    · next hlen =>
      obtain rfl := List.length_eq_zero_iff.mp (Nat.eq_zero_of_not_pos hlen)
      exact ⟨rfl, rfl, (List.append_nil _).symm⟩
  · cases h

theorem linkStep_eq_some (h : linkStep env c s a = some s') :
    s.fault = false ∧
      match a with
      | .server act => (Server.step env s.server act).bind
          (fun t => s.carry t ((t.conns c).log.drop (s.server.conns c).log.length)) = some s'
      | .send r => s.main r = some s'
      | .recv n => s.recvMsg n = some s' := by
  unfold linkStep at h
  split at h
  · cases h
  · next hf =>
    refine ⟨Bool.eq_false_iff.mpr hf, ?_⟩
    cases a <;> exact h

/-- A turn of `main` sends a part of a string without a NUL, or it is a fault and does nothing else. -/
theorem Link.main_spec (hk : s.client.Clean) (h : s.main r = some s') :
    (s.client.scan = none ∧ s' = { s with fault := true }) ∨
    (s.client.scan ≠ none ∧ ∃ k bs, s' = { s with client := k, up := s.up ++ bs } ∧
      k.taken = s.client.taken ++ bs ∧ k.printed = s.client.printed ∧ k.Clean ∧ 0 ∉ bs) := by
  unfold Link.main at h
  split at h
  · next hscan => exact .inl ⟨hscan, (Option.some.inj h).symm⟩
  · next k buf hscan =>
    obtain ⟨⟨k', bs⟩, hsend, rfl⟩ := Option.map_eq_some_iff.mp h
    obtain ⟨htaken, hprinted, hclean⟩ := Client.scan_spec hscan
    obtain ⟨rfl, rfl⟩ := Client.send_spec hsend
    obtain ⟨hk', h0⟩ := hclean hk
    refine .inr ⟨by simp [hscan], _, buf.take r, rfl, ?_, hprinted, hk', ?_⟩
    · show k.taken ++ buf.take r = _
      rw [htaken]
    · exact fun hb => h0 (List.mem_of_mem_take hb)

/-- A turn of `recv_msg` prints what it receives, or it is a fault and does nothing else. -/
theorem Link.recvMsg_spec {n : Nat} (h : s.recvMsg n = some s') :
    ((s.down.take n).length = clientBufLen ∧ s' = { s with fault := true }) ∨
    ((s.down.take n).length < clientBufLen ∧ ∃ k, s.client.recvMsg (s.down.take n) = some k ∧
      s' = { s with client := k, down := s.down.drop n }) := by
  unfold Link.recvMsg at h
  split at h
  · cases h
  · next hn =>
    have hle : (s.down.take n).length ≤ clientBufLen :=
      (List.length_take_le n _).trans (Nat.not_lt.mp hn)
    split at h
    · next hnone =>
      refine .inl ⟨hle.antisymm (Nat.not_lt.mp fun hlt => ?_), (Option.some.inj h).symm⟩
      unfold Client.recvMsg at hnone
      rw [if_pos hlt] at hnone
      cases hnone
    · next k hk =>
      refine .inr ⟨?_, k, hk, (Option.some.inj h).symm⟩
      by_contra hge
      unfold Client.recvMsg at hk
      rw [if_neg hge] at hk
      cases hk

/-- The bytes of the connection: none is lost, and each is at one place. -/
structure Carried (env : Env) (c : Nat) (s : Link) : Prop where
  inv : Inv env s.server
  balance : Balance (s.server.conns c).log
  up : s.client.taken = rx (s.server.conns c).log ++ s.up
  down : tx (s.server.conns c).log = s.client.printed.flatten ++ s.down
  clean : s.client.Clean
  text : 0 ∉ s.client.taken

theorem Carried.start (env : Env) (c : Nat) (stdin : List UInt8) :
    Carried env c (Link.start env stdin) where
  inv := inv_init env
  balance := rfl
  up := rfl
  down := rfl
  clean := fun buf hb => by cases hb
  text := List.not_mem_nil

/-- What is on its way back has been sent. -/
theorem Carried.down_text (h : Carried env c s) : 0 ∉ s.down := by
  intro h0
  refine h.text ?_
  rw [h.up]
  have htx : 0 ∈ tx (s.server.conns c).log := by
    rw [h.down]
    exact List.mem_append_right _ h0
  exact List.mem_append_left _ (h.balance.isPrefix.mem htx)

theorem Carried.server_step {act : Act} (h : Carried env c s) (hf : FullSend c s.server act)
    (hs : linkStep env c s (.server act) = some s') : Carried env c s' := by
  obtain ⟨t, ht, hc⟩ := Option.bind_eq_some_iff.mp (linkStep_eq_some hs).2
  have htr := step_trans h.inv.ready ht
  have hinv : Inv env t := inv_step h.inv htr
  have hbal : Balance (t.conns c).log := balance_step h.inv h.balance hf htr
  rcases log_step h.inv htr c with hl | ⟨r, bs, -, -, hl⟩ | ⟨-, -, -, r, -, buf, -, -, -, -, -, hl⟩
  · rw [hl, List.drop_length] at hc
    obtain rfl := Option.some.inj hc
    refine ⟨hinv, hbal, ?_, ?_, h.clean, h.text⟩
    · show s.client.taken = rx (t.conns c).log ++ s.up
      rw [hl, h.up]
    · show tx (t.conns c).log = s.client.printed.flatten ++ s.down
      rw [hl, h.down]
  · rw [hl, List.drop_left] at hc
    unfold Link.carry at hc
    simp only at hc
    split at hc
    · next hpre =>
      obtain rfl := Option.some.inj hc
      obtain ⟨up, hup⟩ := hpre
      refine ⟨hinv, hbal, ?_, ?_, h.clean, h.text⟩
      · show s.client.taken = rx (t.conns c).log ++ s.up.drop bs.length
        rw [hl, rx_recv, h.up, ← hup, List.drop_left, List.append_assoc]
      · show tx (t.conns c).log = s.client.printed.flatten ++ s.down
        rw [hl, tx_recv, h.down]
    · cases hc
  · rw [hl, List.drop_left] at hc
    obtain rfl := Option.some.inj hc
    refine ⟨hinv, hbal, ?_, ?_, h.clean, h.text⟩
    · show s.client.taken = rx (t.conns c).log ++ s.up
      rw [hl, rx_send, h.up]
    · show tx (t.conns c).log = s.client.printed.flatten ++ (s.down ++ grab buf 0 r.toNat)
      rw [hl, tx_send, h.down, List.append_assoc]

theorem Carried.main_step (h : Carried env c s) (hs : s.main r = some s') : Carried env c s' := by
  rcases Link.main_spec h.clean hs with ⟨-, rfl⟩ | ⟨-, k, bs, rfl, htaken, hprinted, hclean, h0⟩
  · exact ⟨h.inv, h.balance, h.up, h.down, h.clean, h.text⟩
  · refine ⟨h.inv, h.balance, ?_, ?_, hclean, ?_⟩
    · show k.taken = rx (s.server.conns c).log ++ (s.up ++ bs)
      rw [htaken, h.up, List.append_assoc]
    · show tx (s.server.conns c).log = k.printed.flatten ++ s.down
      rw [hprinted, h.down]
    · show 0 ∉ k.taken
      rw [htaken, List.mem_append, not_or]
      exact ⟨h.text, h0⟩

theorem Carried.recv_step {n : Nat} (h : Carried env c s) (hs : s.recvMsg n = some s') :
    Carried env c s' := by
  rcases Link.recvMsg_spec hs with ⟨-, rfl⟩ | ⟨-, k, hk, rfl⟩
  · exact ⟨h.inv, h.balance, h.up, h.down, h.clean, h.text⟩
  · have h0 : 0 ∉ s.down.take n := fun h0 => h.down_text (List.mem_of_mem_take h0)
    obtain ⟨htaken, hbuf, hprinted⟩ := Client.recvMsg_spec hk h0
    refine ⟨h.inv, h.balance, ?_, ?_, ?_, ?_⟩
    · show k.taken = rx (s.server.conns c).log ++ s.up
      rw [htaken, h.up]
    · show tx (s.server.conns c).log = k.printed.flatten ++ s.down.drop n
      rw [hprinted, List.append_assoc, List.take_append_drop, h.down]
    · intro buf hb
      exact h.clean buf (hbuf ▸ hb)
    · show 0 ∉ k.taken
      rw [htaken]
      exact h.text

theorem Carried.step (h : Carried env c s) (hf : LinkFull c s a)
    (hs : linkStep env c s a = some s') : Carried env c s' := by
  match a with
  | .server act => exact h.server_step hf hs
  | .send r => exact h.main_step (linkStep_eq_some hs).2
  | .recv n => exact h.recv_step (linkStep_eq_some hs).2

/-- Nothing is under way, and the server waits for the next message. -/
theorem Carried.printed_eq (h : Carried env c s) (hup : s.up = []) (hdown : s.down = [])
    (hstage : stage (s.server.conns c).log = .reading) :
    s.client.printed.flatten = s.client.taken := by
  have hbal : tx (s.server.conns c).log = rx (s.server.conns c).log := by
    have hb := h.balance
    unfold Balance at hb
    rwa [hstage] at hb
  have h1 := h.down
  have h2 := h.up
  rw [hdown, List.append_nil] at h1
  rw [hup, List.append_nil] at h2
  rw [← h1, h2, hbal]

/-! ## Faults -/

theorem Client.scan_ne_none :
    s.client.scan ≠ none ↔ Within s (.send r) := by
  unfold Client.scan Within
  cases scanWord s.client.stdin with
  | none => simp
  | some x => simp

theorem carry_eq {t : State} {l : List Ev} (h : s.carry t l = some s') :
    s'.server = t ∧ s'.fault = s.fault := by
  unfold Link.carry at h
  split at h
  · cases h
    exact ⟨rfl, rfl⟩
  · split at h <;> cases h
    exact ⟨rfl, rfl⟩
  · cases h
    exact ⟨rfl, rfl⟩
  · cases h

/-- A step is a fault exactly when it leaves a buffer. -/
theorem fault_step (hk : s.client.Clean) (h : linkStep env c s a = some s') :
    s'.fault = false ↔ Within s a := by
  obtain ⟨hf, h⟩ := linkStep_eq_some h
  match a with
  | .server act =>
    obtain ⟨t, -, hc⟩ := Option.bind_eq_some_iff.mp h
    exact iff_of_true ((carry_eq hc).2.trans hf) trivial
  | .send r =>
    rcases Link.main_spec hk h with ⟨hscan, rfl⟩ | ⟨hscan, k, bs, rfl, -⟩
    · refine iff_of_false (by simp) ?_
      rw [← Client.scan_ne_none]
      exact fun hne => hne hscan
    · exact iff_of_true hf (Client.scan_ne_none.mp hscan)
  | .recv n =>
    rcases Link.recvMsg_spec h with ⟨hlen, rfl⟩ | ⟨hlen, k, -, rfl⟩
    · exact iff_of_false (by simp) (fun hlt => absurd hlen hlt.ne)
    · exact iff_of_true hf hlen

theorem fault_iff {acts : List LinkAct} (h : Carried env c s) (hf : s.fault = false)
    (hfull : Along (linkStep env c) (LinkFull c) s acts)
    (hr : run (linkStep env c) s acts = some s') :
    s'.fault = false ↔ Along (linkStep env c) Within s acts := by
  induction acts generalizing s with
  | nil =>
    obtain rfl := Option.some.inj hr
    exact iff_of_true hf trivial
  | cons a as ih =>
    obtain ⟨s₁, hs, hr'⟩ := run_cons_eq_some.mp hr
    have hcarried := h.step hfull.1 hs
    constructor
    · intro hf'
      have h₁ : s₁.fault = false := by
        match as with
        | [] => rwa [Option.some.inj hr']
        | b :: bs =>
          obtain ⟨s₂, hs₂, -⟩ := run_cons_eq_some.mp hr'
          exact (linkStep_eq_some hs₂).1
      refine ⟨(fault_step h.clean hs).mp h₁, fun t ht => ?_⟩
      obtain rfl := Option.some.inj (hs.symm.trans ht)
      exact (ih hcarried h₁ (hfull.2 _ hs) hr').mp hf'
    · intro hw
      have h₁ := (fault_step h.clean hs).mpr hw.1
      exact (ih hcarried h₁ (hfull.2 _ hs) hr').mpr (hw.2 _ hs)

/-! ## The round trip -/

/-- **Round trip.** In every run of the server with this client, any other clients and any interleaving,
    in which the sends of the server on the connection that succeed are complete: what the client has
    printed is a prefix of what it has sent, and all of it as soon as nothing is under way on the
    connection, the server waiting for the next message. The run comes to a fault exactly when the client
    leaves one of its buffers. -/
theorem echo_roundtrip (env : Env) (c : Nat) (stdin : List UInt8) (acts : List LinkAct) (s : Link)
    (hf : Along (linkStep env c) (LinkFull c) (Link.start env stdin) acts)
    (hr : run (linkStep env c) (Link.start env stdin) acts = some s) :
    s.client.printed.flatten <+: s.client.taken ∧
      (s.up = [] → s.down = [] → stage (s.server.conns c).log = .reading →
        s.client.printed.flatten = s.client.taken) ∧
      (s.fault = false ↔ Along (linkStep env c) Within (Link.start env stdin) acts) := by
  have h0 : Carried env c (Link.start env stdin) := Carried.start env c stdin
  have h : Carried env c s := run_inv (fun s a s' hi hf hs => hi.step hf hs) h0 hf hr
  refine ⟨?_, h.printed_eq, fault_iff h0 rfl hf hr⟩
  have hdown : s.client.printed.flatten <+: tx (s.server.conns c).log := ⟨s.down, h.down.symm⟩
  have hup : rx (s.server.conns c).log <+: s.client.taken := ⟨s.up, h.up.symm⟩
  exact (hdown.trans h.balance.isPrefix).trans hup

/-- The client types two words; the first comes back in two parts while the second is being sent. -/
def twoWords : List LinkAct :=
  [.server (.prog {}), .server (.complete 1 5 []), .server (.prog {}), .server (.prog {}),
    .server (.prog {}), .server (.prog {}), .send 2,
    .server (.complete 1 2 [97, 98]), .server (.prog {}), .server (.prog {}), .server (.prog {}),
    .server (.prog {}), .server (.complete 2 2 []), .recv 1, .send 1, .recv 1]

/-- A word of 4096 bytes does not fit, and the next turn of `main` is a fault. -/
theorem roundtrip_twoWords :
    (∃ s, run (linkStep env₀ 0) (Link.start env₀ [97, 98, 32, 99]) twoWords = some s ∧
      s.client.taken = [97, 98, 99] ∧ s.client.printed = [[97], [98]] ∧
      s.client.printed.flatten <+: s.client.taken ∧ s.fault = false) ∧
    ∃ s, run (linkStep env₀ 0) (Link.start env₀ (List.replicate 4096 97)) [.send 0] = some s ∧
      s.fault ≠ false := by
  have h : (run (linkStep env₀ 0) (Link.start env₀ [97, 98, 32, 99]) twoWords).map
      (fun s => (s.client.taken, s.client.printed)) = some ([97, 98, 99], [[97], [98]]) := by
    decide +kernel
  obtain ⟨s, hr, hs⟩ := Option.map_eq_some_iff.mp h
  obtain ⟨hpre, -, hfault⟩ := echo_roundtrip env₀ 0 _ twoWords s (by decide +kernel) hr
  refine ⟨⟨s, hr, congrArg Prod.fst hs, congrArg Prod.snd hs, hpre,
    hfault.mpr (by decide +kernel)⟩, ?_⟩
  have h' : (run (linkStep env₀ 0) (Link.start env₀ (List.replicate 4096 97)) [.send 0]).map
      (fun _ => ()) = some () := by
    decide +kernel
  obtain ⟨t, ht, -⟩ := Option.map_eq_some_iff.mp h'
  refine ⟨t, ht, fun hf => ?_⟩
  have hw := (echo_roundtrip env₀ 0 _ _ t (by decide +kernel) ht).2.2.mp hf
  exact absurd hw (by decide +kernel)

end KernelMagic.Server
