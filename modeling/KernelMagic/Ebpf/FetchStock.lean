/-
  The probe on a Go function, `eBPF/uprobe_go.bpf.c`, and its user-space end `handle_event` in
  `eBPF/uprobe_go.c`. A schedule is the calls of `FetchStock` and the turns of `ring_buffer__poll`, one
  record at a time, in any order. Reads of user memory succeed; a call that finds the ring full gets no
  record. `calls` are the calls that have got one, and neither end sees them. The line for the trace
  pipe is left out.

  The probe copies the bytes of the string and no NUL behind them: `code_name` is cleared and filled as
  a string, but only for the trace pipe. The NUL that ends what is printed is a byte that has not been
  written since the ring was new. The ring has 8192 places, so what is printed of call `i` goes on with
  what call `i - 8192` has left behind it (`printed_eq`; `content` is what is in a place).

  The codes are printed as they were given exactly when no call that is printed has come into a place
  after one with a longer code (`codes_iff`).
-/
import KernelMagic.Lib.CString
import KernelMagic.Lib.History
import KernelMagic.Lib.RingBuf

namespace KernelMagic.FetchStock

open KernelMagic.Lib

/-- A call of `FetchStock`: what `bpf_get_current_pid_tgid` answers, and the string. -/
structure Call where
  pidTgid : UInt64
  arg : List UInt8
  deriving DecidableEq, Repr

/-- `e->pid`. -/
def Call.pid (c : Call) : UInt32 := (c.pidTgid >>> 32).toUInt32

/-- `str_len`, with room for a NUL. -/
def Call.strLen (c : Call) : Nat := if c.arg.length > 16 - 1 then 16 - 1 else c.arg.length

/-- What is copied of the string. -/
def Call.code (c : Call) : List UInt8 := c.arg.take c.strLen

/-- A `__u32` in memory. -/
def le32 (n : UInt32) : List UInt8 := (List.range 4).map fun i => UInt8.ofNat (n.toNat / 256 ^ i)

def ofLe32 (bs : List UInt8) : UInt32 :=
  UInt32.ofNat (bs.foldr (fun b n => b.toNat + 256 * n) 0)

/-- `sizeof(struct event)`. -/
def sizeofEvent : Nat := 20

def uprobeFetchStock (rb : RingBuf) (c : Call) : Option RingBuf :=
  (rb.reserve sizeofEvent).map fun (e, rb) => (rb.put e (le32 c.pid)).put (e + 4) c.code

/-- What is printed for an event. -/
structure Report where
  pid : UInt32
  stockCode : List UInt8
  deriving DecidableEq, Repr

/-- `none` is a read past the end of the field. -/
def handleEvent (rb : RingBuf) (data : Nat) : Option Report :=
  (printStr (rb.get (data + 4) 16)).map fun code => ⟨ofLe32 (rb.get data 4), code⟩

structure State where
  rb : RingBuf := .empty (256 * 1024)
  printed : List (Option Report) := []
  calls : List Call := []

inductive Act where
  | call (c : Call)
  | poll

def init : State := {}

def step (s : State) : Act → Option State
  | .call c =>
    match uprobeFetchStock s.rb c with
    | none => some s
    | some rb => some { s with rb := rb, calls := s.calls ++ [c] }
  | .poll =>
    match s.rb.consume sizeofEvent with
    | none => some s
    | some (data, rb) => some { s with rb := rb, printed := s.printed ++ [handleEvent rb data] }

/-- The string has no NUL. -/
def Act.NulFree : Act → Prop
  | .call c => 0 ∉ c.arg
  | .poll => True

instance : (a : Act) → Decidable a.NulFree
  | .call c => inferInstanceAs (Decidable (0 ∉ c.arg))
  | .poll => isTrue trivial

/-! ## What is in a place -/

/-- A new string copied over an old one. -/
def overlay (new old : List UInt8) : List UInt8 := new ++ old.drop new.length

/-- The code in the place of record `i` once the calls of `g` have been there; what an earlier record
    has left, if record `i` is not one of them. -/
def content (g : List Call) (i : Nat) : List UInt8 :=
  overlay ((g[i]?.map Call.code).getD []) (if i < 8192 then [] else content g (i - 8192))

variable {g : List Call} {c : Call} {i k m : Nat} {s s' : State} {rb : RingBuf}

theorem getD_overlay (new old : List UInt8) (k : Nat) :
    (overlay new old)[k]?.getD 0 = new[k]?.getD (old[k]?.getD 0) := by
  rw [overlay, List.getElem?_append]
  split
  · next h => rw [List.getElem?_eq_getElem h, Option.getD_some, Option.getD_some]
  · next h =>
    have hnew : new[k]? = none := List.getElem?_eq_none (by omega)
    rw [hnew, List.getElem?_drop, Option.getD_none, Nat.add_sub_cancel' (by omega)]

theorem length_overlay (new old : List UInt8) :
    (overlay new old).length = max new.length old.length := by
  rw [overlay, List.length_append, List.length_drop]
  omega

theorem overlay_eq_left_iff {new old : List UInt8} :
    overlay new old = new ↔ old.length ≤ new.length := by
  rw [overlay, List.append_right_eq_self, List.drop_eq_nil_iff]

theorem Call.length_code (c : Call) : c.code.length = c.strLen := by
  rw [code, List.length_take, strLen]
  split <;> omega

theorem Call.code_eq (c : Call) : c.code = c.arg.take (min c.arg.length 15) := by
  rw [code, strLen]
  congr 1
  split <;> omega

theorem Call.strLen_le (c : Call) : c.strLen ≤ 15 := by
  rw [strLen]
  split <;> omega

theorem content_eq (g : List Call) (i : Nat) :
    content g i = overlay ((g[i]?.map Call.code).getD [])
      (if i < 8192 then [] else content g (i - 8192)) := by
  rw [content]

theorem content_of_some (hc : g[i]? = some c) :
    content g i = overlay c.code (if i < 8192 then [] else content g (i - 8192)) := by
  rw [content, hc]
  rfl

theorem content_of_le (hi : g.length ≤ i) :
    content g i = if i < 8192 then [] else content g (i - 8192) := by
  rw [content, List.getElem?_eq_none hi]
  rfl

/-- What a call leaves is what the next record in its place finds. -/
theorem content_next (hi : g.length ≤ i + 8192) : content g (i + 8192) = content g i := by
  rw [content_of_le hi, if_neg (by omega), Nat.add_sub_cancel]

theorem content_snoc (g : List Call) (c : Call) (h : i < g.length ∨ i % 8192 ≠ g.length % 8192) :
    content (g ++ [c]) i = content g i := by
  induction i using Nat.strong_induction_on with
  | _ i ih =>
    have hget : (g ++ [c])[i]? = g[i]? := by
      rcases Nat.lt_trichotomy i g.length with hlt | heq | hgt
      · exact List.getElem?_append_left hlt
      · omega
      · rw [List.getElem?_eq_none (by rw [List.length_append, List.length_singleton]; omega),
          List.getElem?_eq_none (by omega)]
    rw [content, hget, content_eq g i]
    by_cases hi : i < 8192
    · rw [if_pos hi, if_pos hi]
    · rw [if_neg hi, if_neg hi, ih (i - 8192) (by omega) (by omega)]

/-- The place of the new record. -/
theorem content_snoc_self (g : List Call) (c : Call) :
    content (g ++ [c]) g.length = overlay c.code (content g g.length) := by
  rw [content_of_some List.getElem?_concat_length, content_of_le (Nat.le_refl _)]
  by_cases hi : g.length < 8192
  · rw [if_pos hi, if_pos hi]
  · rw [if_neg hi, if_neg hi, content_snoc g c (.inl (by omega))]

theorem content_nil (i : Nat) : content [] i = [] := by
  induction i using Nat.strong_induction_on with
  | _ i ih =>
    rw [content_of_le (Nat.zero_le i)]
    by_cases hi : i < 8192
    · rw [if_pos hi]
    · rw [if_neg hi, ih (i - 8192) (by omega)]

theorem mem_content {b : UInt8} (hb : b ∈ content g i) : ∃ c ∈ g, b ∈ c.arg := by
  induction i using Nat.strong_induction_on with
  | _ i ih =>
    rw [content, overlay, List.mem_append] at hb
    rcases hb with hb | hb
    · cases hc : g[i]? with
      | none =>
        rw [hc] at hb
        cases hb
      | some c =>
        rw [hc] at hb
        exact ⟨c, List.mem_of_getElem? hc, List.mem_of_mem_take hb⟩
    · have hb := List.mem_of_mem_drop hb
      by_cases hi : i < 8192
      · rw [if_pos hi] at hb
        cases hb
      · rw [if_neg hi] at hb
        exact ih (i - 8192) (by omega) hb

/-- How much has ever been written in a place. -/
theorem length_content_le_iff :
    (content g i).length ≤ m ↔
      ∀ j ≤ i, j % 8192 = i % 8192 → ∀ d ∈ g[j]?, d.strLen ≤ m := by
  induction i using Nat.strong_induction_on with
  | _ i ih =>
    have hnew : ((g[i]?.map Call.code).getD []).length ≤ m ↔ ∀ d ∈ g[i]?, d.strLen ≤ m := by
      cases g[i]? with
      | none => simp
      | some d => simp [Call.length_code]
    rw [content, length_overlay, Nat.max_le, hnew]
    by_cases hi : i < 8192
    · rw [if_pos hi]
      constructor
      · rintro ⟨h, -⟩ j hj hji
        rwa [show j = i by omega]
      · exact fun h => ⟨h i (Nat.le_refl i) rfl, Nat.zero_le m⟩
    · rw [if_neg hi, ih (i - 8192) (by omega)]
      constructor
      · rintro ⟨h, hold⟩ j hj hji
        rcases Nat.eq_or_lt_of_le hj with rfl | hlt
        · exact h
        · exact hold j (by omega) (by omega)
      · exact fun h => ⟨h i (Nat.le_refl i) rfl, fun j hj hji => h j (by omega) (by omega)⟩

theorem length_content_le (g : List Call) (i : Nat) : (content g i).length ≤ 15 :=
  length_content_le_iff.mpr fun _ _ _ d _ => d.strLen_le

/-- A place holds the code of its record alone when no longer one has been there before. -/
theorem content_eq_code_iff (hc : g[i]? = some c) :
    content g i = c.code ↔
      ∀ j < i, j % 8192 = i % 8192 → ∀ d ∈ g[j]?, d.strLen ≤ c.strLen := by
  rw [content_of_some hc, overlay_eq_left_iff, Call.length_code]
  by_cases hi : i < 8192
  · rw [if_pos hi]
    refine iff_of_true (Nat.zero_le _) fun j hj hji => ?_
    omega
  · rw [if_neg hi, length_content_le_iff]
    constructor
    · exact fun h j hj hji => h j (by omega) (by omega)
    · exact fun h j hj hji => h j (by omega) (by omega)

/-! ## Numbers in memory -/

theorem length_le32 (n : UInt32) : (le32 n).length = 4 := rfl

theorem ofLe32_le32 (n : UInt32) : ofLe32 (le32 n) = n := by
  apply UInt32.toNat.inj
  have hn := n.toNat_lt
  simp only [le32, ofLe32, List.range_succ, List.range_zero, List.nil_append, List.cons_append,
    List.map_cons, List.map_nil, List.foldr_cons, List.foldr_nil, UInt8.toNat_ofNat',
    UInt32.toNat_ofNat']
  omega

/-! ## Runs -/

/-- `size` to `room`: the records are numbered as the calls are. `found`: what the next records find in
    their places. `pids`: the numbers in the records that wait. -/
structure Inv (s : State) : Prop where
  size : s.rb.size = 32 * 8192
  prod : s.rb.prod = 32 * s.calls.length
  cons : s.rb.cons = 32 * s.printed.length
  le : s.printed.length ≤ s.calls.length
  room : s.calls.length < s.printed.length + 8192
  free : ∀ c ∈ s.calls, 0 ∉ c.arg
  found : ∀ i, s.calls.length ≤ i → i < s.calls.length + 8192 → ∀ k < 16,
    s.rb.data (32 * (i % 8192) + (12 + k)) = (content s.calls i)[k]?.getD 0
  pids : ∀ i c, s.printed.length ≤ i → s.calls[i]? = some c → ∀ k < 4,
    s.rb.data (32 * (i % 8192) + (8 + k)) = (le32 c.pid)[k]?.getD 0
  printed : ∀ i c, i < s.printed.length → s.calls[i]? = some c →
    s.printed[i]? = some (some ⟨c.pid, content s.calls i⟩)

theorem inv_init : Inv init := by
  refine ⟨rfl, rfl, rfl, Nat.le_refl 0, by decide, by simp [init], ?_, by simp [init], by simp [init]⟩
  intro i _ _ k _
  rw [show init.calls = [] from rfl, content_nil]
  rfl

/-- The bytes of the field `stock_code` of every place after a call. -/
theorem data_code (hs : rb.size = 32 * 8192) (n : Nat) (c : Call) {q : Nat} (hq : q < 8192)
    (hk : k < 16) :
    ((rb.put (32 * n + 8) (le32 c.pid)).put (32 * n + 8 + 4) c.code).data (32 * q + (12 + k)) =
      if q = n % 8192 then c.code[k]?.getD (rb.data (32 * q + (12 + k)))
      else rb.data (32 * q + (12 + k)) := by
  have hlen := c.length_code ▸ c.strLen_le
  have hpid : (rb.put (32 * n + 8) (le32 c.pid)).data (32 * q + (12 + k)) =
      rb.data (32 * q + (12 + k)) := by
    rw [RingBuf.data_put_record hs hq (by omega) (by decide) (by rw [length_le32]; decide)]
    split
    · rw [List.getElem?_eq_none (by rw [length_le32]; omega)]
      rfl
    · rfl
  have hs' : (rb.put (32 * n + 8) (le32 c.pid)).size = 32 * 8192 := hs
  rw [Nat.add_assoc, RingBuf.data_put_from hs' hq (by omega) (by omega), hpid]

/-- And those of the field `pid`. -/
theorem data_pid (hs : rb.size = 32 * 8192) (n : Nat) (c : Call) {q : Nat} (hq : q < 8192)
    (hk : k < 4) :
    ((rb.put (32 * n + 8) (le32 c.pid)).put (32 * n + 8 + 4) c.code).data (32 * q + (8 + k)) =
      if q = n % 8192 then (le32 c.pid)[k]?.getD (rb.data (32 * q + (8 + k)))
      else rb.data (32 * q + (8 + k)) := by
  have hlen := c.length_code ▸ c.strLen_le
  have hs' : (rb.put (32 * n + 8) (le32 c.pid)).size = 32 * 8192 := hs
  rw [Nat.add_assoc _ 8 4, RingBuf.data_put_record hs' hq (by omega) (by decide) (by omega),
    if_neg (by omega),
    RingBuf.data_put_from hs hq (by omega) (by rw [length_le32]; decide)]

/-- A call that gets a record: there was room for it, and what it has changed in the ring. -/
structure Filled (s : State) (c : Call) (rb : RingBuf) : Prop where
  room : s.calls.length + 1 < s.printed.length + 8192
  size : rb.size = 32 * 8192
  prod : rb.prod = 32 * (s.calls.length + 1)
  cons : rb.cons = 32 * s.printed.length
  code : ∀ q < 8192, ∀ k < 16, rb.data (32 * q + (12 + k)) =
    if q = s.calls.length % 8192 then c.code[k]?.getD (s.rb.data (32 * q + (12 + k)))
    else s.rb.data (32 * q + (12 + k))
  pid : ∀ q < 8192, ∀ k < 4, rb.data (32 * q + (8 + k)) =
    if q = s.calls.length % 8192 then (le32 c.pid)[k]?.getD (s.rb.data (32 * q + (8 + k)))
    else s.rb.data (32 * q + (8 + k))

theorem uprobeFetchStock_filled (hi : Inv s) (h : uprobeFetchStock s.rb c = some rb) :
    Filled s c rb := by
  unfold uprobeFetchStock RingBuf.reserve at h
  split at h
  · next hlt =>
    have hle := hi.le
    rw [hi.size, hi.prod, hi.cons] at hlt
    simp only [sizeofEvent, recordLen] at hlt
    rw [Option.map_some, Option.some.injEq, hi.prod] at h
    subst h
    refine ⟨by omega, hi.size, rfl, hi.cons, ?_, ?_⟩
    · exact fun q hq k hk => data_code hi.size _ c hq hk
    · exact fun q hq k hk => data_pid hi.size _ c hq hk
  · cases h

theorem inv_call (hi : Inv s) (hc : 0 ∉ c.arg) (hf : Filled s c rb) :
    Inv { s with rb := rb, calls := s.calls ++ [c] } := by
  have hle := hi.le
  have hroom := hf.room
  have hsnoc : (s.calls ++ [c]).length = s.calls.length + 1 := by
    rw [List.length_append, List.length_singleton]
  have hmod : ∀ i, i % 8192 < 8192 := fun i => Nat.mod_lt i (by decide)
  refine ⟨hf.size, ?_, hf.cons, ?_, ?_, ?_, ?_, ?_, ?_⟩ <;> dsimp only
  · rw [hsnoc, hf.prod]
  · omega
  · omega
  · intro d hd
    rcases List.mem_append.mp hd with hd | hd
    · exact hi.free d hd
    · exact List.mem_singleton.mp hd ▸ hc
  · intro i hge hlt k hk
    rw [hsnoc] at hge hlt
    rw [hf.code _ (hmod i) k hk]
    by_cases hin : i = s.calls.length + 8192
    · -- the place of the new record
      have hfound := hi.found s.calls.length (Nat.le_refl _) (by omega) k hk
      subst hin
      rw [if_pos (by omega), Nat.add_mod_right, hfound, content_next (by rw [hsnoc]; omega),
        content_snoc_self, getD_overlay]
    · have hne : i % 8192 ≠ s.calls.length % 8192 := by omega
      rw [if_neg hne, content_snoc _ c (.inr hne), hi.found i (by omega) (by omega) k hk]
  · intro i d hge hd k hk
    rw [hf.pid _ (hmod i) k hk]
    by_cases hin : i = s.calls.length
    · subst hin
      obtain rfl : c = d := Option.some.inj (List.getElem?_concat_length.symm.trans hd)
      rw [if_pos rfl, List.getElem?_eq_getElem (show k < (le32 c.pid).length from hk)]
      rfl
    · have hlt : i < (s.calls ++ [c]).length := (List.getElem?_eq_some_iff.mp hd).1
      rw [hsnoc] at hlt
      rw [List.getElem?_append_left (by omega)] at hd
      rw [if_neg (by omega), hi.pids i d hge hd k hk]
  · intro i d hlt hd
    rw [List.getElem?_append_left (by omega)] at hd
    rw [content_snoc _ c (.inl (by omega))]
    exact hi.printed i d hlt hd

/-- The field `stock_code` of the next record: what is in its place, and zeros. -/
theorem Inv.get_code (hi : Inv s) (hlt : s.printed.length < s.calls.length) :
    s.rb.get (32 * s.printed.length + 8 + 4) 16 =
      content s.calls s.printed.length ++
        List.replicate (16 - (content s.calls s.printed.length).length) 0 := by
  have hroom := hi.room
  apply List.ext_getElem?
  intro k
  by_cases hk : k < 16
  · have hfound := hi.found (s.printed.length + 8192) (by omega) (by omega) k hk
    rw [content_next (by omega), Nat.add_mod_right] at hfound
    rw [Nat.add_assoc, RingBuf.getElem?_get_record hi.size hk (by omega), hfound,
      List.getElem?_append]
    split
    · next hkl => rw [List.getElem?_eq_getElem hkl, Option.getD_some]
    · next hkl =>
      have hnone : (content s.calls s.printed.length)[k]? = none :=
        List.getElem?_eq_none (by omega)
      rw [hnone, Option.getD_none, List.getElem?_replicate, if_pos (by omega)]
  · have hlen : (content s.calls s.printed.length).length ≤ 15 := length_content_le s.calls _
    rw [List.getElem?_eq_none (by rw [RingBuf.length_get]; omega), List.getElem?_eq_none]
    rw [List.length_append, List.length_replicate]
    omega

theorem Inv.get_pid (hi : Inv s) (hc : s.calls[s.printed.length]? = some c) :
    s.rb.get (32 * s.printed.length + 8) 4 = le32 c.pid := by
  apply List.ext_getElem?
  intro k
  by_cases hk : k < 4
  · rw [RingBuf.getElem?_get_record hi.size hk (by omega), hi.pids _ c (Nat.le_refl _) hc k hk,
      List.getElem?_eq_getElem (show k < (le32 c.pid).length from hk), Option.getD_some]
  · rw [List.getElem?_eq_none (by rw [RingBuf.length_get]; omega),
      List.getElem?_eq_none (by rw [length_le32]; omega)]

/-- What is printed for the next record. -/
theorem Inv.handleEvent_eq (hi : Inv s) (hlt : s.printed.length < s.calls.length)
    (hc : s.calls[s.printed.length]? = some c) :
    handleEvent s.rb (32 * s.printed.length + 8) =
      some ⟨c.pid, content s.calls s.printed.length⟩ := by
  have hlen : (content s.calls s.printed.length).length ≤ 15 := length_content_le s.calls _
  have hfree : ∀ b ∈ content s.calls s.printed.length, b ≠ 0 := by
    rintro b hb rfl
    obtain ⟨d, hd, hb⟩ := mem_content hb
    exact hi.free d hd hb
  obtain ⟨m, hm⟩ : ∃ m, 16 - (content s.calls s.printed.length).length = m + 1 :=
    Nat.exists_eq_succ_of_ne_zero (by omega)
  unfold handleEvent
  rw [hi.get_code hlt, hi.get_pid hc, hm, List.replicate_succ, ofLe32_le32, printStr,
    if_pos (List.mem_append_right _ List.mem_cons_self), cstr_append_zero hfree]
  rfl

theorem inv_poll (hi : Inv s) {data : Nat} (h : s.rb.consume sizeofEvent = some (data, rb)) :
    Inv { s with rb := rb, printed := s.printed ++ [handleEvent rb data] } := by
  unfold RingBuf.consume at h
  split at h
  · next hlt =>
    rw [hi.cons, hi.prod] at hlt
    have hlt : s.printed.length < s.calls.length := by omega
    have hroom := hi.room
    have hsnoc : ∀ r, (s.printed ++ [r]).length = s.printed.length + 1 := fun r => by
      rw [List.length_append, List.length_singleton]
    cases h
    refine ⟨hi.size, hi.prod, ?_, ?_, ?_, hi.free, hi.found, ?_, ?_⟩ <;> dsimp only <;>
      rw [hsnoc]
    · rw [hi.cons]
      rfl
    · omega
    · omega
    · exact fun i c hle hc => hi.pids i c (by omega) hc
    · intro i c hle hc
      by_cases hin : i = s.printed.length
      · subst hin
        rw [List.getElem?_concat_length, hi.cons]
        exact congrArg some (hi.handleEvent_eq hlt hc)
      · rw [List.getElem?_append_left (by omega)]
        exact hi.printed i c (by omega) hc
  · cases h

theorem inv_step (hi : Inv s) {a : Act} (ha : a.NulFree) (hs : step s a = some s') : Inv s' := by
  cases a with
  | call c =>
    simp only [step] at hs
    split at hs
    · cases hs
      exact hi
    · next rb h =>
      cases hs
      exact inv_call hi ha (uprobeFetchStock_filled hi h)
  | poll =>
    simp only [step] at hs
    split at hs
    · cases hs
      exact hi
    · next data rb h =>
      cases hs
      exact inv_poll hi h

theorem run_spec {acts : List Act} (hn : ∀ a ∈ acts, a.NulFree)
    (hr : run step init acts = some s) : Inv s :=
  run_inv (P := fun _ a => a.NulFree) (fun _ _ _ hi ha hs => inv_step hi ha hs) inv_init
    (along_of_forall (fun _ _ h => h) init acts hn) hr

/-- Everything that is printed: the number of the caller, and what is then in the place of the call. -/
theorem printed_eq {acts : List Act} (hn : ∀ a ∈ acts, a.NulFree)
    (hr : run step init acts = some s) (hi : i < s.printed.length) :
    ∃ c, s.calls[i]? = some c ∧ s.printed[i]? = some (some ⟨c.pid, content s.calls i⟩) := by
  have hinv := run_spec hn hr
  have hlt : i < s.calls.length := Nat.lt_of_lt_of_le hi hinv.le
  exact ⟨s.calls[i], List.getElem?_eq_getElem hlt,
    hinv.printed i _ hi (List.getElem?_eq_getElem hlt)⟩

/-! ## The codes -/

/-- For each call, in order, the first bytes of its string are printed, up to 15 of them. -/
def Exact (s : State) : Prop :=
  s.printed.map (Option.map Report.stockCode) =
    (s.calls.take s.printed.length).map fun c => some (c.arg.take (min c.arg.length 15))

/-- No call that is printed has come into a place after one with a longer code. -/
def NoLonger (s : State) : Prop :=
  ∀ i < s.printed.length, ∀ j < i, j % 8192 = i % 8192 →
    ∀ c ∈ s.calls[i]?, ∀ d ∈ s.calls[j]?, d.strLen ≤ c.strLen

theorem Inv.exact_iff (hi : Inv s) : Exact s ↔ NoLonger s := by
  have hle := hi.le
  have hcode : ∀ n c, n < s.printed.length → s.calls[n]? = some c →
      ((s.printed.map (Option.map Report.stockCode))[n]? =
          ((s.calls.take s.printed.length).map fun c =>
            some (c.arg.take (min c.arg.length 15)))[n]? ↔
        ∀ j < n, j % 8192 = n % 8192 → ∀ d ∈ s.calls[j]?, d.strLen ≤ c.strLen) := by
    intro n c hn hc
    rw [List.getElem?_map, hi.printed n c hn hc, List.getElem?_map, List.getElem?_take_of_lt hn, hc,
      ← content_eq_code_iff hc, Call.code_eq]
    simp
  constructor
  · intro h n hn j hj hjn c hc
    exact (hcode n c hn hc).mp (congrArg (fun l => l[n]?) h) j hj hjn
  · intro h
    apply List.ext_getElem?
    intro n
    by_cases hn : n < s.printed.length
    · have hc : s.calls[n]? = some s.calls[n] := List.getElem?_eq_getElem (by omega)
      exact (hcode n _ hn hc).mpr fun j hj hjn => h n hn j hj hjn _ hc
    · rw [List.getElem?_eq_none (by rw [List.length_map]; omega), List.getElem?_eq_none]
      rw [List.length_map, List.length_take]
      omega

/-! ## Calls that are printed one by one -/

/-- Each call is printed before the next. -/
def oneByOne (cs : List Call) : List Act := cs.flatMap fun c => [.call c, .poll]

theorem uprobeFetchStock_room (hi : Inv s) (hroom : s.calls.length + 1 < s.printed.length + 8192)
    (c : Call) : ∃ rb, uprobeFetchStock s.rb c = some rb := by
  have hle := hi.le
  have hlt : s.rb.prod + recordLen sizeofEvent - s.rb.cons < s.rb.size := by
    rw [hi.size, hi.prod, hi.cons]
    simp only [sizeofEvent, recordLen]
    omega
  unfold uprobeFetchStock RingBuf.reserve
  rw [if_pos hlt]
  exact ⟨_, rfl⟩

theorem run_call_poll (hi : Inv s) (heq : s.printed.length = s.calls.length) (hc : 0 ∉ c.arg) :
    ∃ s', run step s [.call c, .poll] = some s' ∧ Inv s' ∧ s'.calls = s.calls ++ [c] ∧
      s'.printed.length = s.printed.length + 1 := by
  obtain ⟨rb, hrb⟩ := uprobeFetchStock_room hi (by omega) c
  have hcall : step s (.call c) = some { s with rb := rb, calls := s.calls ++ [c] } := by
    simp only [step, hrb]
  have hi' := inv_call hi hc (uprobeFetchStock_filled hi hrb)
  have hlt : rb.cons < rb.prod := by
    rw [hi'.cons, hi'.prod]
    simp only [List.length_append, List.length_singleton]
    omega
  have hpoll : step { s with rb := rb, calls := s.calls ++ [c] } .poll = some
      { rb := { rb with cons := rb.cons + recordLen sizeofEvent }
        printed := s.printed ++
          [handleEvent { rb with cons := rb.cons + recordLen sizeofEvent } (rb.cons + 8)]
        calls := s.calls ++ [c] } := by
    simp only [step, RingBuf.consume, if_pos hlt]
  refine ⟨_, ?_, inv_step (a := .poll) hi' trivial hpoll, rfl, ?_⟩
  · rw [run_cons_eq_some]
    refine ⟨_, hcall, ?_⟩
    rw [run_cons_eq_some]
    exact ⟨_, hpoll, rfl⟩
  · rw [List.length_append, List.length_singleton]

/-- Calls that are printed one by one all find room. -/
theorem run_oneByOne (cs : List Call) (hi : Inv s) (heq : s.printed.length = s.calls.length)
    (hn : ∀ c ∈ cs, 0 ∉ c.arg) :
    ∃ s', run step s (oneByOne cs) = some s' ∧ Inv s' ∧ s'.calls = s.calls ++ cs ∧
      s'.printed.length = s.printed.length + cs.length := by
  induction cs generalizing s with
  | nil => exact ⟨s, rfl, hi, (List.append_nil _).symm, rfl⟩
  | cons c cs ih =>
    rw [List.forall_mem_cons] at hn
    obtain ⟨u, hu, hui, huc, hup⟩ := run_call_poll hi heq hn.1
    have hueq : u.printed.length = u.calls.length := by
      rw [hup, huc, List.length_append, List.length_singleton, heq]
    obtain ⟨t, ht, hti, htc, htp⟩ := ih hui hueq hn.2
    refine ⟨t, run_append_eq_some.mpr ⟨u, hu, ht⟩, hti, ?_, ?_⟩
    · rw [htc, huc, List.append_assoc, List.singleton_append]
    · rw [htp, hup, List.length_cons]
      omega

/-! ## The codes -/

/-- In every run: the codes that are printed are those of the calls if and only if no call that is
    printed has come into a place after one with a longer code. -/
theorem codes_iff (acts : List Act) (hn : ∀ a ∈ acts, a.NulFree) (s : State)
    (hr : run step init acts = some s) : Exact s ↔ NoLonger s :=
  (run_spec hn hr).exact_iff

/-- `600519` 8192 times, and then `000001`, in the place of the first. -/
def freshCalls : List Call := List.replicate 8192 ⟨0, ascii "600519"⟩ ++ [⟨0, ascii "000001"⟩]

theorem codes_iff_round :
    ∃ s, run step init (oneByOne freshCalls) = some s ∧ s.printed.length = 8193 ∧ Exact s := by
  have hcall : ∀ c ∈ freshCalls, 0 ∉ c.arg ∧ c.strLen = 6 := by
    intro c hc
    rcases List.mem_append.mp hc with hc | hc
    · rw [List.eq_of_mem_replicate hc]
      decide
    · rw [List.mem_singleton.mp hc]
      decide
  have hn : ∀ a ∈ oneByOne freshCalls, a.NulFree := by
    intro a ha
    obtain ⟨c, hc, ha⟩ := List.mem_flatMap.mp ha
    rw [List.mem_pair] at ha
    rcases ha with rfl | rfl
    · exact (hcall c hc).1
    · trivial
  obtain ⟨s, hr, hi, hcalls, hlen⟩ := run_oneByOne freshCalls inv_init rfl fun c hc => (hcall c hc).1
  have hcalls : s.calls = freshCalls := hcalls
  refine ⟨s, hr, ?_, (codes_iff _ hn s hr).mpr ?_⟩
  · rw [hlen, freshCalls, List.length_append, List.length_replicate, List.length_singleton]
    rfl
  · intro i _ j _ _ c hc d hd
    rw [hcalls] at hc hd
    rw [(hcall c (List.mem_of_getElem? hc)).2, (hcall d (List.mem_of_getElem? hd)).2]

/-- `600519`, and 8192 calls later `A`, in the same place. -/
def staleCalls : List Call := ⟨0, ascii "600519"⟩ :: List.replicate 8192 ⟨0, ascii "A"⟩

/-- The last of them is printed with the end of the first. -/
theorem stale_code :
    (∀ c ∈ staleCalls, 0 ∉ c.arg) ∧
      ∃ s, run step init (oneByOne staleCalls) = some s ∧ s.calls = staleCalls ∧
        s.printed[8192]? = some (some ⟨0, ascii "A00519"⟩) ∧ ¬ Exact s := by
  have hn : ∀ c ∈ staleCalls, 0 ∉ c.arg := by
    intro c hc
    rcases List.mem_cons.mp hc with rfl | hc
    · decide
    · rw [List.eq_of_mem_replicate hc]
      decide
  obtain ⟨s, hr, hi, hcalls, hlen⟩ := run_oneByOne staleCalls inv_init rfl hn
  have hcalls : s.calls = staleCalls := hcalls
  have hfirst : s.calls[0]? = some ⟨0, ascii "600519"⟩ := by
    rw [hcalls]
    rfl
  have hlast : s.calls[8192]? = some ⟨0, ascii "A"⟩ := by
    rw [hcalls, staleCalls, List.getElem?_cons_succ, List.getElem?_replicate, if_pos (by decide)]
  have hlt : 8192 < s.printed.length := by
    rw [hlen, staleCalls, List.length_cons, List.length_replicate]
    omega
  refine ⟨hn, s, hr, hcalls, ?_, ?_⟩
  · rw [hi.printed 8192 _ hlt hlast, content_of_some hlast, if_neg (by decide), Nat.sub_self,
      content_of_some hfirst, if_pos (by decide)]
    decide
  · rw [hi.exact_iff]
    intro h
    have hle := h 8192 hlt 0 (by decide) (by decide) _ hlast _ hfirst
    exact absurd hle (by decide)

end KernelMagic.FetchStock
