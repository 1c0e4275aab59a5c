/-
  The loop of `aio/aio.c`: one read of a file is under way, `epoll_wait` waits for the `eventfd` that
  announces its end, and `io_getevents` fetches its result. The model begins behind `epoll_ctl`, with all
  calls before it successful; `io_submit` has taken the read.

  A schedule is the steps of the kernel, which first stores the bytes and the result and then signals
  the `eventfd`, the waits that end without an event, and the steps of the program. So the result is
  there when the program asks for it, and `io_getevents` does not block (`read_reported`).

  The file is opened with `O_DIRECT`, so what the read stores is a whole number of sectors, the bytes of
  the file and zeros behind its end. How far they go is up to the file system; most of them fill all of
  the 4096 bytes asked for. The block they go to has 1024; what does not fit is `beyond`. Of the block
  only as many bytes are cleared as a pointer has, and what is read is printed as a string
  (`results_iff`).
-/
import KernelMagic.Lib.CString
import KernelMagic.Lib.Machine

namespace KernelMagic.Aio

open KernelMagic.Lib

/-- `BUF_SIZE`. -/
abbrev bufSize : Nat := 4096

abbrev sectorSize : Nat := 512

/-- What `posix_memalign` is asked for. -/
abbrev blockLen : Nat := 1024

/-- What the loop prints. `none` is a number that has not been set, and a read past the end of the
    block. -/
inductive Line where
  | epollRet (n : Int)
  | readRet (ret : Int) (data : Option Nat)
  | readFailure
  | eventsRet (n : Int)
  | bytesRead (res : Int)
  | results (text : Option (List UInt8))
  deriving DecidableEq

/-- Where the read is: under way, or stored with its result, with the `eventfd` signalled or not yet. -/
inductive Stage where
  | inflight
  | stored (res : Int)
  | signalled (res : Int)
  deriving DecidableEq

/-- The calls of the loop: `epoll_wait`, `read` and `io_getevents`. -/
inductive Pc where
  | wait
  | read
  | fetch
  deriving DecidableEq

/-- `moved` is how many bytes the read has stored, with the zeros. -/
structure State where
  pc : Pc
  stage : Stage
  count : Nat
  events : List Int
  block : List UInt8
  beyond : List UInt8
  moved : Nat
  log : List Line

inductive Act where
  | complete (res : Int) (moved : Nat)
  | signal
  | timeout
  | interrupt
  | prog
  deriving DecidableEq

/-- The block after `memset(buf, 0, sizeof(buf))`. -/
def memset (block : List UInt8) : List UInt8 := List.replicate 8 0 ++ block.drop 8

/-- In front of the loop, with what `posix_memalign` has left in the block. -/
def start (block : List.Vector UInt8 blockLen) : State :=
  ⟨.wait, .inflight, 0, [], memset block.1, [], 0, []⟩

def State.print (s : State) (lines : List Line) : State := { s with log := s.log ++ lines }

/-- What is printed for a result. -/
def report (block : List UInt8) (res : Int) : List Line :=
  .bytesRead res :: if 0 < res then [.results (printStr block)] else []

/-- The next call of the loop; `none` while it blocks. -/
def progStep (s : State) : Option State :=
  match s.pc with
  | .wait => if s.count = 0 then none else some ({ s with pc := .read }.print [.epollRet 1])
  | .read =>
    if s.count = 0 then some ({ s with pc := .wait }.print [.readRet (-1) none, .readFailure])
    else some ({ s with pc := .fetch, count := 0 }.print [.readRet 8 (some s.count)])
  | .fetch =>
    match s.events with
    | [] => none
    | res :: events =>
      some ({ s with pc := .wait, events := events }.print (.eventsRet 1 :: report s.block res))

/-- A direct read that returns `n` has stored `moved` bytes. -/
structure Direct (file : List UInt8) (n moved : Nat) : Prop where
  bytes : (file.take n).length = n
  le : n ≤ moved
  fit : moved ≤ bufSize
  sectors : moved % sectorSize = 0
  /-- Zeros stand behind the end of the file only. -/
  last : n < file.length → moved = n
  empty : n = 0 → moved = 0

instance (file : List UInt8) (n moved : Nat) : Decidable (Direct file n moved) :=
  decidable_of_iff ((file.take n).length = n ∧ n ≤ moved ∧ moved ≤ bufSize ∧
      moved % sectorSize = 0 ∧ (n < file.length → moved = n) ∧ (n = 0 → moved = 0))
    ⟨fun ⟨h1, h2, h3, h4, h5, h6⟩ => ⟨h1, h2, h3, h4, h5, h6⟩,
      fun h => ⟨h.bytes, h.le, h.fit, h.sectors, h.last, h.empty⟩⟩

/-- The bytes that it stores. -/
def direct (file : List UInt8) (n moved : Nat) : List UInt8 :=
  file.take n ++ List.replicate (moved - n) 0

/-- The block after `data` has been stored at its start, as far as it fits. -/
def fill (block data : List UInt8) : List UInt8 := (data ++ block.drop data.length).take blockLen

/-- The kernel completes the read: with an error, or with the number of bytes of the file. -/
def complete (file : List UInt8) (s : State) (res : Int) (moved : Nat) : Option State :=
  if s.stage = .inflight then
    if res < 0 then some { s with stage := .stored res, events := s.events ++ [res] }
    else if Direct file res.toNat moved then
      let data := direct file res.toNat moved
      some { s with
        stage := .stored res
        events := s.events ++ [res]
        block := fill s.block data
        beyond := data.drop blockLen
        moved := moved }
    else none
  else none

def step (file : List UInt8) (s : State) : Act → Option State
  | .complete res moved => complete file s res moved
  | .signal =>
    match s.stage with
    | .stored res => some { s with stage := .signalled res, count := s.count + 1 }
    | _ => none
  | .timeout => if s.pc = .wait ∧ s.count = 0 then some (s.print [.epollRet 0]) else none
  | .interrupt => if s.pc = .wait then some (s.print [.epollRet (-1)]) else none
  | .prog => progStep s

/-! ## The result -/

/-- The lines about results. -/
def shown (log : List Line) : List Line :=
  log.filter fun line => match line with
    | .bytesRead _ | .results _ => true
    | _ => false

/-- What a read with the result `res` has left in the block and behind it. -/
structure Stored (file block : List UInt8) (res : Int) (now beyond : List UInt8) (moved : Nat) :
    Prop where
  error : res < 0 → now = block ∧ beyond = []
  data : 0 ≤ res → Direct file res.toNat moved ∧
    now = fill block (direct file res.toNat moved) ∧
    beyond = (direct file res.toNat moved).drop blockLen

/-- How far the read and the loop are, and what there is to be fetched. -/
inductive Inv (file block : List UInt8) (s : State) : Prop
  | inflight (hst : s.stage = .inflight) (hblock : s.block = block ∧ s.beyond = [])
      (hev : s.events = []) (hcount : s.count = 0) (hpc : s.pc = .wait) (hlog : shown s.log = [])
  | stored (res : Int) (hst : s.stage = .stored res)
      (hd : Stored file block res s.block s.beyond s.moved) (hev : s.events = [res])
      (hcount : s.count = 0) (hpc : s.pc = .wait) (hlog : shown s.log = [])
  | signalled (res : Int) (hst : s.stage = .signalled res)
      (hd : Stored file block res s.block s.beyond s.moved) (hev : s.events = [res])
      (hcount : s.count = 1) (hpc : s.pc = .wait ∨ s.pc = .read) (hlog : shown s.log = [])
  | fetching (res : Int) (hst : s.stage = .signalled res)
      (hd : Stored file block res s.block s.beyond s.moved) (hev : s.events = [res])
      (hcount : s.count = 0) (hpc : s.pc = .fetch) (hlog : shown s.log = [])
  | reported (res : Int) (hst : s.stage = .signalled res)
      (hd : Stored file block res s.block s.beyond s.moved) (hev : s.events = [])
      (hcount : s.count = 0) (hpc : s.pc = .wait) (hlog : shown s.log = report s.block res)

variable {file block : List UInt8} {s s' : State} {a : Act} {res : Int}

theorem shown_print (s : State) (lines : List Line) :
    shown (s.print lines).log = shown s.log ++ shown lines := List.filter_append _ _

theorem shown_report (block : List UInt8) (res : Int) :
    shown (.eventsRet 1 :: report block res) = report block res := by
  unfold shown report
  split <;> rfl

theorem inv_start (file : List UInt8) (block : List.Vector UInt8 blockLen) :
    Inv file (memset block.1) (start block) := .inflight rfl ⟨rfl, rfl⟩ rfl rfl rfl rfl

/-! ## One step -/

theorem complete_inv {moved : Nat} (hi : Inv file block s)
    (h : complete file s res moved = some s') :
    Inv file block s' := by
  unfold complete at h
  split at h
  case isFalse => cases h
  next hin =>
  obtain ⟨-, hblock, hev, hcount, hpc, hlog⟩ | ⟨_, hst⟩ | ⟨_, hst⟩ | ⟨_, hst⟩ | ⟨_, hst⟩ := hi
  · have hone : s.events ++ [res] = [res] := by rw [hev, List.nil_append]
    split at h
    · next hneg =>
      cases h
      exact .stored res rfl ⟨fun _ => hblock, fun h0 => absurd hneg (Int.not_lt.mpr h0)⟩ hone hcount
        hpc hlog
    · next hpos =>
      split at h
      · next hdirect =>
        cases h
        refine .stored res rfl ⟨fun hneg => absurd hneg hpos, fun _ => ⟨hdirect, ?_, rfl⟩⟩ hone hcount
          hpc hlog
        rw [← hblock.1]
      · cases h
  all_goals
    rw [hin] at hst
    cases hst

theorem signal_inv (hi : Inv file block s) (h : step file s .signal = some s') :
    Inv file block s' := by
  simp only [step] at h
  split at h
  case h_2 => cases h
  next res hin =>
  cases h
  obtain ⟨hst⟩ | ⟨res', hst, hd, hev, hcount, hpc, hlog⟩ | ⟨_, hst⟩ | ⟨_, hst⟩ | ⟨_, hst⟩ := hi
  case stored =>
    obtain rfl : res = res' := Stage.stored.inj (hin.symm.trans hst)
    exact .signalled res rfl hd hev (by rw [hcount]) (.inl hpc) hlog
  all_goals
    rw [hin] at hst
    cases hst

/-- A line about no result changes nothing else. -/
theorem Inv.print (hi : Inv file block s) {line : Line} (hl : shown [line] = []) :
    Inv file block (s.print [line]) := by
  have hsame : shown (s.print [line]).log = shown s.log := by
    rw [shown_print, hl, List.append_nil]
  cases hi with
  | inflight hst hblock hev hcount hpc hlog =>
    exact .inflight hst hblock hev hcount hpc (hsame.trans hlog)
  | stored res hst hd hev hcount hpc hlog =>
    exact .stored res hst hd hev hcount hpc (hsame.trans hlog)
  | signalled res hst hd hev hcount hpc hlog =>
    exact .signalled res hst hd hev hcount hpc (hsame.trans hlog)
  | fetching res hst hd hev hcount hpc hlog =>
    exact .fetching res hst hd hev hcount hpc (hsame.trans hlog)
  | reported res hst hd hev hcount hpc hlog =>
    exact .reported res hst hd hev hcount hpc (hsame.trans hlog)

/-- The program blocks in `epoll_wait`, when the `eventfd` has not been signalled since the last look. -/
theorem Inv.blocked_iff (hi : Inv file block s) : progStep s = none ↔ s.pc = .wait ∧ s.count = 0 := by
  cases hi with
  | inflight hst hblock hev hcount hpc hlog =>
    exact iff_of_true (by simp [progStep, hpc, hcount]) ⟨hpc, hcount⟩
  | stored res hst hd hev hcount hpc hlog =>
    exact iff_of_true (by simp [progStep, hpc, hcount]) ⟨hpc, hcount⟩
  | signalled res hst hd hev hcount hpc hlog =>
    refine iff_of_false ?_ fun h => by simp [hcount] at h
    rcases hpc with hpc | hpc <;> simp [progStep, hpc, hcount]
  | fetching res hst hd hev hcount hpc hlog =>
    exact iff_of_false (by simp [progStep, hpc, hev]) fun h => by simp [hpc] at h
  | reported res hst hd hev hcount hpc hlog =>
    exact iff_of_true (by simp [progStep, hpc, hcount]) ⟨hpc, hcount⟩

/-- A signalled read takes the program through its three calls, once. -/
theorem prog_inv (hi : Inv file block s) (h : progStep s = some s') : Inv file block s' := by
  have hsome : ¬ (s.pc = .wait ∧ s.count = 0) := by
    rw [← hi.blocked_iff, h]
    exact Option.some_ne_none s'
  cases hi with
  | inflight hst hblock hev hcount hpc hlog => exact absurd ⟨hpc, hcount⟩ hsome
  | stored res hst hd hev hcount hpc hlog => exact absurd ⟨hpc, hcount⟩ hsome
  | signalled res hst hd hev hcount hpc hlog =>
    rcases hpc with hpc | hpc
    · simp only [progStep, hpc, hcount, Nat.one_ne_zero, if_false, Option.some.injEq] at h
      subst h
      refine .signalled res hst hd hev rfl (.inr rfl) ?_
      rw [shown_print, hlog]
      rfl
    · simp only [progStep, hpc, hcount, Nat.one_ne_zero, if_false, Option.some.injEq] at h
      subst h
      refine .fetching res hst hd hev rfl rfl ?_
      rw [shown_print, hlog]
      rfl
  | fetching res hst hd hev hcount hpc hlog =>
    simp only [progStep, hpc, hev, Option.some.injEq] at h
    subst h
    refine .reported res hst hd rfl hcount rfl ?_
    rw [shown_print, hlog, shown_report, List.nil_append]
    rfl
  | reported res hst hd hev hcount hpc hlog => exact absurd ⟨hpc, hcount⟩ hsome

theorem inv_step (hi : Inv file block s) (h : step file s a = some s') : Inv file block s' := by
  cases a with
  | complete res moved => exact complete_inv hi h
  | signal => exact signal_inv hi h
  | timeout =>
    simp only [step] at h
    split at h
    · cases h
      exact hi.print rfl
    · cases h
  | interrupt =>
    simp only [step] at h
    split at h
    · cases h
      exact hi.print rfl
    · cases h
  | prog => exact prog_inv hi h

theorem inv_run {block : List.Vector UInt8 blockLen} {acts : List Act}
    (hr : run (step file) (start block) acts = some s) : Inv file (memset block.1) s :=
  run_keeps hr (inv_start file block) fun _ _ _ hi h => inv_step hi h

/-! ## Runs -/

/-- What the read has left, whichever step it has been followed by. -/
theorem Inv.of_signalled (hi : Inv file block s) (hs : s.stage = .signalled res) :
    Stored file block res s.block s.beyond s.moved := by
  cases hi with
  | inflight hst hblock hev hcount hpc hlog =>
    rw [hs] at hst
    cases hst
  | stored res' hst hd hev hcount hpc hlog =>
    rw [hs] at hst
    cases hst
  | _ res' hst hd hev hcount hpc hlog =>
    obtain rfl : res = res' := Stage.signalled.inj (hs.symm.trans hst)
    exact hd

/-! ## The text -/

theorem length_memset (block : List.Vector UInt8 blockLen) : (memset block.1).length = blockLen := by
  rw [memset, List.length_append, List.length_replicate, List.length_drop, block.2]
  rfl

/-- What a read that stays within the block leaves there. -/
theorem fill_direct {n moved : Nat} (hd : Direct file n moved) (hlen : block.length = blockLen)
    (hfit : moved ≤ blockLen) :
    fill block (direct file n moved) =
      file.take n ++ (List.replicate (moved - n) 0 ++ block.drop moved) := by
  have hle := hd.le
  have hmoved : (direct file n moved).length = moved := by
    rw [direct, List.length_append, hd.bytes, List.length_replicate]
    omega
  have hall : (direct file n moved ++ block.drop moved).length = blockLen := by
    rw [List.length_append, hmoved, List.length_drop, hlen]
    omega
  rw [fill, hmoved, List.take_of_length_le (Nat.le_of_eq hall), direct, List.append_assoc]

/-- The byte behind the bytes of the file: a zero of the last sector, or what `posix_memalign` has left
    there; a whole sector is more than `memset` clears. -/
theorem head?_behind {n moved : Nat} (hd : Direct file n moved) (hpos : 0 < n) (block : List UInt8) :
    (List.replicate (moved - n) 0 ++ (memset block).drop moved).head? = some 0 ↔
      n < moved ∨ block[n]? = some 0 := by
  have hle := hd.le
  by_cases hlt : n < moved
  · rw [List.head?_append_of_ne_nil _ (by simp; omega), List.head?_replicate, if_neg (by omega)]
    exact iff_of_true rfl (.inl hlt)
  · obtain rfl : n = moved := by omega
    have hsector := hd.sectors
    unfold sectorSize at hsector
    rw [Nat.sub_self, List.replicate_zero, List.nil_append, List.head?_drop, memset,
      List.getElem?_append_right (by rw [List.length_replicate]; omega), List.length_replicate,
      List.getElem?_drop, Nat.add_sub_cancel' (by omega), or_iff_right hlt]

/-- **The text.** In every run in which bytes of the file have been read, what the read has stored is
    within the block if and only if it is at most 1024 bytes with the zeros of its last sector; and then
    what is printed is the string that the bytes of the file are if and only if there is a NUL among
    them, or such a zero, or `posix_memalign` has left a NUL right behind them. -/
theorem results_iff (file : List UInt8) (block : List.Vector UInt8 blockLen) (acts : List Act)
    (s : State) (res : Int) (hr : run (step file) (start block) acts = some s)
    (hs : s.stage = .signalled res) (h0 : 0 < res) :
    Direct file res.toNat s.moved ∧ (s.beyond = [] ↔ s.moved ≤ blockLen) ∧ (s.moved ≤ blockLen →
      (printStr s.block = some (cstr (file.take res.toNat)) ↔
        0 ∈ file.take res.toNat ∨ res.toNat < s.moved ∨ block.1[res.toNat]? = some 0)) := by
  obtain ⟨hd, hblock, hbeyond⟩ := ((inv_run hr).of_signalled hs).data (Int.le_of_lt h0)
  have hle := hd.le
  refine ⟨hd, ?_, fun hfit => ?_⟩
  · rw [hbeyond, List.drop_eq_nil_iff, direct, List.length_append, hd.bytes, List.length_replicate,
      Nat.add_sub_cancel' hle]
  · rw [hblock, fill_direct hd (length_memset block) hfit, printStr_append_eq_iff,
      head?_behind hd (by omega)]

/-- A file of nine bytes, a wait that ends before the read does, and a block that has been used. The
    file system has blocks of a sector. -/
def nineBytes : List Act :=
  [.timeout, .complete 9 512, .timeout, .signal, .prog, .prog, .prog, .timeout]

def used : List.Vector UInt8 blockLen := ⟨List.replicate blockLen 120, List.length_replicate⟩

/-- The nine bytes are printed as they are. Where all that was asked for is filled, the zeros go beyond
    the block. -/
theorem results_nineBytes :
    (∃ s, run (step (ascii "some text")) (start used) nineBytes = some s ∧ s.beyond = [] ∧
      printStr s.block = some (ascii "some text")) ∧
    ∃ s, run (step (ascii "some text")) (start used) [.complete 9 4096, .signal] = some s ∧
      s.beyond ≠ [] := by
  have hrun : (run (step (ascii "some text")) (start used) nineBytes).map
      (fun s => (s.stage, s.moved)) = some (.signalled 9, 512) := by decide +kernel
  obtain ⟨s, hs, he⟩ := Option.map_eq_some_iff.mp hrun
  obtain ⟨hst, hmoved⟩ := Prod.mk.inj he
  have hrun' : (run (step (ascii "some text")) (start used) [.complete 9 4096, .signal]).map
      (fun s => (s.stage, s.moved)) = some (.signalled 9, 4096) := by decide +kernel
  obtain ⟨t, ht, he'⟩ := Option.map_eq_some_iff.mp hrun'
  obtain ⟨hst', hmoved'⟩ := Prod.mk.inj he'
  obtain ⟨-, hin, htext⟩ := results_iff (ascii "some text") used nineBytes s 9 hs hst (by decide)
  obtain ⟨-, hin', -⟩ := results_iff (ascii "some text") used _ t 9 ht hst' (by decide)
  rw [hmoved] at hin htext
  rw [hmoved'] at hin'
  have hall : cstr ((ascii "some text").take (9 : Int).toNat) = ascii "some text" := by decide
  refine ⟨⟨s, hs, hin.mpr (by decide), ?_⟩, t, ht, fun h => absurd (hin'.mp h) (by decide)⟩
  rw [← hall]
  exact (htext (by decide)).mpr (.inr (.inl (by decide)))

end KernelMagic.Aio
