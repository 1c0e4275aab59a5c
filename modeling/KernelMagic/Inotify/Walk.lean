/-
  The loops visit the records of the events, one for one and at their starts.

  Where a record starts is decided by the `len` fields of all records in front of it. At the start of a
  record with the records `es` behind it, the loop reads the length that was written there, so its next
  turn is at the start of the first of `es` (`visits_encode`). With at most 4096 bytes the `int` does not
  wrap around.
-/
import KernelMagic.Inotify.Main

namespace KernelMagic.Inotify

open KernelMagic.Lib

/-- The event of the record at `events[offset]`. -/
def eventAt (events : List UInt8) (offset : Int) : Option Event := do
  let wd ← field events offset 0
  let mask ← field events offset 4
  let cookie ← field events offset 8
  let len ← field events offset 12
  return ⟨wd, mask, cookie, (events.drop (offset.toNat + sizeofEvent)).take len.toNat⟩

/-- The starts of the records of a list of events. -/
def recordStarts (es : List Event) : List Int :=
  (starts (fun e => e.encode.length) 0 es).map fun p : Nat => (p : Int)

/-- The loop has displayed the records of `es` and nothing else: each once and in order, with its header
    inside the bytes that were read; and it has come to their end. -/
structure Walked (es : List Event) (events : List UInt8) (offsets : List Int) (last : Int) : Prop where
  starts : offsets = recordStarts es
  inside : ∀ o ∈ offsets, 0 ≤ o ∧ o + sizeofEvent ≤ (encode es).length
  decoded : offsets.map (eventAt events) = es.map some
  last : last = (encode es).length

/-! ## One record -/

variable {events pre rest : List UInt8} {e : Event} {es : List Event}

theorem length_encode (e : Event) : e.encode.length = sizeofEvent + e.name.length := by
  simp only [Event.encode, List.length_append, length_bytes32]
  rw [← Nat.add_assoc, ← Nat.add_assoc, ← Nat.add_assoc]

theorem encode_cons (e : Event) (es : List Event) : encode (e :: es) = e.encode ++ encode es := by
  rw [encode, List.map_cons, List.flatten_cons, encode]

theorem length_encode_pos (hne : es ≠ []) : 0 < (encode es).length := by
  obtain ⟨e, es, rfl⟩ := List.exists_cons_of_ne_nil hne
  rw [encode_cons, List.length_append, length_encode, Nat.add_assoc]
  exact Nat.lt_add_right _ (by decide)

theorem length_encode_eq (es : List Event) :
    (encode es).length = (es.map fun e => e.encode.length).sum := by
  rw [encode, List.length_flatten, List.map_map]
  rfl

/-- The header of a record is read as it was written. -/
theorem field_encode (h : events = pre ++ (e.encode ++ rest)) :
    field events pre.length 0 = some e.wd ∧ field events pre.length 4 = some e.mask ∧
      field events pre.length 8 = some e.cookie ∧
      field events pre.length 12 = some (UInt32.ofNat e.name.length) := by
  have hpos : (0 : Int) ≤ pre.length := Int.natCast_nonneg _
  have hev : events = pre ++ (bytes32 e.wd ++ (bytes32 e.mask ++ (bytes32 e.cookie ++
      (bytes32 (UInt32.ofNat e.name.length) ++ (e.name ++ rest))))) := by
    rw [h, Event.encode]
    simp only [List.append_assoc]
  -- the same bytes, split in front of each number
  have h4 := hev
  rw [← List.append_assoc] at h4
  have h8 := h4
  rw [← List.append_assoc] at h8
  have h12 := h8
  rw [← List.append_assoc] at h12
  unfold field
  simp only [if_pos hpos, Int.toNat_natCast]
  refine ⟨load32_bytes32 hev rfl, load32_bytes32 h4 ?_, load32_bytes32 h8 ?_,
    load32_bytes32 h12 ?_⟩
  · simp only [List.length_append, length_bytes32]
  · simp only [List.length_append, length_bytes32]
  · simp only [List.length_append, length_bytes32]

/-- The bytes behind the header. -/
theorem drop_header (h : events = pre ++ (e.encode ++ rest)) :
    events.drop (pre.length + sizeofEvent) = e.name ++ rest := by
  have hsplit : e.encode = (bytes32 e.wd ++ (bytes32 e.mask ++ (bytes32 e.cookie ++
      bytes32 (UInt32.ofNat e.name.length)))) ++ e.name := by
    rw [Event.encode]
    simp only [List.append_assoc]
  rw [h, hsplit, List.append_assoc, ← List.append_assoc pre]
  exact List.drop_left' (by simp only [List.length_append, length_bytes32])

/-- A record is decoded to its event. -/
theorem eventAt_encode (h : events = pre ++ (e.encode ++ rest)) (hlen : e.name.length < 2 ^ 32) :
    eventAt events pre.length = some e := by
  obtain ⟨hwd, hmask, hcookie, hl⟩ := field_encode h
  have hname : (events.drop (pre.length + sizeofEvent)).take e.name.length = e.name := by
    rw [drop_header h, List.take_left]
  unfold eventAt
  simp only [hwd, hmask, hcookie, hl, Option.bind_eq_bind, Option.bind_some, Option.pure_def,
    Int.toNat_natCast, UInt32.toNat_ofNat_of_lt' hlen, hname]

/-- From the start of a record the loop goes on at its end. -/
theorem nextOffset_encode (h : events = pre ++ (e.encode ++ rest))
    (hfit : (pre ++ e.encode).length ≤ eventsBufSize) :
    nextOffset events pre.length = some ↑(pre ++ e.encode).length := by
  have hend : (pre ++ e.encode).length = pre.length + (sizeofEvent + e.name.length) := by
    rw [List.length_append, length_encode]
  have hlen : e.name.length < 2 ^ 32 := by
    unfold eventsBufSize at hfit
    omega
  unfold nextOffset
  rw [(field_encode h).2.2.2, Option.map_some, UInt32.toNat_ofNat_of_lt' hlen, ← Nat.cast_add, ← hend,
    Int.bmod_eq_of_le]
  · omega
  · unfold eventsBufSize at hfit
    omega

/-! ## All records -/

/-- At the start of records that lie up to the end of what was read, the loop visits their starts. -/
theorem visits_encode {n : Nat} (h : events = pre ++ (encode es ++ rest))
    (hn : n = (pre ++ encode es).length) (hfit : n ≤ eventsBufSize) :
    Visits (fun o : Int => decide (o < n)) (nextOffset events) pre.length
      ((starts (fun e => e.encode.length) pre.length es).map fun p : Nat => (p : Int)) n := by
  induction es generalizing pre with
  | nil =>
    have hend : n = pre.length := by rw [hn, encode, List.map_nil, List.flatten_nil, List.append_nil]
    rw [hend]
    exact .stop (decide_eq_false (Int.lt_irrefl _))
  | cons e es ih =>
    rw [encode_cons, List.append_assoc] at h
    rw [encode_cons, ← List.append_assoc] at hn
    have hnext : (pre ++ e.encode).length ≤ n := by
      rw [hn]
      exact (List.prefix_append _ _).length_le
    have hpos : 0 < e.encode.length := by
      rw [length_encode]
      exact Nat.lt_add_right _ (by decide)
    have hlt : pre.length < n := by
      rw [List.length_append] at hnext
      omega
    have h' : events = (pre ++ e.encode) ++ (encode es ++ rest) := by rw [h, List.append_assoc]
    have hv := ih h' hn
    rw [List.length_append] at hv
    refine .turn (decide_eq_true (Int.ofNat_lt.mpr hlt)) ?_ hv
    rw [← List.length_append]
    exact nextOffset_encode h (hnext.trans hfit)

/-- What holds at the start of each record holds along the walk. -/
theorem map_recordStarts {β : Type} {f : Int → β} {g : Event → β} (h : events = pre ++ (encode es ++ rest))
    (hf : ∀ e ∈ es, ∀ pre rest, events = pre ++ (e.encode ++ rest) → f pre.length = g e) :
    ((starts (fun e => e.encode.length) pre.length es).map fun p : Nat => (p : Int)).map f =
      es.map g := by
  induction es generalizing pre with
  | nil => rfl
  | cons e es ih =>
    rw [encode_cons, List.append_assoc] at h
    have hhead := hf e List.mem_cons_self pre _ h
    have h' : events = (pre ++ e.encode) ++ (encode es ++ rest) := by rw [h, List.append_assoc]
    have htail := ih h' fun e' he' => hf e' (List.mem_cons_of_mem e he')
    rw [List.length_append] at htail
    rw [starts, List.map_cons, List.map_cons, List.map_cons, hhead, htail]

/-- The records begin at the start of the array. -/
theorem readEvents_eq (events data : List UInt8) :
    readEvents events data = [] ++ (data ++ events.drop data.length) := rfl

/-- A name is no longer than what was read. -/
theorem length_name_lt (hfit : (encode es).length ≤ eventsBufSize) (he : e ∈ es) :
    e.name.length < 2 ^ 32 := by
  have hle : e.encode.length ≤ (encode es).length := by
    rw [length_encode_eq]
    exact List.le_sum_of_mem (List.mem_map_of_mem he)
  rw [length_encode] at hle
  unfold eventsBufSize at hfit
  omega

/-- The loop comes to its end, and has done what it should. -/
theorem recordLoop_encode (events : List UInt8) (hfit : (encode es).length ≤ eventsBufSize)
    {fuel : Nat} (hf : es.length < fuel) :
    recordLoop (readEvents events (encode es)) (encode es).length fuel =
        some (recordStarts es, ((encode es).length : Int)) ∧
      Walked es (readEvents events (encode es)) (recordStarts es) (encode es).length := by
  have hev := readEvents_eq events (encode es)
  have hv := visits_encode hev rfl hfit
  constructor
  · refine hv.walk_eq ?_
    rw [List.length_map, length_starts]
    exact hf
  · refine ⟨rfl, fun o ho => ?_, ?_, rfl⟩
    · obtain ⟨p, hp, rfl⟩ := List.mem_map.mp ho
      obtain ⟨e, -, -, hend⟩ := mem_starts hp
      rw [← length_encode_eq, length_encode] at hend
      exact ⟨Int.natCast_nonneg p, by omega⟩
    · exact map_recordStarts hev fun e he pre rest h => eventAt_encode h (length_name_lt hfit he)

/-- In both programs the loop decodes exactly the list of events that was encoded. -/
theorem record_walk (events : List UInt8) (es : List Event)
    (hfit : (encode es).length ≤ eventsBufSize) (fuel : Nat) (hf : es.length < fuel) :
    ∃ offsets last,
      inotifyLoop (readEvents events (encode es)) (encode es).length fuel = some (offsets, last) ∧
      inotifyEpollLoop (readEvents events (encode es)) (encode es).length fuel =
        some (offsets, last) ∧
      Walked es (readEvents events (encode es)) offsets last := by
  obtain ⟨hwalk, hwalked⟩ := recordLoop_encode events hfit hf
  exact ⟨_, _, hwalk, hwalk, hwalked⟩

/-- A file is created, the directory itself is read, and a second file is closed: names of 16, 0 and
    32 bytes. -/
def mixed : List Event :=
  [⟨1, 0x100, 0, ascii "a" ++ List.replicate 15 0⟩, ⟨1, 0x1, 0, []⟩,
    ⟨1, 0x8, 0, ascii "a-longer-name.txt" ++ List.replicate 15 0⟩]

theorem record_walk_mixed :
    ∃ offsets last,
      inotifyLoop (readEvents cleared (encode mixed)) (encode mixed).length 4 = some (offsets, last) ∧
      inotifyEpollLoop (readEvents cleared (encode mixed)) (encode mixed).length 4 =
        some (offsets, last) ∧
      Walked mixed (readEvents cleared (encode mixed)) offsets last :=
  record_walk cleared mixed (by decide) 4 (by decide)

/-! ## The lines -/

/-- The name that is displayed begins behind the header; without a name it is what follows the record. -/
theorem displayEvent_eq (base : List UInt8) (h : events = pre ++ (e.encode ++ rest)) :
    displayEvent base events pre.length =
      (operate e.mask).bind fun op => (printStr (e.name ++ rest)).map fun name => line base name op := by
  unfold displayEvent
  rw [Int.toNat_natCast, drop_header h, (field_encode h).2.1]
  simp only [Option.map_eq_bind]
  rfl

/-- With the descriptor 0 nothing is read. -/
theorem epollLoop_zero (base events : List UInt8) (fuel : Nat) (reads : List (Option (List UInt8))) :
    epollLoop base 0 events fuel reads = some [] := by
  induction reads with
  | nil => rfl
  | cons read reads ih =>
    match read with
    | none => exact ih
    | some data => exact ih

end KernelMagic.Inotify
