/-
  `inotify/inotify.c` and `inotify/inotify_epoll.c`, which display the events of a directory.

  The kernel writes the records of the events back to back; each is a header of four numbers and a name
  of `len` bytes, which is padded and may be empty. Both programs walk through them in the same loop.

  `offset` is an `int`, which wraps around, and the loop reads the header at `events[offset]`: `none` is
  a read outside the array. `operate` is not set before the tests of the mask, so a line is `none` also
  where none of them holds; the loop itself does not depend on the lines. How many turns it may take is
  given as `fuel`.
-/
import KernelMagic.Lib.Records
import KernelMagic.Lib.Packet
import KernelMagic.Lib.CString

namespace KernelMagic.Inotify

open KernelMagic.Lib

/-- An event as the kernel reports it; `name` is with its padding. -/
structure Event where
  wd : UInt32
  mask : UInt32
  cookie : UInt32
  name : List UInt8
  deriving DecidableEq

/-- The record of an event: a `struct inotify_event`. -/
def Event.encode (e : Event) : List UInt8 :=
  bytes32 e.wd ++ (bytes32 e.mask ++ (bytes32 e.cookie ++
    (bytes32 (UInt32.ofNat e.name.length) ++ e.name)))

/-- What `read` gives for a list of events. -/
def encode (es : List Event) : List UInt8 := (es.map Event.encode).flatten

/-- `sizeof(struct inotify_event)`. -/
abbrev sizeofEvent : Nat := 16

/-- `EVENTS_BUF_SIZE`. -/
abbrev eventsBufSize : Nat := 4096

/-! ## The events -/

/-- The number at byte `k` of the header at `events[offset]`. -/
def field (events : List UInt8) (offset : Int) (k : Nat) : Option UInt32 :=
  if 0 ≤ offset then load32 events (offset.toNat + k) else none

/-- The tests of `display_event` in their order, with what each sets `operate` to. -/
def operates : List (UInt32 × String) :=
  [(0x1, "ACCESS"), (0x4, "ATTRIB"), (0x8, "CLOSE_WRITE"), (0x10, "CLOSE_NOWRITE"),
    (0x100, "CREATE"), (0x400, "DELETE_SELF"), (0x2, "MODIFY"), (0x800, "MOVE_SELF"),
    (0x40, "MOVED_FROM"), (0x80, "MOVED_TO"), (0x20, "OPEN"), (0x8000, "IGNORED"),
    (0x200, "DELETE"), (0x2000, "UNMOUNT")]

/-- `operate` behind the tests. -/
def operate (mask : UInt32) : Option String :=
  operates.foldl (fun operate t => if mask &&& t.1 ≠ 0 then some t.2 else operate) none

/-- A line of `display_event`. -/
def line (base name : List UInt8) (operate : String) : List UInt8 :=
  base ++ ascii "/" ++ name ++ ascii ": " ++ ascii operate ++ ascii "\n"

/-- `display_event` for the record at `events[offset]`. The name goes on to the first NUL. -/
def displayEvent (base events : List UInt8) (offset : Int) : Option (List UInt8) := do
  let mask ← field events offset 4
  let operate ← operate mask
  let name ← printStr (events.drop (offset.toNat + sizeofEvent))
  return line base name operate

/-! ## The loops -/

/-- `offset += sizeof(struct inotify_event) + event->len`. -/
def nextOffset (events : List UInt8) (offset : Int) : Option Int :=
  (field events offset 12).map fun len => (offset + ↑(sizeofEvent + len.toNat)).bmod (2 ^ 32)

/-- `for (offset = 0; offset < nbytes;)`: the offsets of the records that are displayed, and the last. -/
def recordLoop (events : List UInt8) (nbytes : Int) (fuel : Nat) : Option (List Int × Int) :=
  walk (fun offset => decide (offset < nbytes)) (nextOffset events) fuel 0

/-- The inner loop of `inotify.c`. -/
def inotifyLoop : List UInt8 → Int → Nat → Option (List Int × Int) := recordLoop

/-- The inner loop of `inotify_epoll.c`. -/
def inotifyEpollLoop : List UInt8 → Int → Nat → Option (List Int × Int) := recordLoop

/-- The array behind `memset`. -/
def cleared : List UInt8 := List.replicate eventsBufSize 0

/-- The array behind a `read` of `data`. -/
def readEvents (events data : List UInt8) : List UInt8 := data ++ events.drop data.length

/-- The lines for the records at the offsets. -/
def displayAll (base events : List UInt8) (offsets : List Int) : List (Option (List UInt8)) :=
  offsets.map (displayEvent base events)

/-- A turn of the outer loop of `inotify.c`; `data` is `none` when `read` fails. -/
def inotifyTurn (base : List UInt8) (data : Option (List UInt8)) (fuel : Nat) :
    Option (List (Option (List UInt8))) :=
  match data with
  | none => some [some (ascii "cannot read events\n")]
  | some data =>
    if data.length = 0 then some [some (ascii "cannot read events\n")]
    else do
      let events := readEvents cleared data
      let (offsets, _) ← inotifyLoop events data.length fuel
      return displayAll base events offsets

/-- The loop of `inotify_epoll.c` over the descriptors that are ready, with what a `read` for each
    gives. The test `eventsPoll[i].data.fd = fd` is an assignment, and holds when `fd` is not 0. -/
def epollLoop (base : List UInt8) (fd : Nat) (events : List UInt8) (fuel : Nat) :
    List (Option (List UInt8)) → Option (List (Option (List UInt8)))
  | [] => some []
  | none :: reads => epollLoop base fd events fuel reads
  | some data :: reads =>
    if fd ≠ 0 then
      if 0 < data.length then do
        let events := readEvents events data
        let (offsets, _) ← inotifyEpollLoop events data.length fuel
        let rest ← epollLoop base fd events fuel reads
        return displayAll base events offsets ++ rest
      else epollLoop base fd events fuel reads
    else epollLoop base fd events fuel reads

/-- A turn of the outer loop of `inotify_epoll.c`. -/
def epollTurn (base : List UInt8) (fd : Nat) (reads : List (Option (List UInt8))) (fuel : Nat) :
    Option (List (Option (List UInt8))) :=
  epollLoop base fd cleared fuel reads

end KernelMagic.Inotify
