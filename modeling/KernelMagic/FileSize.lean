/-
  `get_file_size` of the copy programs: the size of a block device or of a regular file, -1 when it
  cannot be found out or the file is of another kind.
-/
import Mathlib

namespace KernelMagic

/-- What `fstat` says of the file, and for a block device what `BLKGETSIZE64` does. -/
inductive Stat where
  | failed
  | block (bytes : Option Nat)
  | regular (size : Nat)
  | other
  deriving DecidableEq, Repr

/-- `get_file_size`. -/
def getFileSize : Stat → Int
  | .failed => -1
  | .block none => -1
  | .block (some bytes) => bytes
  | .regular size => size
  | .other => -1

end KernelMagic
