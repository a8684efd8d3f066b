import Kerners.Block.Device

/-!
# Errors of the VFS and files in memory (`src/fs/mod.rs`, `src/fs/ramfs/mod.rs`)

`RamFsFile` keeps the bytes of a file in a vector; its calls are functions on these bytes.
-/

namespace Kerners

open Lib List

/-- `VfsError`. -/
inductive VfsError where
  | notFound
  | permissionDenied
  | alreadyExists
  | notADirectory
  | isADirectory
  | directoryNotEmpty
  | invalidPath
  | ioError
  | noSpace
  | readOnly
  | notSupported
  | invalidArgument
  | fileBusy
  | notMountPoint
  | symlinkLoop
  | invalidFormat
  | unknown
  deriving DecidableEq

namespace RamFsFile

/-- `Vec::resize(n, 0)`. -/
def resize (data : Bytes) (n : Nat) : Bytes := data.take n ++ List.replicate (n - data.length) 0

/-- `read` into a buffer of `len` bytes: the bytes it stores there. -/
def read (data : Bytes) (offset len : Nat) : Bytes :=
  if offset ≥ data.length then [] else slice data offset (min len (data.length - offset))

/-- `write`: the new contents. -/
def write (data : Bytes) (offset : Nat) (buf : Bytes) : Bytes :=
  let requiredSize := offset + buf.length
  let data := if requiredSize > data.length then resize data requiredSize else data
  splice data offset buf

/-- `truncate`: the new contents. -/
def truncate (data : Bytes) (size : Nat) : Bytes := resize data size

theorem write_eq {data buf : Bytes} {offset : Nat} (h : offset ≤ data.length) :
    write data offset buf = splice data offset buf := by
  unfold write
  simp only
  split
  · rename_i hlt
    unfold splice resize
    rw [take_of_length_le (by omega : data.length ≤ offset + buf.length),
      take_append_of_le_length h,
      drop_of_length_le (i := offset + buf.length) (by simp; omega),
      drop_of_length_le (l := data) (by omega)]
  · rfl

theorem truncate_eq {data : Bytes} {n : Nat} (h : n ≤ data.length) :
    truncate data n = data.take n := by
  unfold truncate resize
  rw [Nat.sub_eq_zero_of_le h, replicate_zero, append_nil]

end RamFsFile

end Kerners
