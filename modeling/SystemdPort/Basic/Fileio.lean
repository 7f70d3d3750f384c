/-
# Basic.Fileio — reading a file in full

`read_full_stream()` of `src/basic/fileio.c` for a regular file that nobody writes to.  It
sizes its buffer by what `stat()` reports and reads up to what the allocator gives it,
so `usable n` is what `malloc_usable_size()` says of an allocation of `n` bytes.
-/
import SystemdPort.Basic.StringUtil
import SystemdPort.Basic.Errno
import SystemdPort.Lib.Loop

namespace SystemdPort.Basic

open Lib

set_option autoImplicit false

/-- `READ_FULL_BYTES_MAX` -/
def readFullBytesMax : Nat := 64 * 1024 * 1024 - 1

/-- `LINE_MAX` -/
def lineMax : Nat := 2048

/-- How far the loop has read, and the size it tries next. -/
structure ReadFull where
  l : Nat
  nNext : Nat

/-- A round of the loop, which is the last one if `fread()` got to the end of the file. -/
def ReadFull.round (usable : Nat → Nat) (file : CString) (s : ReadFull) : Except Errno (ReadFull × Bool) :=
  let n := usable (s.nNext + 1) - 1
  let l := s.l + min (n - s.l) (file.length - s.l)
  if file.length - s.l < n - s.l then .ok (⟨l, s.nNext⟩, true)
  else if readFullBytesMax ≤ n then .error .e2big
  else .ok (⟨l, min (n * 2) readFullBytesMax⟩, false)

/-- The size to start with. -/
def firstSize (file : CString) : Nat :=
  let nNext := if 0 < file.length then file.length + 1 else lineMax
  if readFullBytesMax < nNext then readFullBytesMax + 1 else nNext

/-- `read_full_stream()`, for a caller that relies on the trailing NUL.  The size doubles in
each round. -/
def readFullStream (usable : Nat → Nat) (file : CString) : Except Errno CString := do
  let s ← retry (ReadFull.round usable file) 64 ⟨0, firstSize file⟩
  if 0 ∈ file.take s.l then .error .ebadmsg else .ok (file.take s.l)

section Sizes

variable {usable : Nat → Nat} (enough : ∀ n, n ≤ usable n) {file : CString}

include enough

/-- A file up to the limit is read at once. -/
theorem readFullStream_small (small : file.length ≤ readFullBytesMax) (noNul : 0 ∉ file) :
    readFullStream usable file = .ok file := by
  have first : file.length < firstSize file := by
    unfold firstSize readFullBytesMax lineMax at *
    dsimp only
    split <;> split <;> omega
  have room := enough (firstSize file + 1)
  have round : ReadFull.round usable file ⟨0, firstSize file⟩ = .ok (⟨file.length, firstSize file⟩, true) := by
    unfold ReadFull.round
    dsimp only
    rw [if_pos (by omega), Nat.min_eq_right (by omega)]
    simp
  have read : retry (ReadFull.round usable file) 64 ⟨0, firstSize file⟩ = .ok ⟨file.length, firstSize file⟩ := by
    rw [retry, round]
  rw [readFullStream, read]
  simp [bind, Except.bind, noNul]

/-- A file that does not fit into the last buffer is refused. -/
theorem readFullStream_large (large : readFullBytesMax < file.length)
    (full : usable (readFullBytesMax + 2) - 1 ≤ file.length) : readFullStream usable file = .error .e2big := by
  have first : firstSize file = readFullBytesMax + 1 := by
    unfold firstSize
    rw [if_pos (show 0 < file.length by omega), if_pos (by omega)]
  have room := enough (readFullBytesMax + 2)
  have round : ReadFull.round usable file ⟨0, readFullBytesMax + 1⟩ = .error .e2big := by
    unfold ReadFull.round
    rw [show readFullBytesMax + 1 + 1 = readFullBytesMax + 2 from rfl, if_neg (by omega), if_pos (by omega)]
  have read : retry (ReadFull.round usable file) 64 ⟨0, firstSize file⟩ = .error .e2big := by
    rw [first, retry, round]
  rw [readFullStream, read]
  rfl

end Sizes

end SystemdPort.Basic
