/-
# Basic.Utf8 — valid UTF-8

`utf8_is_valid()` of `src/basic/utf8.c`, for strings that end at their NUL.
-/
import SystemdPort.Basic.StringUtil

namespace SystemdPort.Basic

set_option autoImplicit false

def unicharIsValid (ch : BitVec 32) : Bool :=
  ch < 0x110000 && (ch &&& 0xFFFFF800 ≠ 0xD800) && !(0xFDD0 ≤ ch && ch ≤ 0xFDEF) &&
    (ch &&& 0xFFFE ≠ 0xFFFE)

def utf8EncodedExpectedLen (c : BitVec 8) : Nat :=
  if c < 0x80 then 1
  else if c &&& 0xe0 = 0xc0 then 2
  else if c &&& 0xf0 = 0xe0 then 3
  else if c &&& 0xf8 = 0xf0 then 4
  else if c &&& 0xfc = 0xf8 then 5
  else if c &&& 0xfe = 0xfc then 6
  else 0

/-- The bits of the first byte that belong to the character. -/
def leadingBits (len : Nat) (c : BitVec 8) : BitVec 32 :=
  (c &&& match len with
    | 2 => 0x1f
    | 3 => 0x0f
    | 4 => 0x07
    | 5 => 0x03
    | _ => 0x01).zeroExtend 32

/-- The loop over the bytes that follow the first. -/
def continuation : BitVec 32 → List UInt8 → Option (BitVec 32)
  | unichar, [] => some unichar
  | unichar, b :: bs =>
    if b.toBitVec &&& 0xc0 ≠ 0x80 then none
    else continuation ((unichar <<< 6) ||| (b.toBitVec &&& 0x3f).zeroExtend 32) bs

def utf8UnicharToEncodedLen (unichar : BitVec 32) : Nat :=
  if unichar < 0x80 then 1
  else if unichar < 0x800 then 2
  else if unichar < 0x10000 then 3
  else if unichar < 0x200000 then 4
  else if unichar < 0x4000000 then 5
  else 6

/-- The length of the character a string starts with. -/
def utf8EncodedValidUnichar : CString → Option Nat
  | [] => none
  | c :: rest =>
    let len := utf8EncodedExpectedLen c.toBitVec
    if len = 0 then none
    else if len = 1 then some 1
    else
      let tail := rest.take (len - 1)
      if tail.length < len - 1 then none
      else
        match continuation (leadingBits len c.toBitVec) tail with
        | none => none
        | some unichar =>
          if utf8UnicharToEncodedLen unichar = len ∧ unicharIsValid unichar then some len else none

theorem utf8EncodedValidUnichar_pos {s : CString} {len : Nat}
    (valid : utf8EncodedValidUnichar s = some len) : 0 < len := by
  unfold utf8EncodedValidUnichar at valid
  split at valid
  · simp at valid
  · dsimp only at valid
    split_ifs at valid
    · simp only [Option.some.injEq] at valid
      omega
    · split at valid
      · simp at valid
      · split_ifs at valid
        simp only [Option.some.injEq] at valid
        omega

/-- `utf8_is_valid()` -/
def utf8IsValid (s : CString) : Bool :=
  if s = [] then true
  else
    match _found : utf8EncodedValidUnichar s with
    | none => false
    | some len => utf8IsValid (s.drop len)
  termination_by s.length
  decreasing_by
    have := utf8EncodedValidUnichar_pos _found
    have : s.length ≠ 0 := by simpa [List.length_eq_zero_iff]
    rw [List.length_drop]
    omega

end SystemdPort.Basic
