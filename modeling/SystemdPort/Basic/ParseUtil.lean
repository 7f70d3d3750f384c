/-
# Basic.ParseUtil — numbers and ranges in text

`safe_atou()` and `parse_range()` of `src/basic/parse-util.c`, with the `strtoul()`
of the C library they rest on.
-/
import SystemdPort.Basic.ExtractWord

namespace SystemdPort.Basic

set_option autoImplicit false

/-! ## strtoul() -/

def digitValue (c : UInt8) : Option Nat :=
  if chr '0' ≤ c ∧ c ≤ chr '9' then some (c - chr '0').toNat
  else if chr 'a' ≤ c ∧ c ≤ chr 'z' then some ((c - chr 'a').toNat + 10)
  else if chr 'A' ≤ c ∧ c ≤ chr 'Z' then some ((c - chr 'A').toNat + 10)
  else none

def isDigitIn (base : Nat) (c : UInt8) : Bool :=
  match digitValue c with
  | some d => d < base
  | none => false

/-- The digits at the start of a string, and what follows them. -/
def takeDigits (base : Nat) (s : CString) : CString × CString :=
  (s.takeWhile (isDigitIn base), s.dropWhile (isDigitIn base))

def digitsValue (base : Nat) (digits : CString) : Nat :=
  digits.foldl (fun n c => n * base + (digitValue c).getD 0) 0

/-- The base that `strtoul()` finds with base 0 or 16, and the string behind `0x`. -/
def detectBase (base : Nat) (s : CString) : Nat × CString :=
  match s with
  | 48 :: x :: c :: rest =>
    if (base = 0 ∨ base = 16) ∧ (x = chr 'x' ∨ x = chr 'X') ∧ isDigitIn 16 c then (16, c :: rest)
    else if base = 0 then (8, s) else (base, s)
  | 48 :: _ => if base = 0 then (8, s) else (base, s)
  | _ => if base = 0 then (10, s) else (base, s)

/-- The characters `isspace()` accepts. -/
def spaces : CString := [32, 9, 10, 11, 12, 13]

def stripSign : CString → Bool × CString
  | 45 :: s => (true, s)
  | 43 :: s => (false, s)
  | s => (false, s)

/-- The value and what follows the number; `none` where there is no number. -/
def strtoul (s : CString) (base : Nat) : Except Errno (Option (Nat × CString)) :=
  let (negative, unsigned) := stripSign (skipSpan spaces s)
  let (base, start) := detectBase base unsigned
  let (digits, rest) := takeDigits base start
  let value := digitsValue base digits
  if digits.isEmpty then .ok none
  else if 2 ^ 64 ≤ value then .error .erange
  else .ok (some (if negative then (2 ^ 64 - value) % 2 ^ 64 else value, rest))

/-! ## safe_atou() and parse_range() -/

def mangleBase : CString → Nat × CString
  | 48 :: x :: s =>
    if x = chr 'b' ∨ x = chr 'B' then (2, s)
    else if x = chr 'o' ∨ x = chr 'O' then (8, s)
    else (0, 48 :: x :: s)
  | s => (0, s)

def safeAtou (s : CString) : Except Errno Nat := do
  let (base, s) := mangleBase (skipSpan whitespace s)
  match ← strtoul s base with
  | some (l, []) =>
    if l ≠ 0 ∧ s.head? = some (chr '-') then .error .erange
    else if 2 ^ 32 ≤ l then .error .erange
    else .ok l
  | _ => .error .einval

def parseRange (t : CString) : Except Errno (Nat × Nat) := do
  match ← extractFirstWord { dontCoalesceSeparators := true } [chr '-'] (some t) with
  | (none, _) => .error .einval
  | (some word, t) =>
    let l ← safeAtou word
    match t with
    | none => .ok (l, l)
    | some [] => .error .einval
    | some t => do
        let u ← safeAtou t
        .ok (l, u)

end SystemdPort.Basic
