/-
# Basic.StringUtil — strings of C

A C string is the list of its bytes without the terminating NUL, so a byte that is
read at its end is the end of the list.
-/
import Mathlib.Tactic

namespace SystemdPort.Basic

set_option autoImplicit false

abbrev CString := List UInt8

instance : LawfulBEq CString := inferInstanceAs (LawfulBEq (List UInt8))

def chr (c : Char) : UInt8 := c.toNat.toUInt8

def cstr (s : String) : CString := s.toList.map chr

/-- `WHITESPACE` -/
def whitespace : CString := [32, 9, 10, 13]

/-- What `printf("%u")` writes. -/
def decimal (n : Nat) : CString := (Nat.toDigits 10 n).map chr

/-- `s + strspn(s, accept)` -/
def skipSpan (accept : CString) (s : CString) : CString := s.dropWhile (· ∈ accept)

/-- `ascii_isdigit()` -/
def asciiIsdigit (c : UInt8) : Bool := 48 ≤ c ∧ c ≤ 57

/-- `ascii_isalpha()` -/
def asciiIsalpha (c : UInt8) : Bool := (97 ≤ c ∧ c ≤ 122) ∨ (65 ≤ c ∧ c ≤ 90)

/-- `ascii_tolower()` -/
def asciiTolower (c : UInt8) : UInt8 := if 65 ≤ c ∧ c ≤ 90 then c - 65 + 97 else c

/-- `CMP()` -/
def cmpInt (a b : Int) : Int := if a = b then 0 else if a < b then -1 else 1

/-- `ascii_strcasecmp_n()` -/
def asciiStrcasecmpN : CString → CString → Nat → Int
  | _, _, 0 => 0
  | a, b, n + 1 =>
    let x : Int := (asciiTolower (a.headD 0)).toNat
    let y : Int := (asciiTolower (b.headD 0)).toNat
    if x ≠ y then x - y else asciiStrcasecmpN a.tail b.tail n

/-- `ascii_strcasecmp_nn()` -/
def asciiStrcasecmpNn (a b : CString) : Int :=
  let r := asciiStrcasecmpN a b (min a.length b.length)
  if r ≠ 0 then r else cmpInt a.length b.length

/-- A property of bytes that holds of each of the 256. -/
theorem forall_byte {P : UInt8 → Prop} (every : ∀ n < 256, P (UInt8.ofNat n)) (c : UInt8) : P c := by
  have here := every c.toNat c.toNat_lt
  rwa [UInt8.ofNat_toNat] at here

end SystemdPort.Basic
