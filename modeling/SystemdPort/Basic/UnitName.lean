/-
# Basic.UnitName — unit names and paths

`src/basic/unit-name.c`: a path becomes the prefix of a unit name by escaping it, and by hashing
if the name gets too long.  `hash` stands for `siphash24_string()` with the key for long names.
-/
import Mathlib.Data.List.TakeWhile
import SystemdPort.Basic.EnvUtil
import SystemdPort.Basic.PathUtil

namespace SystemdPort.Basic

set_option autoImplicit false

open List

/-- `VALID_CHARS` -/
def validChars : CString := cstr "0123456789abcdefghijklmnopqrstuvwxyzABCDEFGHIJKLMNOPQRSTUVWXYZ:-_.\\"

/-- `VALID_CHARS_WITH_AT` -/
def validCharsWithAt : CString := chr '@' :: validChars

/-- `LOWERCASE_HEXDIGITS` -/
def lowercaseHexdigits : CString := cstr "0123456789abcdef"

/-- `unit_type_table` -/
def unitTypes : List CString :=
  ["service", "socket", "target", "device", "mount", "automount", "swap", "timer", "path", "slice", "scope"].map cstr

/-- `UNIT_NAME_MAX` -/
def unitNameMax : Nat := 256

/-- `UNIT_NAME_HASH_LENGTH_CHARS` -/
def unitNameHashLengthChars : Nat := 16

/-- The index of what `strrchr()` finds. -/
def strrchr (s : CString) (c : UInt8) : Option Nat :=
  if c ∈ s then some (s.length - 1 - s.reverse.idxOf c) else none

structure UnitNameFlags where
  plain : Bool := false
  template : Bool := false
  «instance» : Bool := false

def UnitNameFlags.any : UnitNameFlags := ⟨true, true, true⟩

/-- `unit_name_is_valid()` -/
def unitNameIsValid (n : CString) (flags : UnitNameFlags) : Bool :=
  if n = [] ∨ unitNameMax ≤ n.length then false
  else
    match strrchr n (chr '.') with
    | none => false
    | some e =>
      if e = 0 ∨ n.drop (e + 1) ∉ unitTypes ∨ !(n.take e).all (· ∈ validCharsWithAt) then false
      else
        match strchr (n.take e) (chr '@') with
        | none => flags.plain
        | some at_ =>
          if at_ = 0 then false
          else (flags.«instance» && at_ + 1 < e) || (flags.template && e = at_ + 1)

/-- `unit_suffix_is_valid()` -/
def unitSuffixIsValid (s : CString) : Bool := s.head? = some (chr '.') ∧ s.tail ∈ unitTypes

/-- `unit_name_to_prefix()` -/
def unitNameToPrefix (n : CString) : Except Errno CString :=
  if !unitNameIsValid n .any then .error .einval
  else .ok (n.take (((strchr n (chr '@')).or (strrchr n (chr '.'))).getD 0))

/-! ## Escaping -/

/-- `hexchar()` -/
def hexchar (x : UInt8) : UInt8 := if x &&& 15 < 10 then 48 + (x &&& 15) else 87 + (x &&& 15)

/-- `unhexchar()` -/
def unhexchar (c : UInt8) : Option UInt8 :=
  if chr '0' ≤ c ∧ c ≤ chr '9' then some (c - chr '0')
  else if chr 'a' ≤ c ∧ c ≤ chr 'f' then some (c - chr 'a' + 10)
  else if chr 'A' ≤ c ∧ c ≤ chr 'F' then some (c - chr 'A' + 10)
  else none

/-- `do_escape_char()` -/
def doEscapeChar (c : UInt8) : CString := [92, chr 'x', hexchar (c >>> 4), hexchar c]

/-- What the loop of `do_escape()` writes for a character. -/
def escapeChar (c : UInt8) : CString :=
  if c = slashChar then [chr '-']
  else if c = chr '-' ∨ c = 92 ∨ c ∉ validChars then doEscapeChar c
  else [c]

/-- `unit_name_escape()`.  There are no units with a leading dot. -/
def unitNameEscape (f : CString) : CString :=
  match f with
  | [] => []
  | c :: rest => (if c = dotChar then doEscapeChar c else escapeChar c) ++ rest.flatMap escapeChar

/-- The loop of `unit_name_unescape()`. -/
def unescapeLoop (f : CString) : Except Errno CString :=
  match f with
  | [] => .ok []
  | c :: rest =>
    if c = chr '-' then (slashChar :: ·) <$> unescapeLoop rest
    else if c = 92 then
      match rest with
      | x :: a :: b :: rest' =>
        if x ≠ chr 'x' then .error .einval
        else
          match unhexchar a, unhexchar b with
          | some high, some low => ((high <<< 4 ||| low) :: ·) <$> unescapeLoop rest'
          | _, _ => .error .einval
      | _ => .error .einval
    else (c :: ·) <$> unescapeLoop rest

/-- `unit_name_unescape()`.  A string ends at its first NUL. -/
def unitNameUnescape (f : CString) : Except Errno CString := (·.takeWhile (· ≠ 0)) <$> unescapeLoop f

/-- `delete_trailing_chars(s, "/")` -/
def deleteTrailingSlashes (s : CString) : CString := (s.reverse.dropWhile (· = slashChar)).reverse

/-- `unit_name_path_escape()` -/
def unitNamePathEscape (pathMax : Nat) (f : CString) : Except Errno CString :=
  let p := pathSimplify f
  if emptyOrRoot p then .ok [chr '-']
  else if !pathIsNormalized pathMax p then .error .einval
  else .ok (unitNameEscape (skipSpan [slashChar] (deleteTrailingSlashes p)))

/-- `unit_name_path_unescape()` -/
def unitNamePathUnescape (pathMax : Nat) (f : CString) : Except Errno CString :=
  if f = [] then .error .einval
  else if f = [chr '-'] then .ok [slashChar]
  else do
    let w ← unitNameUnescape f
    if w.head? = some slashChar ∨ w.getLast? = some slashChar then .error .einval
    else if !pathIsNormalized pathMax (slashChar :: w) then .error .einval
    else .ok (slashChar :: w)

/-! ## Hashing -/

/-- `unit_name_is_hashed()` -/
def unitNameIsHashed (name : CString) : Bool :=
  if !unitNameIsValid name { plain := true } then false
  else
    match strrchr name (chr '.') with
    | none => false
    | some s =>
      if s < unitNameHashLengthChars + 1 then false
      else
        let t := s - unitNameHashLengthChars
        name[t - 1]? = some (chr '_') ∧
          ((name.drop t).take unitNameHashLengthChars).all (· ∈ lowercaseHexdigits)

/-- `hexmem()` -/
def hexmem (bytes : CString) : CString := bytes.flatMap fun (x : UInt8) => [hexchar (x >>> 4), hexchar (x &&& 15)]

/-- The bytes of a little-endian number. -/
def le64 (h : UInt64) : CString :=
  [h, h >>> 8, h >>> 16, h >>> 24, h >>> 32, h >>> 40, h >>> 48, h >>> 56].map UInt64.toUInt8

/-- `unit_name_hash_long()` -/
def unitNameHashLong (hash : CString → UInt64) (name : CString) : Except Errno CString :=
  if name.length < unitNameMax then .error .emsgsize
  else
    match strrchr name (chr '.') with
    | none => .error .einval
    | some e =>
      let suffix := name.drop e
      if suffix.tail ∉ unitTypes then .error .einval
      else
        let len := unitNameMax - 1 - suffix.tail.length - unitNameHashLengthChars - 2
        .ok (name.take len ++ [chr '_'] ++ hexmem (le64 (hash name)) ++ suffix)

/-- `unit_name_from_path()` -/
def unitNameFromPath (pathMax : Nat) (hash : CString → UInt64) (path suffix : CString) : Except Errno CString := do
  if !unitSuffixIsValid suffix then .error .einval
  else
    let p ← unitNamePathEscape pathMax path
    let s ← if unitNameMax ≤ (p ++ suffix).length then unitNameHashLong hash (p ++ suffix) else .ok (p ++ suffix)
    if !unitNameIsValid s { plain := true } then .error .einval else .ok s

/-- `unit_name_to_path()` -/
def unitNameToPath (pathMax : Nat) (name : CString) : Except Errno CString := do
  let pre ← unitNameToPrefix name
  if unitNameIsHashed name then .error .enametoolong else unitNamePathUnescape pathMax pre

/-! ## Undoing an escape -/

theorem hex_hexchar (x : UInt8) : hexchar x ∈ lowercaseHexdigits :=
  forall_byte (P := fun x => hexchar x ∈ lowercaseHexdigits) (by decide +kernel) x

theorem unhexchar_hexchar (c : UInt8) :
    ∃ high low, unhexchar (hexchar (c >>> 4)) = some high ∧ unhexchar (hexchar c) = some low ∧
      high <<< 4 ||| low = c := by
  have both : (unhexchar (hexchar (c >>> 4))).bind (fun high =>
      (unhexchar (hexchar c)).map fun low => high <<< 4 ||| low) = some c :=
    forall_byte (P := fun c => (unhexchar (hexchar (c >>> 4))).bind (fun high =>
      (unhexchar (hexchar c)).map fun low => high <<< 4 ||| low) = some c) (by decide +kernel) c
  obtain ⟨high, first, rest⟩ := Option.bind_eq_some_iff.mp both
  obtain ⟨low, second, same⟩ := Option.map_eq_some_iff.mp rest
  exact ⟨high, low, first, second, same⟩

theorem unescapeLoop_doEscapeChar (c : UInt8) (rest : CString) :
    unescapeLoop (doEscapeChar c ++ rest) = (c :: ·) <$> unescapeLoop rest := by
  obtain ⟨high, low, first, second, same⟩ := unhexchar_hexchar c
  have notDash : (92 : UInt8) ≠ chr '-' := by decide
  simp [doEscapeChar, unescapeLoop, if_neg notDash, first, second, same]

theorem unescapeLoop_escapeChar (c : UInt8) (rest : CString) :
    unescapeLoop (escapeChar c ++ rest) = (c :: ·) <$> unescapeLoop rest := by
  unfold escapeChar
  split_ifs with isSlash special
  · subst isSlash
    rw [cons_append, unescapeLoop.eq_def]
    exact if_pos rfl
  · exact unescapeLoop_doEscapeChar c rest
  · simp only [not_or] at special
    rw [cons_append, nil_append, unescapeLoop.eq_def]
    simp [if_neg special.1, if_neg special.2.1]

theorem unescapeLoop_flatMap (w : CString) : unescapeLoop (w.flatMap escapeChar) = .ok w := by
  induction w with
  | nil => rfl
  | cons c w ih =>
    rw [flatMap_cons, unescapeLoop_escapeChar, ih]
    rfl

/-- Escaping loses nothing. -/
theorem unitNameUnescape_escape {w : CString} (noNul : 0 ∉ w) : unitNameUnescape (unitNameEscape w) = .ok w := by
  have unescaped : unescapeLoop (unitNameEscape w) = .ok w := by
    cases w with
    | nil => rfl
    | cons c w =>
      unfold unitNameEscape
      dsimp only
      split
      · rw [unescapeLoop_doEscapeChar, unescapeLoop_flatMap]
        rfl
      · rw [unescapeLoop_escapeChar, unescapeLoop_flatMap]
        rfl
  have whole : w.takeWhile (· ≠ 0) = w := by
    rw [takeWhile_eq_self_iff]
    intro c member
    simp only [decide_eq_true_eq]
    rintro rfl
    exact noNul member
  rw [unitNameUnescape, unescaped]
  show Except.ok (w.takeWhile (· ≠ 0)) = _
  rw [whole]

end SystemdPort.Basic
