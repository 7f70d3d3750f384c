/-
# Basic.EnvFile — files with environment assignments

`src/basic/env-file.c`: the state machine that reads such a file character by character, and
the writer that quotes a value if it has to.
-/
import SystemdPort.Basic.EnvUtil
import SystemdPort.Basic.Fileio

namespace SystemdPort.Basic

set_option autoImplicit false

/-- `NEWLINE` -/
def newline : CString := [10, 13]

/-- `COMMENTS` -/
def comments : CString := cstr "#;"

/-- `SHELL_NEED_ESCAPE` -/
def shellNeedEscape : CString := [34, 92, 96, 36]

/-- `GLOB_CHARS` -/
def globChars : CString := cstr "*?["

/-- `SHELL_NEED_QUOTES` -/
def shellNeedQuotes : CString := shellNeedEscape ++ globChars ++ [39] ++ cstr "()<>|&;!"

/-- `char_is_cc()` -/
def charIsCc (p : UInt8) : Bool := p < 32 || p = 127

/-! ## The reader -/

inductive EnvState where
  | preKey | key | preValue | value | valueEscape | singleQuoteValue | doubleQuoteValue
  | doubleQuoteValueEscape | comment | commentEscape
  deriving DecidableEq

/-- The variables of `parse_env_file_internal()`, with what is behind `userdata`. -/
structure EnvParser (σ : Type) where
  state : EnvState := .preKey
  /-- The first `n_key` bytes of `key`. -/
  key : CString := []
  /-- The first `n_value` bytes of `value`, unless that is NULL. -/
  value : Option CString := none
  lastKeyWhitespace : Option Nat := none
  lastValueWhitespace : Option Nat := none
  line : Nat := 1
  userdata : σ

/-- A string that ends where its trailing whitespace begins, if it has any. -/
def cutAt (s : CString) : Option Nat → CString
  | none => s
  | some n => s.take n

/-- What `push` gets: the line, the key and the value. -/
abbrev Push (σ : Type) := Nat → CString → Option CString → σ → Except Errno σ

namespace EnvParser

variable {σ : Type}

def addKey (c : UInt8) (p : EnvParser σ) : EnvParser σ := { p with key := p.key ++ [c] }

def addValue (cs : CString) (p : EnvParser σ) : EnvParser σ := { p with value := some (p.value.getD [] ++ cs) }

/-- A call of `push`, for a value with its trailing whitespace or without. -/
def pushed (push : Push σ) (chomp : Bool) (p : EnvParser σ) : Except Errno (EnvParser σ) := do
  let value := if chomp then p.value.map (cutAt · p.lastValueWhitespace) else p.value
  let userdata ← push p.line (cutAt p.key p.lastKeyWhitespace) value p.userdata
  .ok { p with userdata, key := [], value := none }

/-- A round of the loop. -/
def step (push : Push σ) (p : EnvParser σ) (c : UInt8) : Except Errno (EnvParser σ) :=
  match p.state with
  | .preKey =>
    if c ∈ comments then .ok { p with state := .comment }
    else if c ∉ whitespace then .ok (addKey c { p with state := .key, lastKeyWhitespace := none })
    else .ok p
  | .key =>
    if c ∈ newline then .ok { p with state := .preKey, line := p.line + 1, key := [] }
    else if c = chr '=' then .ok { p with state := .preValue, lastValueWhitespace := none }
    else if c ∉ whitespace then .ok (addKey c { p with lastKeyWhitespace := none })
    else .ok (addKey c { p with lastKeyWhitespace := p.lastKeyWhitespace.or (some p.key.length) })
  | .preValue =>
    if c ∈ newline then pushed push false { p with state := .preKey, line := p.line + 1 }
    else if c = 39 then .ok { p with state := .singleQuoteValue }
    else if c = 34 then .ok { p with state := .doubleQuoteValue }
    else if c = 92 then .ok { p with state := .valueEscape }
    else if c ∉ whitespace then .ok (addValue [c] { p with state := .value })
    else .ok p
  | .value =>
    if c ∈ newline then pushed push true { p with state := .preKey, line := p.line + 1 }
    else if c = 92 then .ok { p with state := .valueEscape, lastValueWhitespace := none }
    else if c ∉ whitespace then .ok (addValue [c] { p with lastValueWhitespace := none })
    else
      .ok (addValue [c]
        { p with lastValueWhitespace := p.lastValueWhitespace.or (some (p.value.getD []).length) })
  | .valueEscape =>
    -- escaped newlines are eaten up entirely
    if c ∉ newline then .ok (addValue [c] { p with state := .value }) else .ok { p with state := .value }
  | .singleQuoteValue => if c = 39 then .ok { p with state := .preValue } else .ok (addValue [c] p)
  | .doubleQuoteValue =>
    if c = 34 then .ok { p with state := .preValue }
    else if c = 92 then .ok { p with state := .doubleQuoteValueEscape }
    else .ok (addValue [c] p)
  | .doubleQuoteValueEscape =>
    if c ∈ shellNeedEscape then .ok (addValue [c] { p with state := .doubleQuoteValue })
    else if c ≠ 10 then .ok (addValue [92, c] { p with state := .doubleQuoteValue })
    else .ok { p with state := .doubleQuoteValue }
  | .comment =>
    if c = 92 then .ok { p with state := .commentEscape }
    else if c ∈ newline then .ok { p with state := .preKey, line := p.line + 1 }
    else .ok p
  | .commentEscape => .ok { p with state := .comment }

/-- What is left to do at the end of the file. -/
def finish (push : Push σ) (p : EnvParser σ) : Except Errno (EnvParser σ) :=
  match p.state with
  | .preValue | .valueEscape | .singleQuoteValue | .doubleQuoteValue | .doubleQuoteValueEscape =>
    pushed push false p
  | .value => pushed push true p
  | .preKey | .key | .comment | .commentEscape => .ok p

end EnvParser

/-- `parse_env_file_internal()`, for a file with these contents. -/
def parseEnvFileInternal {σ : Type} (usable : Nat → Nat) (push : Push σ) (file : CString) (userdata : σ) :
    Except Errno σ := do
  let contents ← readFullStream usable file
  let p ← contents.foldlM (EnvParser.step push) { userdata }
  let p ← p.finish push
  .ok p.userdata

/-- `check_utf8ness_and_warn()` -/
def checkUtf8nessAndWarn (key : CString) (value : Option CString) : Except Errno Unit :=
  if !utf8IsValid key then .error .einval
  else if value.any (!utf8IsValid ·) then .error .einval
  else .ok ()

/-- `load_env_file_push()` -/
def loadEnvFilePush : Push (List CString) := fun _ key value m => do
  checkUtf8nessAndWarn key value
  strvEnvReplaceConsume m (key ++ [chr '='] ++ value.getD [])

/-- `load_env_file()` -/
def loadEnvFile (usable : Nat → Nat) (file : CString) : Except Errno (List CString) :=
  parseEnvFileInternal usable loadEnvFilePush file []

/-! ## The writer -/

/-- A character between double quotes. -/
def quoteChar (c : UInt8) : CString := if c ∈ shellNeedEscape then [92, c] else [c]

def needsQuotes (value : CString) : Bool :=
  value.any charIsCc || value.any (· ∈ whitespace ++ shellNeedQuotes)

/-- `write_env_var()` -/
def writeEnvVar (v : CString) : CString :=
  match strchr v (chr '=') with
  | none => v ++ [10]
  | some p =>
    let value := v.drop (p + 1)
    v.take (p + 1) ++ (if needsQuotes value then [34] ++ value.flatMap quoteChar ++ [34] else value) ++ [10]

/-- What `write_env_file()` writes. -/
def writeEnvFile (l : List CString) : CString := l.flatMap writeEnvVar

end SystemdPort.Basic
