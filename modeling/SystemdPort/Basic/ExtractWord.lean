/-
# Basic.ExtractWord — splitting a string into words

`extract_first_word()` of `src/basic/extract-word.c`.  Its nested loops all advance by
one character at a time, so together they are one machine that reads a character and
has a quote and a backslash as its state.  `EXTRACT_CUNESCAPE` is left out, none of the
callers here asks for it, and the memory it writes the word to is always there.
-/
import SystemdPort.Basic.Errno
import SystemdPort.Basic.StringUtil

namespace SystemdPort.Basic

set_option autoImplicit false

structure ExtractFlags where
  relax : Bool := false
  unescapeRelax : Bool := false
  unescapeSeparators : Bool := false
  keepQuote : Bool := false
  unquote : Bool := false
  dontCoalesceSeparators : Bool := false
  retainEscape : Bool := false
  retainSeparators : Bool := false

/-- The word, if there is one, and what `*p` is then. -/
abbrev Extracted := Option CString × Option CString

def backslash : UInt8 := 92

def isQuote (c : UInt8) : Bool := c = 39 || c = 34

section Extract

variable (flags : ExtractFlags) (separators : CString)

/-- A separator behind a word: `*p` moves past it, and past others that follow. -/
def endWord (word : CString) (c : UInt8) (rest : CString) : Extracted :=
  if flags.dontCoalesceSeparators then
    (some word, some (if flags.retainSeparators then c :: rest else rest))
  else if flags.retainSeparators then (some word, some (c :: rest))
  else
    match skipSpan separators rest with
    | [] => (some word, none)
    | next => (some word, some next)

/-- The character after a backslash. -/
def unescape (c : UInt8) : Except Errno CString :=
  if flags.unescapeSeparators then
    if c ∈ separators ∨ c = backslash then .ok [c]
    else if flags.unescapeRelax then .ok [backslash, c]
    else .error .einval
  else .ok [c]

/-- The end of the string after a backslash. -/
def endEscaped (quote : Option UInt8) (word : CString) : Except Errno Extracted :=
  if flags.unescapeRelax && (quote.isNone || flags.relax) then .ok (some (word ++ [backslash]), none)
  else if flags.relax then .ok (some word, none)
  else .error .einval

/-- The second loop; `word` is what was stored so far. -/
def extractLoop : Option UInt8 → Bool → CString → CString → Except Errno Extracted
  | quote, true, word, [] => endEscaped flags quote word
  | quote, true, word, c :: rest => do
      extractLoop quote false (word ++ (← unescape flags separators c)) rest
  | some _, false, word, [] => if flags.relax then .ok (some word, none) else .error .einval
  | some quote, false, word, c :: rest =>
    if c = quote then extractLoop none false (if flags.unquote then word else word ++ [c]) rest
    else if c = backslash ∧ ¬flags.retainEscape then extractLoop (some quote) true word rest
    else extractLoop (some quote) false (word ++ [c]) rest
  | none, false, word, [] => .ok (some word, none)
  | none, false, word, c :: rest =>
    if isQuote c ∧ (flags.keepQuote || flags.unquote) then
      extractLoop (some c) false (if flags.unquote then word else word ++ [c]) rest
    else if c = backslash ∧ ¬flags.retainEscape then extractLoop none true word rest
    else if c ∈ separators then .ok (endWord flags separators word c rest)
    else extractLoop none false (word ++ [c]) rest

/-- The first loop looks for the start of a word. -/
def extractStart : CString → Except Errno Extracted
  | [] => .ok (if flags.dontCoalesceSeparators then some [] else none, none)
  | c :: rest =>
    if c ∈ separators then
      if flags.dontCoalesceSeparators then
        .ok (some [], some (if flags.retainSeparators then c :: rest else rest))
      else extractStart rest
    else extractLoop flags separators none false [] (c :: rest)

def extractFirstWord : Option CString → Except Errno Extracted
  | none => .ok (none, none)
  | some p => extractStart flags separators p

end Extract

/-! ## Each word takes something off the string -/

section Progress

variable {flags : ExtractFlags} {separators : CString}

variable {word rest next : CString} {found : Option CString}

theorem endWord_length (skips : flags.retainSeparators = false) {c : UInt8}
    (ended : endWord flags separators word c rest = (found, some next)) : next.length ≤ rest.length := by
  unfold endWord at ended
  simp only [skips, Bool.false_eq_true, if_false] at ended
  split at ended
  · simp only [Prod.mk.injEq, Option.some.injEq] at ended
    rw [← ended.2]
  · split at ended
    · simp at ended
    · simp only [Prod.mk.injEq, Option.some.injEq] at ended
      rw [← ended.2]
      exact (List.dropWhile_suffix _).length_le

theorem extractLoop_length (skips : flags.retainSeparators = false) {quote : Option UInt8} {escaped : Bool}
    (extracted : extractLoop flags separators quote escaped word rest = .ok (found, some next)) :
    next.length < rest.length := by
  fun_induction extractLoop flags separators quote escaped word rest with
  | case1 =>
    unfold endEscaped at extracted
    split_ifs at extracted <;> cases extracted
  | case2 _ _ _ _ ih =>
    simp only [bind, Except.bind] at extracted
    split at extracted
    · cases extracted
    · exact Nat.lt_succ_of_lt (ih _ extracted)
  | case11 => exact Nat.lt_succ_of_le (endWord_length skips (Except.ok.inj extracted))
  | case3 | case4 | case8 => cases extracted
  | _ =>
    rename_i ih
    exact Nat.lt_succ_of_lt (ih extracted)

theorem extractFirstWord_length (skips : flags.retainSeparators = false) {p : CString}
    (extracted : extractFirstWord flags separators (some p) = .ok (found, some next)) : next.length < p.length := by
  rw [extractFirstWord] at extracted
  fun_induction extractStart flags separators p with
  | case1 => cases extracted
  | case2 =>
    cases extracted
    simp [skips]
  | case3 _ _ _ _ ih => exact Nat.lt_succ_of_lt (ih extracted)
  | case4 => exact extractLoop_length skips extracted

end Progress

end SystemdPort.Basic
