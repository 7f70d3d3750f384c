/-
# Basic.UnitNamePath — from a path to a unit name and back

A name that was not hashed gives the path back, unless the path itself ends like a hash: hashed
names are told apart only by their shape.  `LikeHash` is that shape, and escaping neither makes
nor hides it.
-/
import SystemdPort.Basic.UnitName
import SystemdPort.Lib.Exec

namespace SystemdPort.Basic

set_option autoImplicit false

open List SystemdPort.Lib.Exec

variable {escaped path s w : CString} {pathMax : Nat} {c : UInt8}

/-- Ends in an underscore and sixteen hexadecimal digits. -/
def LikeHash (s : CString) : Prop :=
  ∃ before digits, s = before ++ chr '_' :: digits ∧ digits.length = unitNameHashLengthChars ∧
    ∀ d ∈ digits, d ∈ lowercaseHexdigits

/-! ## Escapes and hashes -/

/-- What stands for one character of an escaped string: itself, or what cannot be mistaken for
the end of a hash. -/
inductive EscapedAs : UInt8 → CString → Prop
  | self (c : UInt8) : EscapedAs c [c]
  | dash : EscapedAs slashChar [chr '-']
  | code (c : UInt8) : EscapedAs c (doEscapeChar c)

theorem escapedAs_escapeChar (c : UInt8) : EscapedAs c (escapeChar c) := by
  unfold escapeChar
  split_ifs with isSlash
  · rw [isSlash]
    exact .dash
  · exact .code c
  · exact .self c

/-- The pieces an escaped string is made of. -/
theorem unitNameEscape_pieces (w : CString) :
    ∃ pieces : List CString, unitNameEscape w = pieces.flatten ∧ List.Forall₂ EscapedAs w pieces := by
  have rest (w : CString) : List.Forall₂ EscapedAs w (w.map escapeChar) := by
    induction w with
    | nil => exact .nil
    | cons c w ih => exact .cons (escapedAs_escapeChar c) ih
  cases w with
  | nil => exact ⟨[], rfl, .nil⟩
  | cons c w =>
    refine ⟨(if c = dotChar then doEscapeChar c else escapeChar c) :: w.map escapeChar, ?_, ?_⟩
    · simp [unitNameEscape, flatMap_def]
    · refine .cons ?_ (rest w)
      split
      · exact .code c
      · exact escapedAs_escapeChar c

theorem hex_facts : chr '_' ∉ lowercaseHexdigits ∧ chr 'x' ∉ lowercaseHexdigits ∧ chr '-' ∉ lowercaseHexdigits ∧
    chr 'x' ≠ chr '_' ∧ chr '-' ≠ chr '_' := by
  decide

variable {digits base t p name : CString} {cs : List CString} {hash : CString → UInt64}

/-- Read from its end, a hash is made of characters that stand for themselves. -/
theorem likeHash_reversed {pieces : List CString} (escaped : List.Forall₂ EscapedAs w pieces) {before : CString}
    (hex : ∀ d ∈ digits, d ∈ lowercaseHexdigits)
    (shape : (pieces.map List.reverse).flatten = digits ++ chr '_' :: before) :
    ∃ rest, w = digits ++ chr '_' :: rest := by
  obtain ⟨noUnderscore, noX, noDash, notX, notDash⟩ := hex_facts
  have notHex (x : UInt8) : hexchar x ≠ chr '_' := by
    intro same
    exact noUnderscore (same ▸ hex_hexchar x)
  induction digits generalizing w pieces with
  | nil =>
    cases escaped with
    | nil => simp at shape
    | @cons c piece w pieces here later =>
      cases here with
      | self => exact ⟨w, by simpa using (List.cons.inj shape).1⟩
      | dash => exact absurd (List.cons.inj shape).1 notDash
      | code => exact absurd (List.cons.inj shape).1 (notHex _)
  | cons d digits ih =>
    have isHex := hex d (by simp)
    have rest_hex (e : UInt8) (member : e ∈ digits) : e ∈ lowercaseHexdigits := hex e (by simp [member])
    cases escaped with
    | nil => simp at shape
    | @cons c piece w pieces here later =>
      cases here with
      | self =>
        obtain ⟨rfl, behind⟩ := List.cons.inj shape
        obtain ⟨rest, rfl⟩ := ih later rest_hex behind
        exact ⟨rest, rfl⟩
      | dash =>
        obtain ⟨rfl, -⟩ := List.cons.inj shape
        exact absurd isHex noDash
      | code =>
        -- behind the digits of a code comes an x, which is neither a digit nor an underscore
        obtain ⟨-, behind⟩ := List.cons.inj shape
        cases digits with
        | nil => exact absurd (List.cons.inj behind).1 (notHex _)
        | cons e digits =>
          obtain ⟨-, behind⟩ := List.cons.inj behind
          cases digits with
          | nil => exact absurd (List.cons.inj behind).1 notX
          | cons f digits =>
            obtain ⟨rfl, -⟩ := List.cons.inj behind
            exact absurd (rest_hex (chr 'x') (by simp)) noX

theorem likeHash_iff_reverse : LikeHash s ↔ ∃ digits rest, s.reverse = digits ++ chr '_' :: rest ∧
    digits.length = unitNameHashLengthChars ∧ ∀ d ∈ digits, d ∈ lowercaseHexdigits := by
  constructor
  · rintro ⟨before, digits, rfl, length, hex⟩
    exact ⟨digits.reverse, before.reverse, by simp, by simpa using length, by simpa using hex⟩
  · rintro ⟨digits, rest, shape, length, hex⟩
    exact ⟨rest.reverse, digits.reverse, by simpa using congrArg reverse shape, by simpa using length, by simpa using hex⟩

theorem likeHash_of_escape (shape : LikeHash (unitNameEscape w)) : LikeHash w := by
  obtain ⟨pieces, same, escaped⟩ := unitNameEscape_pieces w
  obtain ⟨digits, rest, reversed, length, hex⟩ := likeHash_iff_reverse.mp shape
  have fromEnd : (pieces.reverse.map List.reverse).flatten = digits ++ chr '_' :: rest := by
    rw [← reversed, same, reverse_flatten]
    simp
  obtain ⟨rest', found⟩ := likeHash_reversed (rel_reverse escaped) hex fromEnd
  exact likeHash_iff_reverse.mpr ⟨digits, rest', found, length, hex⟩

theorem escape_of_likeHash (shape : LikeHash w) : LikeHash (unitNameEscape w) := by
  obtain ⟨before, digits, rfl, length, hex⟩ := shape
  have plain (c : UInt8) (char : c = chr '_' ∨ c ∈ lowercaseHexdigits) : escapeChar c = [c] ∧ c ≠ dotChar := by
    have every : ∀ c ∈ chr '_' :: lowercaseHexdigits, escapeChar c = [c] ∧ c ≠ dotChar := by decide +kernel
    exact every c (by simpa using char)
  have unchanged : digits.flatMap escapeChar = digits := by
    clear length
    induction digits with
    | nil => rfl
    | cons d digits ih =>
      rw [flatMap_cons, (plain d (.inr (hex d (by simp)))).1, ih fun e member => hex e (by simp [member])]
      rfl
  have underscore := plain (chr '_') (.inl rfl)
  cases before with
  | nil =>
    refine ⟨[], digits, ?_, length, hex⟩
    simp [unitNameEscape, underscore, unchanged]
  | cons c before =>
    refine ⟨(if c = dotChar then doEscapeChar c else escapeChar c) ++ before.flatMap escapeChar, digits, ?_, length, hex⟩
    simp [unitNameEscape, underscore, unchanged]

/-- Escaping neither makes nor hides the shape of a hash. -/
theorem likeHash_escape_iff : LikeHash (unitNameEscape w) ↔ LikeHash w :=
  ⟨likeHash_of_escape, escape_of_likeHash⟩

/-! ## Names with a suffix -/

theorem strrchr_append {tail : CString} (last : c ∉ tail) : strrchr (base ++ c :: tail) c = some base.length := by
  have found : c ∈ base ++ c :: tail := by simp
  have index : (base ++ c :: tail).reverse.idxOf c = tail.length := by
    have reversed : (base ++ c :: tail).reverse = tail.reverse ++ c :: base.reverse := by simp
    rw [reversed, idxOf_append_of_notMem (by simpa using last)]
    simp
  rw [strrchr, index]
  simp

theorem unitTypes_plain (isType : t ∈ unitTypes) : chr '.' ∉ t ∧ chr '@' ∉ t := by
  have every : ∀ t ∈ unitTypes, chr '.' ∉ t ∧ chr '@' ∉ t := by decide
  exact every t isType

section Name

variable {base t : CString}

theorem unitNameIsValid_any {n : CString} (valid : unitNameIsValid n { plain := true } = true) :
    unitNameIsValid n .any = true := by
  unfold unitNameIsValid at valid ⊢
  split_ifs at valid ⊢
  split at valid
  · cases valid
  · split_ifs at valid ⊢
    split at valid
    · rfl
    · simp at valid

section

variable (isType : t ∈ unitTypes) (valid : unitNameIsValid (base ++ chr '.' :: t) { plain := true } = true)

include isType valid

/-- What a plain name is. -/
theorem unitNameIsValid_plain : chr '@' ∉ base := by
  have noAt : strchr base (chr '@') = none := by
    unfold unitNameIsValid at valid
    rw [strrchr_append (unitTypes_plain isType).1] at valid
    dsimp only at valid
    rw [take_left] at valid
    split_ifs at valid
    split at valid
    · assumption
    · simp at valid
  intro member
  rw [strchr, if_pos member] at noAt
  cases noAt

theorem unitNameToPrefix_plain : unitNameToPrefix (base ++ chr '.' :: t) = .ok base := by
  have noAt := unitNameIsValid_plain isType valid
  have any := unitNameIsValid_any valid
  have nowhere : strchr (base ++ chr '.' :: t) (chr '@') = none := by
    rw [strchr, if_neg]
    simp only [mem_append, mem_cons, not_or]
    exact ⟨noAt, by decide, (unitTypes_plain isType).2⟩
  rw [unitNameToPrefix, any, nowhere, strrchr_append (unitTypes_plain isType).1]
  simp

/-- Hashed names are told by the shape of what is before the suffix. -/
theorem unitNameIsHashed_iff : unitNameIsHashed (base ++ chr '.' :: t) = true ↔ LikeHash base := by
  rw [unitNameIsHashed, valid, strrchr_append (unitTypes_plain isType).1]
  simp only [Bool.not_true, Bool.false_eq_true, if_false]
  constructor
  · intro shape
    by_cases short : base.length < unitNameHashLengthChars + 1
    · rw [if_pos short] at shape
      cases shape
    rw [if_neg short] at shape
    simp only [decide_eq_true_eq, all_eq_true] at shape
    obtain ⟨underscore, hex⟩ := shape
    generalize index : base.length - unitNameHashLengthChars = k at underscore hex
    have digits : ((base ++ chr '.' :: t).drop k).take unitNameHashLengthChars = base.drop k := by
      rw [drop_append_of_le_length (by omega), take_left' (by simp; omega)]
    rw [digits] at hex
    rw [getElem?_append_left (by omega)] at underscore
    obtain ⟨inside, same⟩ := List.getElem?_eq_some_iff.mp underscore
    refine ⟨base.take (k - 1), base.drop k, ?_, by simp; omega, hex⟩
    have step : base.drop (k - 1) = chr '_' :: base.drop k := by
      rw [drop_eq_getElem_cons inside]
      congr 2
      omega
    rw [← step, take_append_drop]
  · rintro ⟨before, digits, rfl, length, hex⟩
    have total : (before ++ chr '_' :: digits).length = before.length + 1 + unitNameHashLengthChars := by
      simp
      omega
    have atDigits : (before ++ chr '_' :: digits).length - unitNameHashLengthChars = before.length + 1 := by omega
    rw [if_neg (by omega), atDigits]
    have split : before ++ chr '_' :: digits ++ chr '.' :: t = (before ++ [chr '_']) ++ (digits ++ chr '.' :: t) := by simp
    have dropped : (before ++ chr '_' :: digits ++ chr '.' :: t).drop (before.length + 1) = digits ++ chr '.' :: t := by
      rw [split, drop_left' (by simp)]
    rw [dropped, take_left' length]
    simp only [decide_eq_true_eq, all_eq_true]
    exact ⟨by simp, hex⟩

end

end Name

/-! ## Normalized paths -/

theorem walk_join (walk : Walk p cs) : Walk ([slashChar].intercalate cs) cs := by
  induction walk with
  | nil => exact .nil
  | last component => simpa using .last component
  | @cons c rest cs component walk ih =>
    cases cs with
    | nil => simpa using .last component
    | cons c' cs =>
      exact .cons component ih

/-- A walk may end in a slash, and has no other slashes than those between its components. -/
theorem walk_shape (walk : Walk p cs) :
    p = [slashChar].intercalate cs ∨ p = [slashChar].intercalate cs ++ [slashChar] := by
  induction walk with
  | nil => exact .inl rfl
  | last component => simp
  | @cons c rest cs component walk ih =>
    cases cs with
    | nil => cases walk; simp
    | cons c' cs => rcases ih with rfl | rfl <;> simp

/-- The simple form of a normalized path is normalized. -/
theorem normalized_join (walk : Walk p cs) (normalized : pathIsNormalized pathMax (slashChar :: p) = true) :
    pathIsNormalized pathMax (slashChar :: [slashChar].intercalate cs) = true := by
  rcases walk_shape walk with rfl | longer
  · exact normalized
  have same : pathComponents (slashChar :: [slashChar].intercalate cs) = pathComponents (slashChar :: p) := by
    rw [pathComponents_slash, pathComponents_slash, walk_components walk, walk_components (walk_join walk)]
  have before : slashChar :: [slashChar].intercalate cs <+: slashChar :: p := by simp [longer]
  simp only [pathIsNormalized, pathIsValidFull, Bool.and_eq_true, Bool.not_eq_true', decide_eq_false_iff_not, not_or,
    validLoop_iff, same] at normalized ⊢
  obtain ⟨⟨⟨-, length, valid⟩, -, -, -, noDot⟩, noDouble⟩ := normalized
  refine ⟨⟨⟨by simp, before.length_le.trans_lt length, valid⟩, ?_, ?_, ?_, ?_⟩, ?_⟩
  · simp [slashChar, dotChar]
  · simp [slashChar, dotChar]
  · rintro ⟨front, ending⟩
    exact noDot ⟨front, [], by rw [longer, ← cons_append, ← ending]; simp⟩
  · exact fun found => noDot (found.trans before.isInfix)
  · exact fun found => noDouble (found.trans before.isInfix)

/-- The escape of a normalized path, and its simple form. -/
theorem unitNamePathEscape_normalized (absolute : pathIsAbsolute path = true)
    (normalized : pathIsNormalized pathMax path = true) :
    (pathSimplify path = [slashChar] ∧ unitNamePathEscape pathMax path = .ok [chr '-']) ∨
      ∃ w, pathSimplify path = slashChar :: w ∧ unitNamePathEscape pathMax path = .ok (unitNameEscape w) ∧ w ≠ [] ∧
        w.head? ≠ some slashChar ∧ w.getLast? ≠ some slashChar ∧ pathIsNormalized pathMax (slashChar :: w) = true := by
  obtain ⟨rest, cs, rfl, walk, simple⟩ := pathSimplify_normalized absolute normalized
  have again := normalized_join walk normalized
  rw [unitNamePathEscape, simple]
  by_cases root : cs = []
  · subst root
    exact .inl ⟨rfl, if_pos (by decide)⟩
  · obtain ⟨d, tail, head, notSlash⟩ := walk_join_head walk root
    have last := walk_join_last walk root
    have notRoot : emptyOrRoot (slashChar :: [slashChar].intercalate cs) ≠ true := by
      rw [Ne, emptyOrRoot_iff, pathComponents_slash, walk_components (walk_join walk)]
      simp [root]
    have trailing : deleteTrailingSlashes (slashChar :: [slashChar].intercalate cs) =
        slashChar :: [slashChar].intercalate cs := by
      obtain ⟨front, d, ending⟩ : ∃ front d, [slashChar].intercalate cs = front ++ [d] := by
        rcases eq_nil_or_concat ([slashChar].intercalate cs) with empty | ⟨front, d, ending⟩
        · simp [empty] at head
        · exact ⟨front, d, by simpa using ending⟩
      have notSlash : d ≠ slashChar := by simpa [ending] using last
      simp [deleteTrailingSlashes, ending, notSlash]
    have leading : skipSpan [slashChar] (slashChar :: [slashChar].intercalate cs) = [slashChar].intercalate cs := by
      rw [head]
      simp [skipSpan, notSlash]
    refine .inr ⟨_, rfl, ?_, by simp [head], by simpa [head] using notSlash, last, again⟩
    rw [if_neg notRoot, again, trailing, leading]
    rfl

/-! ## There and back -/

/-- The name of a path gets so long that it is hashed. -/
def TooLong (pathMax : Nat) (path suffix : CString) : Prop :=
  ∃ escaped, unitNamePathEscape pathMax path = .ok escaped ∧ unitNameMax ≤ (escaped ++ suffix).length

theorem hexmem_le64 (h : UInt64) :
    (hexmem (le64 h)).length = unitNameHashLengthChars ∧ ∀ d ∈ hexmem (le64 h), d ∈ lowercaseHexdigits := by
  refine ⟨rfl, ?_⟩
  intro d member
  obtain ⟨x, -, digit⟩ := mem_flatMap.mp member
  simp only [mem_cons, not_mem_nil, or_false] at digit
  rcases digit with rfl | rfl <;> exact hex_hexchar _

/-- A hashed name has the shape of one. -/
theorem unitNameHashLong_shape (isType : t ∈ unitTypes) (ok : unitNameHashLong hash (base ++ chr '.' :: t) = .ok name) :
    ∃ front, name = front ++ chr '.' :: t ∧ LikeHash front := by
  have suffix : (base ++ chr '.' :: t).drop base.length = chr '.' :: t := drop_left
  rw [unitNameHashLong, strrchr_append (unitTypes_plain isType).1] at ok
  dsimp only at ok
  rw [suffix] at ok
  split_ifs at ok
  obtain rfl := Except.ok.inj ok
  obtain ⟨length, hex⟩ := hexmem_le64 (hash (base ++ chr '.' :: t))
  exact ⟨_, rfl, _, _, append_assoc .., length, hex⟩

theorem unitNameFromPath_ok {suffix : CString} (built : unitNameFromPath pathMax hash path suffix = .ok name) :
    ∃ t escaped, suffix = chr '.' :: t ∧ t ∈ unitTypes ∧ unitNamePathEscape pathMax path = .ok escaped ∧
      unitNameIsValid name { plain := true } = true ∧
      ((unitNameMax ≤ (escaped ++ suffix).length ∧ unitNameHashLong hash (escaped ++ suffix) = .ok name) ∨
        ((escaped ++ suffix).length < unitNameMax ∧ name = escaped ++ suffix)) := by
  unfold unitNameFromPath at built
  split_ifs at built with badSuffix
  obtain ⟨t, rfl, isType⟩ : ∃ t, suffix = chr '.' :: t ∧ t ∈ unitTypes := by
    simp only [unitSuffixIsValid, Bool.not_eq_true', decide_eq_false_iff_not, not_not] at badSuffix
    obtain ⟨head, isType⟩ := badSuffix
    cases suffix with
    | nil => cases head
    | cons c t => exact ⟨t, by simpa using head, isType⟩
  obtain ⟨escaped, escape, built⟩ := except_bind_eq_ok.mp built
  refine ⟨t, escaped, rfl, isType, escape, ?_⟩
  dsimp only at built
  split at built <;>
    obtain ⟨s, named, built⟩ := except_bind_eq_ok.mp built <;>
    split_ifs at built with invalid <;>
    obtain rfl := Except.ok.inj built
  · exact ⟨by simpa using invalid, .inl ⟨‹_›, named⟩⟩
  · exact ⟨by simpa using invalid, .inr ⟨by omega, (Except.ok.inj named).symm⟩⟩

theorem not_likeHash_short (short : s.length < 17) : ¬LikeHash s := by
  rintro ⟨before, digits, rfl, length, -⟩
  rw [unitNameHashLengthChars] at length
  simp at short
  omega

theorem likeHash_slash : LikeHash (slashChar :: w) ↔ LikeHash w := by
  constructor
  · rintro ⟨before, digits, same, length, hex⟩
    cases before with
    | nil => exact absurd (List.cons.inj same).1 (by decide)
    | cons c before => exact ⟨before, digits, (List.cons.inj same).2, length, hex⟩
  · rintro ⟨before, digits, rfl, length, hex⟩
    exact ⟨slashChar :: before, digits, rfl, length, hex⟩

section

variable (absolute : pathIsAbsolute path = true) (normalized : pathIsNormalized pathMax path = true)

include absolute normalized

/-- The escaped path has the shape of a hash exactly if the path has it. -/
theorem likeHash_pathEscape (ok : unitNamePathEscape pathMax path = .ok escaped) :
    LikeHash escaped ↔ LikeHash (pathSimplify path) := by
  rcases unitNamePathEscape_normalized absolute normalized with ⟨simple, escape⟩ | ⟨w, simple, escape, -⟩ <;>
    obtain rfl := Except.ok.inj (ok.symm.trans escape)
  · rw [simple]
    exact iff_of_false (not_likeHash_short (by decide)) (not_likeHash_short (by decide))
  · rw [simple, likeHash_slash, likeHash_escape_iff]

theorem unitNamePathUnescape_escape (noNul : 0 ∉ pathSimplify path)
    (ok : unitNamePathEscape pathMax path = .ok escaped) :
    unitNamePathUnescape pathMax escaped = .ok (pathSimplify path) := by
  rcases unitNamePathEscape_normalized absolute normalized with
    ⟨simple, escape⟩ | ⟨w, simple, escape, nonempty, head, last, again⟩ <;>
    obtain rfl := Except.ok.inj (ok.symm.trans escape)
  · rw [simple]
    rfl
  · rw [simple] at noNul ⊢
    have unescaped : unitNameUnescape (unitNameEscape w) = .ok w :=
      unitNameUnescape_escape fun member => noNul (by simp [member])
    have notEmpty : unitNameEscape w ≠ [] := by
      intro empty
      rw [empty] at unescaped
      exact nonempty (by exact (Except.ok.inj unescaped).symm)
    have notDash : unitNameEscape w ≠ [chr '-'] := by
      intro dash
      rw [dash] at unescaped
      obtain rfl := Except.ok.inj unescaped
      exact head rfl
    rw [unitNamePathUnescape, if_neg notEmpty, if_neg notDash, unescaped]
    show (if w.head? = some slashChar ∨ w.getLast? = some slashChar then _ else _) = _
    rw [if_neg (not_or.mpr ⟨head, last⟩), again]
    rfl

theorem mem_pathSimplify (member : c ∈ pathSimplify path) : c ∈ path := by
  obtain ⟨rest, cs, rfl, walk, simple⟩ := pathSimplify_normalized absolute normalized
  rw [simple] at member
  rcases walk_shape walk with rfl | rfl
  · exact member
  · exact mem_append_left _ member

end

/-- A name made from a normalized path gives its simple form back, unless it was hashed or the path
has the shape of a hash, and for these the name is taken to be hashed. -/
theorem unitNameToPath_unitNameFromPath {pathMax : Nat} {hash : CString → UInt64} {path suffix name : CString}
    (string : 0 ∉ path) (absolute : pathIsAbsolute path = true) (normalized : pathIsNormalized pathMax path = true)
    (built : unitNameFromPath pathMax hash path suffix = .ok name) :
    (¬TooLong pathMax path suffix →
      (unitNameToPath pathMax name = .ok (pathSimplify path) ↔ ¬LikeHash (pathSimplify path))) ∧
    (unitNameIsHashed name = true ↔ TooLong pathMax path suffix ∨ LikeHash (pathSimplify path)) := by
  obtain ⟨t, escaped, rfl, isType, escape, valid, branch⟩ := unitNameFromPath_ok built
  have shape := likeHash_pathEscape absolute normalized escape
  rcases branch with ⟨long, hashed⟩ | ⟨short, rfl⟩
  · have tooLong : TooLong pathMax path (chr '.' :: t) := ⟨escaped, escape, long⟩
    refine ⟨fun notLong => absurd tooLong notLong, iff_of_true ?_ (.inl tooLong)⟩
    obtain ⟨front, rfl, like⟩ := unitNameHashLong_shape isType hashed
    exact (unitNameIsHashed_iff isType valid).mpr like
  · have notLong : ¬TooLong pathMax path (chr '.' :: t) := by
      rintro ⟨other, escape', long⟩
      obtain rfl : escaped = other := Except.ok.inj (escape.symm.trans escape')
      omega
    have isHashed := (unitNameIsHashed_iff isType valid).trans shape
    refine ⟨fun _ => ?_, isHashed.trans (by simp [notLong])⟩
    have back := unitNamePathUnescape_escape absolute normalized
      (fun member => string (mem_pathSimplify absolute normalized member)) escape
    have toPath : unitNameToPath pathMax (escaped ++ chr '.' :: t) =
        if unitNameIsHashed (escaped ++ chr '.' :: t) then .error .enametoolong else .ok (pathSimplify path) := by
      rw [unitNameToPath, unitNameToPrefix_plain isType valid, ← back]
      rfl
    rw [toPath]
    by_cases like : LikeHash (pathSimplify path)
    · simp [isHashed.mpr like, like]
    · have notHashed : unitNameIsHashed (escaped ++ chr '.' :: t) = false := by
        simpa using fun hashed => like (isHashed.mp hashed)
      simp [notHashed, like]

/-- A mount point with a name and its path. -/
theorem unitNameToPath_unitNameFromPath_home :
    unitNameFromPath 4096 (fun _ => 0) (cstr "/home/a-b/") (cstr ".mount") = .ok (cstr "home-a\\x2db.mount") ∧
      unitNameToPath 4096 (cstr "home-a\\x2db.mount") = .ok (pathSimplify (cstr "/home/a-b/")) := by
  have built : unitNameFromPath 4096 (fun _ => 0) (cstr "/home/a-b/") (cstr ".mount") =
      .ok (cstr "home-a\\x2db.mount") := by
    decide +kernel
  have escape : unitNamePathEscape 4096 (cstr "/home/a-b/") = .ok (cstr "home-a\\x2db") := by decide +kernel
  have notLong : ¬TooLong 4096 (cstr "/home/a-b/") (cstr ".mount") := by
    rintro ⟨escaped, escape', long⟩
    obtain rfl := Except.ok.inj (escape.symm.trans escape')
    exact absurd long (by decide)
  have notLike : ¬LikeHash (pathSimplify (cstr "/home/a-b/")) := not_likeHash_short (by decide +kernel)
  exact ⟨built,
    ((unitNameToPath_unitNameFromPath (by decide) (by decide) (by decide +kernel) built).1 notLong).mpr notLike⟩

/-- A mount point that ends like a hash. -/
theorem unitNameToPath_like_hash :
    unitNameFromPath 4096 (fun _ => 0) (cstr "/mnt_0123456789abcdef") (cstr ".mount") =
        .ok (cstr "mnt_0123456789abcdef.mount") ∧
      unitNameToPath 4096 (cstr "mnt_0123456789abcdef.mount") = .error .enametoolong ∧
      unitNameIsHashed (cstr "mnt_0123456789abcdef.mount") = true := by
  refine ⟨?_, ?_, ?_⟩ <;> decide +kernel

/-! ## Equal escapes -/

/-- What stands between the slashes of a path.  Paths that begin with a slash and have the same parts
are equal up to repeated and trailing slashes. -/
def slashParts (p : CString) : List CString := (p.splitOn slashChar).filter (· ≠ [])

theorem slashParts_append (p q : CString) : slashParts (p ++ slashChar :: q) = slashParts p ++ slashParts q := by
  rw [slashParts, splitOn_append_cons_self, filter_append]
  rfl

theorem walk_slashParts (walk : Walk p cs) : slashParts (slashChar :: p) = cs := by
  have single {c : CString} (component : IsComponent c) : slashParts c = [c] := by
    simp [slashParts, splitOn_eq_singleton component.noSlash, component.nonempty]
  rw [show slashParts (slashChar :: p) = slashParts p from slashParts_append [] p]
  induction walk with
  | nil => rfl
  | last component => exact single component
  | cons component walk ih =>
    rw [slashParts_append, single component, ih]
    rfl

theorem unitNameEscape_valid (w : CString) : ∀ d ∈ unitNameEscape w, d ∈ validChars := by
  have every := forall_byte (P := fun c => (escapeChar c ++ doEscapeChar c).all (· ∈ validChars)) (by decide +kernel)
  simp only [all_eq_true, decide_eq_true_eq, forall_mem_append] at every
  cases w with
  | nil => nofun
  | cons c w =>
    rw [unitNameEscape, forall_mem_append, forall_mem_flatMap]
    refine ⟨?_, fun c _ => (every c).1⟩
    split_ifs
    · exact (every c).2
    · exact (every c).1

/-- Escaping a normalized path keeps all of it but a slash at its end, in the characters of a unit
name. -/
theorem unitNamePathEscape_faithful {pathMax : Nat} {path : CString} (string : 0 ∉ path)
    (absolute : pathIsAbsolute path = true) (normalized : pathIsNormalized pathMax path = true) :
    ∃ escaped, unitNamePathEscape pathMax path = .ok escaped ∧
      unitNamePathUnescape pathMax escaped = .ok (pathSimplify path) ∧ (∀ d ∈ escaped, d ∈ validChars) ∧
      ∀ other, 0 ∉ other → pathIsAbsolute other = true → pathIsNormalized pathMax other = true →
        (unitNamePathEscape pathMax other = .ok escaped ↔ slashParts other = slashParts path) := by
  have back {path escaped : CString} (string : 0 ∉ path) (absolute : pathIsAbsolute path = true)
      (normalized : pathIsNormalized pathMax path = true) (escape : unitNamePathEscape pathMax path = .ok escaped) :
      unitNamePathUnescape pathMax escaped = .ok (pathSimplify path) :=
    unitNamePathUnescape_escape absolute normalized
      (fun member => string (mem_pathSimplify absolute normalized member)) escape
  have escapes : ∃ escaped, unitNamePathEscape pathMax path = .ok escaped ∧ ∀ d ∈ escaped, d ∈ validChars := by
    rcases unitNamePathEscape_normalized absolute normalized with ⟨-, escape⟩ | ⟨w, -, escape, -⟩
    · exact ⟨_, escape, forall_mem_singleton.mpr (by decide)⟩
    · exact ⟨_, escape, unitNameEscape_valid w⟩
  obtain ⟨escaped, escape, valid⟩ := escapes
  refine ⟨escaped, escape, back string absolute normalized escape, valid, fun other string' absolute' normalized' => ?_⟩
  obtain ⟨rest, cs, rfl, walk, simple⟩ := pathSimplify_normalized absolute normalized
  obtain ⟨rest', cs', rfl, walk', simple'⟩ := pathSimplify_normalized absolute' normalized'
  rw [walk_slashParts walk, walk_slashParts walk']
  constructor
  · intro escape'
    have same := (back string' absolute' normalized' escape').symm.trans (back string absolute normalized escape)
    rw [simple, simple'] at same
    rw [← walk_components (walk_join walk), ← walk_components (walk_join walk'),
      (List.cons.inj (Except.ok.inj same)).2]
  · rintro rfl
    rw [← escape, unitNamePathEscape, unitNamePathEscape, simple, simple']

theorem unitNamePathEscape_faithful_home :
    unitNamePathEscape 4096 (cstr "/home/a-b/") = .ok (cstr "home-a\\x2db") ∧
      unitNamePathEscape 4096 (cstr "/home/a-b") = .ok (cstr "home-a\\x2db") := by
  have escape : unitNamePathEscape 4096 (cstr "/home/a-b/") = .ok (cstr "home-a\\x2db") := by decide +kernel
  obtain ⟨escaped, escape', -, -, same⟩ := @unitNamePathEscape_faithful 4096 (cstr "/home/a-b/")
    (by decide) (by decide) (by decide +kernel)
  obtain rfl := Except.ok.inj (escape.symm.trans escape')
  exact ⟨escape, (same (cstr "/home/a-b") (by decide) (by decide) (by decide +kernel)).mpr (by decide +kernel)⟩

end SystemdPort.Basic
