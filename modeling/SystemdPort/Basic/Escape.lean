/-
# Basic.Escape — three ways to escape a string, one to read it

`src/basic/escape.c`.  `cescape_length()`, `octescape()` and `xescape_full()` write a string byte by byte.
What `cunescape_one()` reads does not depend on what follows it (`cunescapeOne_append`), so it is enough
that the text for each byte alone is read as that byte (`standsFor`).
-/
import SystemdPort.Basic.UnitName

namespace SystemdPort.Basic

set_option autoImplicit false

open List

/-- `octchar()` -/
def octchar (x : UInt8) : UInt8 := chr '0' + (x &&& 7)

/-- `unoctchar()` -/
def unoctchar (c : UInt8) : Option UInt8 := if chr '0' ≤ c ∧ c ≤ chr '7' then some (c - chr '0') else none

/-! ## Escaping -/

/-- The letters of `cescape_char()`. -/
def escapeLetters : List (UInt8 × UInt8) :=
  [(7, chr 'a'), (8, chr 'b'), (12, chr 'f'), (10, chr 'n'), (13, chr 'r'), (9, chr 't'), (11, chr 'v'), (92, 92),
    (34, 34), (39, 39)]

/-- `cescape_char()` -/
def cescapeChar (c : UInt8) : CString :=
  match escapeLetters.lookup c with
  | some letter => [92, letter]
  | none => if c < 32 ∨ 127 ≤ c then [92, octchar (c >>> 6), octchar (c >>> 3), octchar c] else [c]

/-- `cescape_length()` -/
def cescapeLength (s : CString) : CString := s.flatMap cescapeChar

/-- What the loop of `octescape()` writes for a byte. -/
def octescapeChar (u : UInt8) : CString :=
  if u < 32 ∨ 127 ≤ u ∨ u = 92 ∨ u = 34 then
    [92, chr '0' + (u >>> 6), chr '0' + (u >>> 3 &&& 7), chr '0' + (u &&& 7)]
  else [u]

/-- `octescape()` -/
def octescape (s : CString) : CString := s.flatMap octescapeChar

structure XEscapeFlags where
  eightBit : Bool := false
  forceEllipsis : Bool := false

/-- What the loop of `xescape_full()` writes for a byte. -/
def xescapeChar (bad : CString) (eightBit : Bool) (f : UInt8) : CString :=
  if f < 32 ∨ (eightBit = false ∧ 127 ≤ f) ∨ f = 92 ∨ f ∈ bad then doEscapeChar f else [f]

/-- The end of `xescape_full()`, where dots are written, up to two bytes of the string earlier. -/
def xescapeEllipsis (width : Nat) (ans : CString) (prev prev2 : Nat) : CString :=
  let c := min width 3
  let off := if ans.length ≤ width - c then ans.length else if prev ≤ width - c then prev
    else if prev2 ≤ width - c then prev2 else width - c
  ans.take off ++ List.replicate c (chr '.')

/-- The loop of `xescape_full()`. -/
def xescapeLoop (bad : CString) (width : Nat) (flags : XEscapeFlags) : CString → CString → Nat → Nat → CString
  | [], ans, prev, prev2 => if flags.forceEllipsis then xescapeEllipsis width ans prev prev2 else ans
  | f :: s, ans, prev, prev2 =>
    let out := xescapeChar bad flags.eightBit f
    if width < ans.length + out.length + 3 * flags.forceEllipsis.toNat then xescapeEllipsis width ans prev prev2
    else xescapeLoop bad width flags s (ans ++ out) ans.length prev

/-- `xescape_full()`.  A string ends at its first NUL. -/
def xescapeFull (s bad : CString) (consoleWidth : Nat) (flags : XEscapeFlags) : CString :=
  if consoleWidth = 0 then [] else xescapeLoop bad consoleWidth flags (s.takeWhile (· ≠ 0)) [] 0 0

/-! ## Unescaping -/

/-- The letters of `cunescape_one()`. -/
def unescapeLetters : List (UInt8 × UInt8) :=
  [(chr 'a', 7), (chr 'b', 8), (chr 'f', 12), (chr 'n', 10), (chr 'r', 13), (chr 't', 9), (chr 'v', 11), (92, 92),
    (34, 34), (39, 39), (chr 's', 32)]

/-- The number that the first `n` digits of a text stand for. -/
def escapedNumber (base : Nat) (digit : UInt8 → Option UInt8) (n : Nat) (p : CString) : Option Nat :=
  if p.length < n then none else (p.take n).foldlM (fun v c => (digit c).map (v * base + ·.toNat)) 0

/-- `cunescape_one()`: the character, whether it is a single byte, and how much was read.  Every error
is `EINVAL`. -/
def cunescapeOne (acceptNul : Bool) : CString → Option (Nat × Bool × Nat)
  | [] => none
  | c :: rest =>
    match unescapeLetters.lookup c with
    | some u => some (u.toNat, false, 1)
    | none =>
      -- no NUL unless it is asked for
      let number (u : Option Nat) (valid : Nat → Bool) (eightBit : Bool) (r : Nat) :=
        u.bind fun u => if (u = 0 ∧ !acceptNul) ∨ !valid u then none else some (u, eightBit, r)
      if c = chr 'x' then number (escapedNumber 16 unhexchar 2 rest) (fun _ => true) true 3
      else if c = chr 'u' then number (escapedNumber 16 unhexchar 4 rest) (fun _ => true) false 5
      else if c = chr 'U' then number (escapedNumber 16 unhexchar 8 rest) (unicharIsValid ∘ .ofNat 32) false 9
      else number (escapedNumber 8 unoctchar 3 (c :: rest)) (· ≤ 255) true 3

/-- `utf8_encode_unichar()` -/
def utf8EncodeUnichar (g : Nat) : CString :=
  List.map Nat.toUInt8 <|
    if g < 2 ^ 7 then [g &&& 0x7f]
    else if g < 2 ^ 11 then [0xc0 ||| (g >>> 6 &&& 0x1f), 0x80 ||| (g &&& 0x3f)]
    else if g < 2 ^ 16 then [0xe0 ||| (g >>> 12 &&& 0x0f), 0x80 ||| (g >>> 6 &&& 0x3f), 0x80 ||| (g &&& 0x3f)]
    else if g < 2 ^ 21 then
      [0xf0 ||| (g >>> 18 &&& 0x07), 0x80 ||| (g >>> 12 &&& 0x3f), 0x80 ||| (g >>> 6 &&& 0x3f), 0x80 ||| (g &&& 0x3f)]
    else []

/-- The bytes that a character read by `cunescape_one()` is written as. -/
def unescapedBytes (u : Nat) (eightBit : Bool) : CString := if eightBit then [u.toUInt8] else utf8EncodeUnichar u

structure UnescapeFlags where
  relax : Bool := false
  acceptNul : Bool := false

/-- The loop of `cunescape_length()`, which first passes over the `skip` bytes of an escape. -/
def cunescapeLoop (flags : UnescapeFlags) : Nat → CString → Except Errno CString
  | _, [] => .ok []
  | skip + 1, _ :: rest => cunescapeLoop flags skip rest
  | 0, f :: rest =>
    if f ≠ 92 then (f :: ·) <$> cunescapeLoop flags 0 rest
    else
      match cunescapeOne flags.acceptNul rest with
      | none => if flags.relax then (f :: ·) <$> cunescapeLoop flags 0 rest else .error .einval
      | some (u, eightBit, r) => (unescapedBytes u eightBit ++ ·) <$> cunescapeLoop flags r rest

/-- `cunescape_length()` -/
def cunescapeLength (s : CString) (flags : UnescapeFlags) : Except Errno CString := cunescapeLoop flags 0 s

/-! ## Round trips -/

section RoundTrip

variable {flags : UnescapeFlags} {p rest : CString} {c : UInt8}

theorem escapedNumber_append {base n v : Nat} {digit : UInt8 → Option UInt8}
    (number : escapedNumber base digit n p = some v) : escapedNumber base digit n (p ++ rest) = some v := by
  unfold escapedNumber at number ⊢
  split at number
  · cases number
  · rw [if_neg (by rw [length_append]; omega), take_append_of_le_length (by omega)]
    exact number

/-- What follows an escape does not matter. -/
theorem cunescapeOne_append {acceptNul : Bool} {one : Nat × Bool × Nat} (read : cunescapeOne acceptNul p = some one) :
    cunescapeOne acceptNul (p ++ rest) = some one := by
  cases p with
  | nil => cases read
  | cons c p =>
    rw [cons_append]
    rw [cunescapeOne] at read ⊢
    split at read
    · exact read
    · split_ifs at read ⊢ <;>
        (obtain ⟨u, number, known⟩ := Option.bind_eq_some_iff.mp read
         exact Option.bind_eq_some_iff.mpr ⟨u, escapedNumber_append number, known⟩)

/-- A text that is read as one byte when nothing follows it. -/
def standsFor (c : UInt8) : CString → Bool
  | [] => false
  | f :: p =>
    if f ≠ 92 then f = c ∧ p = []
    else (cunescapeOne true p).any fun (u, eightBit, r) => unescapedBytes u eightBit = [c] ∧ r = p.length

theorem cunescapeLoop_skip (p rest : CString) :
    cunescapeLoop flags p.length (p ++ rest) = cunescapeLoop flags 0 rest := by
  induction p with
  | nil => rfl
  | cons _ _ ih => exact ih

theorem cunescapeLoop_standsFor (nul : flags.acceptNul = true) {text : CString} (stands : standsFor c text = true) :
    cunescapeLoop flags 0 (text ++ rest) = (c :: ·) <$> cunescapeLoop flags 0 rest := by
  cases text with
  | nil => cases stands
  | cons f p =>
    rw [standsFor] at stands
    split at stands
    · rename_i plain
      obtain ⟨rfl, rfl⟩ := of_decide_eq_true stands
      rw [singleton_append, cunescapeLoop, if_pos plain]
    · rename_i escape
      obtain ⟨⟨u, eightBit, r⟩, read, known⟩ := (Option.any_eq_true ..).mp stands
      obtain ⟨bytes, rfl⟩ := of_decide_eq_true known
      rw [cons_append, cunescapeLoop, if_neg escape, nul, cunescapeOne_append read]
      dsimp only
      rw [bytes, cunescapeLoop_skip]
      rfl

theorem cunescapeLoop_flatMap (nul : flags.acceptNul = true) {escape : UInt8 → CString}
    (stands : ∀ c, standsFor c (escape c) = true) (s : CString) : cunescapeLoop flags 0 (s.flatMap escape) = .ok s := by
  induction s with
  | nil => rfl
  | cons c s ih =>
    rw [flatMap_cons, cunescapeLoop_standsFor nul (stands c), ih]
    rfl

theorem standsFor_xescapeChar (bad : CString) (eightBit : Bool) (c : UInt8) :
    standsFor c (xescapeChar bad eightBit c) = true := by
  unfold xescapeChar
  split
  · exact forall_byte (P := fun c => standsFor c (doEscapeChar c)) (by decide +kernel) c
  · rename_i plain
    have notSlash : c ≠ 92 := fun same => plain (.inr (.inr (.inl same)))
    simp [standsFor, notSlash]

/-- As long as the width is enough, everything is written. -/
theorem xescapeLoop_fits {bad s ans : CString} {width : Nat} {eightBit : Bool} (prev prev2 : Nat)
    (fits : ans.length + (s.flatMap (xescapeChar bad eightBit)).length ≤ width) :
    xescapeLoop bad width { eightBit } s ans prev prev2 = ans ++ s.flatMap (xescapeChar bad eightBit) := by
  induction s generalizing ans prev prev2 with
  | nil => exact (append_nil ans).symm
  | cons f s ih =>
    rw [flatMap_cons, length_append] at fits
    rw [xescapeLoop, if_neg (by simp only [Bool.toNat_false]; omega), ih, flatMap_cons, append_assoc]
    rwa [length_append, Nat.add_assoc]

end RoundTrip

/-- `cunescape_length()` undoes `cescape_length()` and `octescape()`, and also `xescape_full()` where all
of the escaped string fits and no dots are asked for. -/
theorem cunescape_undoes {flags : UnescapeFlags} (nul : flags.acceptNul = true) (s : CString) :
    cunescapeLength (cescapeLength s) flags = .ok s ∧ cunescapeLength (octescape s) flags = .ok s ∧
    ∀ (bad : CString) (eightBit : Bool) (width : Nat), 0 ∉ s →
      (s.flatMap (xescapeChar bad eightBit)).length ≤ width →
      cunescapeLength (xescapeFull s bad width { eightBit }) flags = .ok s := by
  refine ⟨?_, ?_, fun bad eightBit width noNul fits => ?_⟩
  · exact cunescapeLoop_flatMap nul (forall_byte (by decide +kernel)) s
  · exact cunescapeLoop_flatMap nul (forall_byte (by decide +kernel)) s
  · have whole : s.takeWhile (· ≠ 0) = s := by
      rw [takeWhile_eq_self_iff]
      intro c mem
      simpa using ne_of_mem_of_not_mem mem noNul
    have written : xescapeFull s bad width { eightBit } = s.flatMap (xescapeChar bad eightBit) := by
      unfold xescapeFull
      split
      · rename_i none
        rw [none, Nat.le_zero, length_eq_zero_iff] at fits
        exact fits.symm
      · rw [whole, xescapeLoop_fits 0 0 (by simpa using fits), nil_append]
    rw [written]
    exact cunescapeLoop_flatMap nul (standsFor_xescapeChar bad eightBit) s

theorem cunescape_undoes_tab :
    xescapeFull (cstr "a\tb") (cstr "b") 80 {} = cstr "a\\x09\\x62" ∧
      cunescapeLength (xescapeFull (cstr "a\tb") (cstr "b") 80 {}) { acceptNul := true } = .ok (cstr "a\tb") :=
  ⟨by decide +kernel, (cunescape_undoes rfl _).2.2 _ false 80 (by decide +kernel) (by decide +kernel)⟩

/-- With `XESCAPE_FORCE_ELLIPSIS` dots are written also where the width is enough. -/
theorem xescapeFull_ellipsis :
    ((cstr "a").flatMap (xescapeChar [] false)).length ≤ 80 ∧
      cunescapeLength (xescapeFull (cstr "a") [] 80 { forceEllipsis := true }) { acceptNul := true } =
        .ok (cstr "a...") := by
  decide +kernel

end SystemdPort.Basic
