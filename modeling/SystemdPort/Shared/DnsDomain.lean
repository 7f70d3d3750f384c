/-
# Shared.DnsDomain — domain names

`src/shared/dns-domain.c`: a domain name is the text of its labels with dots between them, where a
dot or a backslash of a label is written with a backslash before it and any byte may be written as
three decimal digits behind one.  Equality, hashing and the wire format read the labels from the
front, the order reads them from the end.

`unescape_iff` says what `dns_label_unescape()` accepts, in terms of `Text`, the texts of a label.
-/
import SystemdPort.Basic.Errno
import SystemdPort.Basic.StringUtil
import SystemdPort.Lib.Exec

namespace SystemdPort.Shared.Dns

set_option autoImplicit false

open Basic Lib.Exec List

variable {l n name rest t : CString}

def dot : UInt8 := 46

def backslash : UInt8 := 92

def hyphen : UInt8 := 45

/-- `DNS_LABEL_MAX` -/
def dnsLabelMax : Nat := 63

/-- `DNS_LABEL_ESCAPED_MAX` -/
def dnsLabelEscapedMax : Nat := dnsLabelMax * 4 + 1

/-- `DNS_HOSTNAME_MAX` -/
def dnsHostnameMax : Nat := 253

/-- `DNSLabelFlags` -/
structure DNSLabelFlags where
  ldh : Bool := false
  noEscapes : Bool := false
  leaveTrailingDot : Bool := false

/-- `valid_ldh_char()` -/
def validLdhChar (c : UInt8) : Bool := asciiIsalpha c || asciiIsdigit c || c == hyphen

/-! ## One label -/

/-- The number three digits stand for. -/
def decimalEscape (a b c : UInt8) : Nat := (a.toNat - 48) * 100 + (b.toNat - 48) * 10 + (c.toNat - 48)

/-- One round of the loop of `dns_label_unescape()`: the byte that a character or an escape at the
start of `n` stands for, and what follows it. -/
def unescapeChar (flags : DNSLabelFlags) (first : Bool) : CString → Except Errno (UInt8 × CString)
  | [] => .error .einval
  | c :: n =>
    if c = backslash then
      if flags.noEscapes then .error .einval
      else
        match n with
        | [] => .error .einval
        | e :: n =>
          if e = backslash ∨ e = dot then
            if flags.ldh then .error .einval else .ok (e, n)
          else if asciiIsdigit e then
            match n with
            | d :: f :: n =>
              if !asciiIsdigit d || !asciiIsdigit f then .error .einval
              else if 255 < decimalEscape e d f then .error .einval
              else if flags.ldh && !validLdhChar (UInt8.ofNat (decimalEscape e d f)) then .error .einval
              else .ok (UInt8.ofNat (decimalEscape e d f), n)
            | _ => .error .einval
          else .error .einval
    else if 32 ≤ c ∧ c ≠ 127 then
      if flags.ldh && (!validLdhChar c || (first && c == hyphen)) then .error .einval else .ok (c, n)
    else .error .einval

/-- The loop of `dns_label_unescape()`.  `room` is what is left of `DNS_LABEL_MAX`, `sz` what is
left of the buffer and `last` the last byte stored in it. -/
def unescapeLoop (flags : DNSLabelFlags) (room sz : Nat) (last : UInt8) (n : CString) :
    Except Errno (CString × CString) :=
  match n with
  | [] => if flags.ldh && last == hyphen then .error .einval else .ok ([], [])
  | c :: m =>
    if c = dot then
      if flags.ldh && last == hyphen then .error .einval
      else .ok ([], if m ≠ [] ∨ !flags.leaveTrailingDot then m else c :: m)
    else
      match room with
      | 0 => .error .einval
      | room + 1 =>
        if sz = 0 then .error .enobufs
        else do
          let (k, n) ← unescapeChar flags (room + 1 = dnsLabelMax) (c :: m)
          let (label, n) ← unescapeLoop flags room (sz - 1) k n
          return (k :: label, n)

/-- `dns_label_unescape()`: the first label of a name and the rest of the name. -/
def dnsLabelUnescape (name : CString) (sz : Nat) (flags : DNSLabelFlags) : Except Errno (CString × CString) := do
  let (label, n) ← unescapeLoop flags dnsLabelMax sz 0 name
  -- an empty label that is not at the end
  if label = [] ∧ n ≠ [] then .error .einval
  -- more than one trailing dot
  else if n.head? = some dot ∧ !flags.leaveTrailingDot then .error .einval
  else .ok (label, n)

/-- `dns_label_escape()` behind its checks, with `sz` bytes left. -/
def escapeLoop : CString → Nat → Except Errno CString
  | [], _ => .ok []
  | p :: l, sz =>
    if p = dot ∨ p = backslash then
      if sz < 3 then .error .enobufs else do return backslash :: p :: (← escapeLoop l (sz - 2))
    else if p = 95 ∨ p = hyphen ∨ asciiIsdigit p ∨ asciiIsalpha p then
      if sz < 2 then .error .enobufs else do return p :: (← escapeLoop l (sz - 1))
    else if sz < 5 then .error .enobufs
    else do
      return backslash :: (48 + p / 100) :: (48 + p / 10 % 10) :: (48 + p % 10) :: (← escapeLoop l (sz - 4))

/-- `dns_label_escape()` -/
def dnsLabelEscape (label : CString) (sz : Nat) : Except Errno CString :=
  if label = [] ∨ dnsLabelMax < label.length then .error .einval
  else if sz < 1 then .error .enobufs
  else escapeLoop label sz

/-! ## The texts of a label -/

/-- The ways to write one byte of a label. -/
inductive Item : CString → UInt8 → Prop
  | plain {c : UInt8} : c ≠ dot → c ≠ backslash → 32 ≤ c → c ≠ 127 → Item [c] c
  | quoted {c : UInt8} : c = backslash ∨ c = dot → Item [backslash, c] c
  | number {a b c : UInt8} : asciiIsdigit a = true → asciiIsdigit b = true → asciiIsdigit c = true →
      decimalEscape a b c ≤ 255 → Item [backslash, a, b, c] (UInt8.ofNat (decimalEscape a b c))

/-- `Text t label`: `t` is a way to write the label. -/
inductive Text : CString → CString → Prop
  | nil : Text [] []
  | cons {i t l : CString} {c : UInt8} : Item i c → Text t l → Text (i ++ t) (c :: l)

variable {i : CString} {c k : UInt8} {sz terminal : Nat} {flags : DNSLabelFlags}

theorem Item.head (item : Item i c) : ∃ a r, i = a :: r ∧ a ≠ dot := by
  cases item with
  | plain notDot => exact ⟨c, [], rfl, notDot⟩
  | quoted => exact ⟨backslash, [c], rfl, by decide⟩
  | number => exact ⟨backslash, _, rfl, by decide⟩

theorem digit_not_special (digit : asciiIsdigit c = true) : c ≠ backslash ∧ c ≠ dot := by
  constructor <;> rintro rfl <;> exact absurd digit (by decide)

theorem unescapeChar_item (item : Item i k) (first : Bool) (n : CString) :
    unescapeChar {} first (i ++ n) = .ok (k, n) := by
  cases item with
  | plain notDot notBackslash low high => simp [unescapeChar, notBackslash, low, high]
  | quoted special => simp [unescapeChar, special]
  | @number a b c da db dc small =>
    have special : ¬ (a = backslash ∨ a = dot) := by
      have := digit_not_special da
      tauto
    have fits : ¬ 255 < decimalEscape a b c := by omega
    simp [unescapeChar, special, da, db, dc, fits]

theorem item_of_unescapeChar {m : CString} {first : Bool} (notDot : n.head? ≠ some dot)
    (read : unescapeChar flags first n = .ok (k, m)) : ∃ i, Item i k ∧ n = i ++ m := by
  rcases n with _ | ⟨c, n⟩
  · cases read
  by_cases slash : c = backslash
  · subst slash
    rcases n with _ | ⟨e, n⟩
    · simp [unescapeChar] at read
    by_cases special : e = backslash ∨ e = dot
    · simp only [unescapeChar, if_true] at read
      split_ifs at read
      cases read
      exact ⟨_, .quoted special, rfl⟩
    · rcases n with _ | ⟨d, _ | ⟨f, n⟩⟩
      · simp [unescapeChar, special] at read
      · simp [unescapeChar, special] at read
      · simp only [unescapeChar, if_true, Bool.or_eq_true, Bool.not_eq_true'] at read
        split_ifs at read with _ de bad big
        simp only [not_or, Bool.not_eq_false] at bad
        cases read
        exact ⟨_, .number de bad.1 bad.2 (by omega), rfl⟩
  · simp only [unescapeChar, slash, if_false] at read
    split_ifs at read with range
    cases read
    exact ⟨[_], .plain (fun h => notDot (by simp [h])) slash range.1 range.2, rfl⟩

/-- Where a label ends: with the name, or at a dot that is left out of the rest. -/
def EndsLabel (t n rest : CString) : Prop := (n = t ∧ rest = []) ∨ n = t ++ dot :: rest

section Loop

variable (room sz : Nat) (last : UInt8)

@[simp] theorem unescapeLoop_nil : unescapeLoop {} room sz last [] = .ok ([], []) := by
  simp [unescapeLoop]

@[simp] theorem unescapeLoop_dot (m : CString) : unescapeLoop {} room sz last (dot :: m) = .ok ([], m) := by
  rw [unescapeLoop.eq_def]
  simp

variable {c : UInt8}

theorem unescapeLoop_char (notDot : c ≠ dot) (m : CString) : unescapeLoop {} (room + 1) sz last (c :: m) =
      if sz = 0 then .error .enobufs
      else do
        let (k, n) ← unescapeChar {} (room + 1 = dnsLabelMax) (c :: m)
        let (label, n) ← unescapeLoop {} room (sz - 1) k n
        return (k :: label, n) := by
  rw [unescapeLoop.eq_def]
  simp [notDot]

end Loop

theorem unescapeLoop_text (text : Text t l) (ends : EndsLabel t n rest) :
    ∀ {room sz : Nat} (last : UInt8), l.length ≤ room → l.length ≤ sz →
      unescapeLoop {} room sz last n = .ok (l, rest) := by
  induction text generalizing n with
  | nil =>
    rcases ends with ⟨rfl, rfl⟩ | rfl
    · simp
    · simp
  | @cons i t l c item text ih =>
    intro room sz last roomy large
    obtain ⟨m, rfl, later⟩ : ∃ m, n = i ++ m ∧ EndsLabel t m rest := by
      rcases ends with ⟨rfl, rfl⟩ | rfl
      · exact ⟨t, rfl, .inl ⟨rfl, rfl⟩⟩
      · exact ⟨t ++ dot :: rest, by simp, .inr rfl⟩
    simp only [length_cons] at roomy large
    obtain ⟨room, rfl⟩ : ∃ r, room = r + 1 := ⟨room - 1, by omega⟩
    have read := unescapeChar_item item (decide (room + 1 = dnsLabelMax)) m
    have tail : unescapeLoop {} room (sz - 1) c m = .ok (l, rest) := ih later c (by omega) (by omega)
    obtain ⟨a, r, rfl, notDot⟩ := item.head
    rw [cons_append] at read ⊢
    rw [unescapeLoop_char room sz last notDot, if_neg (by omega), read]
    show (do let (label, n) ← unescapeLoop {} room (sz - 1) c m; return (c :: label, n)) = _
    rw [tail]
    rfl

/-- Where a label ends, if the last dot may be left. -/
def EndsOrLeaves (flags : DNSLabelFlags) (t n rest : CString) : Prop :=
  EndsLabel t n rest ∨ n = t ++ [dot] ∧ rest = [dot] ∧ flags.leaveTrailingDot = true

theorem text_of_unescapeLoop {room : Nat} {last : UInt8} (read : unescapeLoop flags room sz last n = .ok (l, rest)) :
    ∃ t, Text t l ∧ EndsOrLeaves flags t n rest ∧ l.length ≤ room ∧ l.length ≤ sz := by
  fun_induction unescapeLoop flags room sz last n generalizing l with
  | case2 =>
    cases read
    exact ⟨[], .nil, .inl (.inl ⟨rfl, rfl⟩), by simp, by simp⟩
  | case4 =>
    split_ifs at read with skipped
    · cases read
      exact ⟨[], .nil, .inl (.inr rfl), by simp, by simp⟩
    · cases read
      simp only [not_or, not_not, Bool.not_eq_true, Bool.not_eq_false'] at skipped
      obtain ⟨rfl, leaves⟩ := skipped
      exact ⟨[], .nil, .inr ⟨rfl, rfl, leaves⟩, by simp, by simp⟩
  | case7 sz last c m notDot room _ ih =>
    obtain ⟨⟨k, n⟩, char, read⟩ := except_bind_eq_ok.mp read
    obtain ⟨⟨label, n'⟩, tail, read⟩ := except_bind_eq_ok.mp read
    cases read
    obtain ⟨i, item, whole⟩ := item_of_unescapeChar (by simpa using notDot) char
    obtain ⟨t, text, ends, roomy, large⟩ := ih _ _ tail
    refine ⟨i ++ t, .cons item text, ?_, by simpa using roomy, by simp only [length_cons]; omega⟩
    rw [whole]
    rcases ends with (⟨rfl, rfl⟩ | rfl) | ⟨rfl, leaves⟩
    · exact .inl (.inl ⟨rfl, rfl⟩)
    · exact .inl (.inr (by simp))
    · exact .inr ⟨by simp, leaves⟩
  | _ => cases read

theorem text_of_unescape (read : dnsLabelUnescape name sz flags = .ok (l, rest)) :
    (∃ t, Text t l ∧ EndsOrLeaves flags t name rest) ∧ l.length ≤ dnsLabelMax ∧ l.length ≤ sz ∧
      (l = [] → rest = []) ∧ (rest.head? = some dot → flags.leaveTrailingDot = true) := by
  obtain ⟨⟨label, n⟩, loop, read⟩ := except_bind_eq_ok.mp read
  simp only at read
  split_ifs at read with empty dots
  cases read
  obtain ⟨t, text, ends, roomy, large⟩ := text_of_unescapeLoop loop
  refine ⟨⟨t, text, ends⟩, roomy, large, by tauto, fun isDot => ?_⟩
  simpa [isDot] using dots

theorem unescape_iff : dnsLabelUnescape name sz {} = .ok (l, rest) ↔
      (∃ t, Text t l ∧ EndsLabel t name rest) ∧ l.length ≤ dnsLabelMax ∧ l.length ≤ sz ∧
        (l = [] → rest = []) ∧ rest.head? ≠ some dot := by
  constructor
  · intro read
    obtain ⟨⟨t, text, ends | ⟨_, _, leaves⟩⟩, roomy, large, empty, dots⟩ := text_of_unescape read
    · exact ⟨⟨t, text, ends⟩, roomy, large, empty, by simpa using dots⟩
    · cases leaves
  · rintro ⟨⟨t, text, ends⟩, roomy, large, empty, dots⟩
    rw [dnsLabelUnescape, unescapeLoop_text text ends 0 roomy large]
    show (if l = [] ∧ rest ≠ [] then _ else if rest.head? = some dot ∧ _ then _ else _) = _
    rw [if_neg (by tauto), if_neg (by tauto)]

/-- The size of the buffer does not matter as long as the label fits. -/
theorem unescape_resize {other : Nat} (read : dnsLabelUnescape name sz {} = .ok (l, rest)) (fits : l.length ≤ other) :
    dnsLabelUnescape name other {} = .ok (l, rest) := by
  obtain ⟨text, roomy, _, empty, dots⟩ := unescape_iff.mp read
  exact unescape_iff.mpr ⟨text, roomy, fits, empty, dots⟩

theorem unescape_length (read : dnsLabelUnescape name sz {} = .ok (l, rest)) : l.length ≤ dnsLabelMax :=
  (unescape_iff.mp read).2.1

theorem Text.length_le (text : Text t l) : l.length ≤ t.length := by
  induction text with
  | nil => simp
  | cons item _ ih =>
    obtain ⟨a, r, rfl, _⟩ := item.head
    simp only [length_cons, length_append]
    omega

theorem Text.eq_nil_iff (text : Text t l) : t = [] ↔ l = [] := by
  cases text with
  | nil => simp
  | cons item _ =>
    obtain ⟨a, r, rfl, _⟩ := item.head
    simp

theorem Text.head (text : Text t l) : t.head? ≠ some dot := by
  cases text with
  | nil => simp
  | cons item _ =>
    obtain ⟨a, r, rfl, notDot⟩ := item.head
    simpa using notDot

/-- A label takes at least a byte of the name. -/
theorem unescape_shorter (read : dnsLabelUnescape name sz flags = .ok (l, rest)) (more : l ≠ []) :
    rest.length < name.length := by
  obtain ⟨⟨t, text, ends⟩, _⟩ := text_of_unescape read
  have short := text.length_le
  have := length_pos_of_ne_nil more
  rcases ends with (⟨rfl, rfl⟩ | rfl) | ⟨rfl, rfl, _⟩ <;> simp only [length_nil, length_append, length_cons] <;>
    omega

/-! ## Walks from the front -/

/-- The loop of `dns_name_concat()` on one of its strings, where `ret` was written so far. -/
def concatLabels (flags : DNSLabelFlags) (p : CString) (ret : CString) : Except Errno CString :=
  match _read : dnsLabelUnescape p dnsLabelMax flags with
  | .error e => .error e
  | .ok (label, p') =>
    if _empty : label = [] then
      if p' ≠ [] then .error .einval else .ok ret
    else
      match dnsLabelEscape label dnsLabelEscapedMax with
      | .error e => .error e
      | .ok escaped => concatLabels flags p' (if ret = [] then escaped else ret ++ dot :: escaped)
termination_by p.length
decreasing_by exact unescape_shorter _read _empty

/-- The loop on a string, if there is one. -/
def concatOptional (flags : DNSLabelFlags) (p : Option CString) (ret : CString) : Except Errno CString :=
  match p with
  | none => .ok ret
  | some p => concatLabels flags p ret

/-- `dns_name_concat()` -/
def dnsNameConcat (a b : Option CString) (flags : DNSLabelFlags) : Except Errno CString := do
  let ret ← concatOptional flags a []
  let ret ← concatOptional flags b ret
  if dnsHostnameMax < ret.length then .error .einval
  else .ok (if ret = [] then [dot] else ret)

/-- `dns_name_normalize()` -/
def dnsNameNormalize (s : CString) : Except Errno CString := dnsNameConcat (some s) none {}

theorem dnsNameNormalize_eq (s : CString) : dnsNameNormalize s = (do
    let ret ← concatLabels {} s []
    if dnsHostnameMax < ret.length then .error .einval
    else .ok (if ret = [] then [dot] else ret)) := rfl

/-- `dns_name_is_valid()` -/
def dnsNameIsValid (s : CString) : Except Errno Bool :=
  match dnsNameNormalize s with
  | .error .einval => .ok false
  | .error e => .error e
  | .ok _ => .ok true

/-- `dns_name_is_root()` -/
def dnsNameIsRoot (name : CString) : Bool := name = [] ∨ name = [dot]

/-- `dns_name_hash_func()`: what it hands to `siphash24_compress()`, call by call. -/
def dnsNameHashFunc (p : CString) : List CString :=
  match _read : dnsLabelUnescape p (dnsLabelMax + 1) {} with
  | .error _ => [[0]]
  | .ok (label, p') =>
    if _empty : label = [] then [[0]]
    else label.map asciiTolower :: [0] :: dnsNameHashFunc p'
termination_by p.length
decreasing_by exact unescape_shorter _read _empty

/-- `dns_name_equal()` -/
def dnsNameEqual (x y : CString) : Except Errno Bool :=
  match _read : dnsLabelUnescape x dnsLabelMax {} with
  | .error e => .error e
  | .ok (la, x') =>
    match dnsLabelUnescape y dnsLabelMax {} with
    | .error e => .error e
    | .ok (lb, y') =>
      if la.length ≠ lb.length then .ok false
      else if _empty : la = [] then .ok true
      else if asciiStrcasecmpN la lb la.length ≠ 0 then .ok false
      else dnsNameEqual x' y'
termination_by x.length
decreasing_by exact unescape_shorter _read _empty

/-- The loop of `dns_name_to_wire_format()`: what it writes, with `len` bytes left. -/
def wireLoop (domain : CString) (len : Nat) (canonical : Bool) : Except Errno CString :=
  if len = 0 then .error .enobufs
  else
    match _read : dnsLabelUnescape domain (len - 1) {} with
    | .error e => .error e
    | .ok (label, domain') =>
      if _empty : label = [] then .ok [0]
      else
        match wireLoop domain' (len - 1 - label.length) canonical with
        | .error e => .error e
        | .ok out => .ok (UInt8.ofNat label.length :: (if canonical then label.map asciiTolower else label) ++ out)
termination_by domain.length
decreasing_by exact unescape_shorter _read _empty

/-- `dns_name_to_wire_format()` -/
def dnsNameToWireFormat (domain : CString) (len : Nat) (canonical : Bool) : Except Errno CString := do
  let out ← wireLoop domain len canonical
  if dnsHostnameMax + 2 < out.length then .error .einval else .ok out

/-! ## The walk from the end -/

/-- `PTR_SUB1()` of a pointer into a name, where `none` is the null pointer. -/
def ptrSub1 : Option Nat → Option Nat
  | none => none
  | some 0 => none
  | some (i + 1) => some i

/-- The backslashes right before an index of a name: how many there are and what is before them. -/
def slashesBefore (name : CString) : Nat → Nat × Option Nat
  | 0 => (0, none)
  | y + 1 =>
    if name[y]? = some backslash then
      let (slashes, y) := slashesBefore name y
      (slashes + 1, y)
    else (0, some y)

theorem slashesBefore_lt {i y : Nat} (before : (slashesBefore name i).2 = some y) : y < i := by
  induction i with
  | zero => simp [slashesBefore] at before
  | succ i ih =>
    rw [slashesBefore] at before
    split_ifs at before
    · exact Nat.lt_succ_of_lt (ih before)
    · have here := Option.some.inj before
      omega

/-- The search of `dns_label_unescape_suffix()` for the dot before a label, from an index on
backwards. -/
def findTerminal (name : CString) (terminal : Nat) : Option Nat :=
  if name[terminal]? = some dot then
    if (slashesBefore name terminal).1 % 2 = 0 then some terminal
    else
      match _before : (slashesBefore name terminal).2 with
      | none => none
      | some y => findTerminal name y
  else
    match terminal with
    | 0 => none
    | terminal + 1 => findTerminal name terminal
termination_by terminal
decreasing_by
  · exact slashesBefore_lt _before
  · exact Nat.lt_succ_self _

/-- The search ends at a dot. -/
theorem findTerminal_found {found : Nat} (search : findTerminal name terminal = some found) :
    found ≤ terminal ∧ name[found]? = some dot := by
  induction terminal using Nat.strongRecOn with
  | ind terminal ih =>
    rw [findTerminal.eq_def] at search
    split_ifs at search with isDot even
    · cases search
      exact ⟨le_rfl, isDot⟩
    · split at search
      · cases search
      · rename_i y before
        have below := slashesBefore_lt before
        obtain ⟨least, here⟩ := ih y below search
        exact ⟨by omega, here⟩
    · cases terminal with
      | zero => cases search
      | succ terminal =>
        obtain ⟨least, here⟩ := ih terminal (Nat.lt_succ_self _) search
        exact ⟨by omega, here⟩

/-- Where the search starts: the terminating NUL and one dot are skipped. -/
def skipTerminal (name : CString) (terminal : Nat) : Option Nat :=
  let terminal := if name[terminal]? = none then ptrSub1 (some terminal) else some terminal
  match terminal with
  | none => none
  | some i => if name[i]? = some dot then ptrSub1 (some i) else some i

/-- `dns_label_unescape_suffix()`: a label and the terminal of the label before it. -/
def dnsLabelUnescapeSuffix (name : CString) (terminal : Option Nat) (sz : Nat) :
    Except Errno (CString × Option Nat) :=
  match terminal with
  | none => .ok ([], none)
  | some terminal => do
      let before := (skipTerminal name terminal).bind (findTerminal name)
      let (label, _) ← dnsLabelUnescape (name.drop (before.elim 0 (· + 1))) sz {}
      return (label, before)

/-- The value that a call of `dns_label_unescape()` returns: a length or one of its two errors. -/
def unescapeResult {α : Type} : Except Errno (CString × α) → Int
  | .error .enobufs => -105
  | .error _ => -22
  | .ok (label, _) => label.length

/-- The bytes of a name up to a terminal, with the terminal. -/
def upTo (terminal : Option Nat) : Nat := terminal.elim 0 (· + 1)

theorem skipTerminal_le {skipped : Nat} (skip : skipTerminal name terminal = some skipped) :
    skipped < terminal ∨ (skipped = terminal ∧ name[terminal]? ≠ some dot) := by
  unfold skipTerminal at skip
  split_ifs at skip with atEnd
  · rcases terminal with _ | terminal
    · cases skip
    · simp only [ptrSub1] at skip
      split_ifs at skip
      · rcases terminal with _ | terminal
        · cases skip
        · cases skip
          omega
      · cases skip
        omega
  · simp only at skip
    split_ifs at skip with isDot
    · rcases terminal with _ | terminal
      · cases skip
      · cases skip
        omega
    · cases skip
      exact .inr ⟨rfl, isDot⟩

/-- A call moves its terminal backwards. -/
theorem suffix_upTo {label : CString} {terminal before : Option Nat}
    (read : dnsLabelUnescapeSuffix name terminal sz = .ok (label, before)) :
    upTo before ≤ upTo terminal ∧ (terminal ≠ none → upTo before < upTo terminal) := by
  cases terminal with
  | none =>
    cases read
    simp
  | some terminal =>
    obtain ⟨⟨label', rest⟩, _, read⟩ := except_bind_eq_ok.mp read
    cases read
    have less : upTo ((skipTerminal name terminal).bind (findTerminal name)) < upTo (some terminal) := by
      cases skip : skipTerminal name terminal with
      | none => simp [upTo]
      | some skipped =>
        cases search : findTerminal name skipped with
        | none => simp [upTo, search]
        | some found =>
          obtain ⟨least, isDot⟩ := findTerminal_found search
          rcases skipTerminal_le skip with below | ⟨rfl, notDot⟩
          · simp only [upTo, Option.bind_some, search, Option.elim_some]
            omega
          · have : found ≠ skipped := by
              rintro rfl
              exact notDot isDot
            simp only [upTo, Option.bind_some, search, Option.elim_some]
            omega
    exact ⟨less.le, fun _ => less⟩

/-- The loop of `dns_name_compare_func()`. -/
def compareLoop (a b : CString) (x y : Option Nat) : Int :=
  if _done : x = none ∧ y = none then 0
  else
    match _readA : dnsLabelUnescapeSuffix a x dnsLabelMax, _readB : dnsLabelUnescapeSuffix b y dnsLabelMax with
    | .ok (la, x'), .ok (lb, y') =>
      if asciiStrcasecmpNn la lb ≠ 0 then asciiStrcasecmpNn la lb
      else compareLoop a b x' y'
    | r, q => cmpInt (unescapeResult r) (unescapeResult q)
termination_by upTo x + upTo y
decreasing_by
  have stepA := suffix_upTo _readA
  have stepB := suffix_upTo _readB
  by_cases gone : x = none
  · have := stepB.2 (fun h => _done ⟨gone, h⟩)
    omega
  · have := stepA.2 gone
    omega

/-- `dns_name_compare_func()` -/
def dnsNameCompareFunc (a b : CString) : Int := compareLoop a b (some a.length) (some b.length)

end SystemdPort.Shared.Dns
