/-
# Shared.DnsDomainOrder — the order of domain names

All walks over a name see the same labels (`Labels`): those from the front read them one by one,
and the walk from the end finds each label by the dot before it, which is a dot with an even number
of backslashes before it (`Text.guarded`).  So the order, equality and the canonical wire format agree.
-/
import SystemdPort.Shared.DnsDomain

namespace SystemdPort.Shared.Dns

set_option autoImplicit false

open Basic Lib.Exec List

variable {a b n name pre suf t : CString} {la lb ls : List CString} {i len : Nat} {terminal : Option Nat}

/-- `ascii_strlower_n()` -/
def lower (label : CString) : CString := label.map asciiTolower

/-- The labels of a name, as they are read from its front. -/
inductive Labels : CString → List CString → Prop
  | root {n rest : CString} : dnsLabelUnescape n dnsLabelMax {} = .ok ([], rest) → Labels n []
  | cons {n l rest : CString} {ls : List CString} : dnsLabelUnescape n dnsLabelMax {} = .ok (l, rest) → l ≠ [] →
      Labels rest ls → Labels n (l :: ls)

/-! ## Walks from the front -/

theorem Labels.bounded (labels : Labels n ls) : ∀ l ∈ ls, l ≠ [] ∧ l.length ≤ dnsLabelMax := by
  induction labels with
  | root => simp
  | cons read nonempty _ ih => exact forall_mem_cons.mpr ⟨⟨nonempty, unescape_length read⟩, ih⟩

theorem Labels.nil_iff : Labels n [] ↔ n = [] ∨ n = [dot] := by
  constructor
  · intro labels
    cases labels with
    | root read =>
      obtain ⟨⟨t, text, ends⟩, _, _, empty, _⟩ := unescape_iff.mp read
      obtain rfl := text.eq_nil_iff.mpr rfl
      obtain rfl := empty rfl
      rcases ends with ⟨rfl, -⟩ | rfl
      · exact .inl rfl
      · exact .inr rfl
  · rintro (rfl | rfl)
    · exact .root (show dnsLabelUnescape [] dnsLabelMax {} = .ok ([], []) by decide)
    · exact .root (show dnsLabelUnescape [dot] dnsLabelMax {} = .ok ([], []) by decide)

/-- The labels of a name, or none if it does not parse. -/
def dnsNameLabels (n : CString) : List CString :=
  match _read : dnsLabelUnescape n dnsLabelMax {} with
  | .error _ => []
  | .ok (label, rest) => if _empty : label = [] then [] else label :: dnsNameLabels rest
termination_by n.length
decreasing_by exact unescape_shorter _read _empty

theorem Labels.eq (labels : Labels n ls) : dnsNameLabels n = ls := by
  induction labels with
  | root read =>
    rw [dnsNameLabels]
    split <;> simp_all
  | cons read nonempty _ ih =>
    rw [dnsNameLabels]
    split <;> simp_all

theorem Labels.root_iff : Labels n [] ↔ dnsNameIsRoot n = true := Labels.nil_iff.trans (by simp [dnsNameIsRoot])

theorem not_root_of_labels {l : CString} (labels : Labels n (l :: ls)) : ¬ dnsNameIsRoot n = true := by
  intro root
  have both := (Labels.root_iff.mpr root).eq.symm.trans labels.eq
  cases both

/-- What the hash of a name is fed with. -/
def hashFeed (ls : List CString) : List CString := ls.flatMap (fun l => [lower l, [0]]) ++ [[0]]

theorem Labels.hash (labels : Labels n ls) : dnsNameHashFunc n = hashFeed ls := by
  induction labels with
  | root read =>
    have larger := unescape_resize read (Nat.zero_le (dnsLabelMax + 1))
    rw [dnsNameHashFunc]
    split <;> simp_all [hashFeed]
  | cons read nonempty _ ih =>
    have larger := unescape_resize read (Nat.le_succ_of_le (unescape_length read))
    rw [dnsNameHashFunc]
    split <;> simp_all [hashFeed, lower]

theorem strcasecmpN_eq_zero (same : a.length = b.length) : asciiStrcasecmpN a b a.length = 0 ↔ lower a = lower b := by
  induction a generalizing b with
  | nil =>
    obtain rfl := length_eq_zero_iff.mp same.symm
    simp [asciiStrcasecmpN]
  | cons c a ih =>
    obtain ⟨d, b, rfl⟩ := exists_cons_of_length_eq_add_one same.symm
    have rest := ih (by simpa using same)
    by_cases eq : asciiTolower c = asciiTolower d
    · simpa [asciiStrcasecmpN, lower, eq] using rest
    · have ne : (asciiTolower c).toNat ≠ (asciiTolower d).toNat := fun h => eq (UInt8.toNat.inj h)
      have apart : ((asciiTolower c).toNat : Int) - (asciiTolower d).toNat ≠ 0 := by omega
      simp [asciiStrcasecmpN, lower, eq, ne, apart]

variable {x y l rest p ret : CString} (u : CString) (c d : UInt8)

theorem dnsNameEqual_step {la lb x' y' : CString} (readX : dnsLabelUnescape x dnsLabelMax {} = .ok (la, x'))
    (readY : dnsLabelUnescape y dnsLabelMax {} = .ok (lb, y')) : dnsNameEqual x y =
      if la.length ≠ lb.length then .ok false
      else if la = [] then .ok true
      else if asciiStrcasecmpN la lb la.length ≠ 0 then .ok false
      else dnsNameEqual x' y' := by
  rw [dnsNameEqual]
  split <;> simp_all

theorem Labels.equal {lx ly : List CString} (labels : Labels x lx) (others : Labels y ly) :
    dnsNameEqual x y = .ok (decide (lx.map lower = ly.map lower)) := by
  induction labels generalizing y ly with
  | root read =>
    cases others with
    | root other => simp [dnsNameEqual_step read other]
    | cons other nonempty =>
      rw [dnsNameEqual_step read other, if_pos (by simpa [eq_comm] using nonempty)]
      simp
  | @cons _ l _ _ read nonempty _ ih =>
    cases others with
    | root other =>
      rw [dnsNameEqual_step read other, if_pos (by simpa using nonempty)]
      simp
    | @cons _ m _ _ other _ later =>
      rw [dnsNameEqual_step read other, ih later]
      by_cases long : l.length = m.length
      · rw [if_neg (by simpa using long), if_neg nonempty]
        by_cases same : lower l = lower m
        · simp [(strcasecmpN_eq_zero long).mpr same, same]
        · simp [mt (strcasecmpN_eq_zero long).mp same, same]
      · have apart : lower l ≠ lower m := by
          intro same
          exact long (by simpa [lower] using congrArg List.length same)
        simp [long, apart]

/-- The wire format of a list of labels. -/
def wire (canonical : Bool) : List CString → CString
  | [] => [0]
  | l :: ls => UInt8.ofNat l.length :: (if canonical then lower l else l) ++ wire canonical ls

theorem wireLoop_step (canonical : Bool) (read : dnsLabelUnescape n len {} = .ok (l, rest)) :
    wireLoop n (len + 1) canonical =
      if l = [] then .ok [0]
      else do
        let out ← wireLoop rest (len - l.length) canonical
        return UInt8.ofNat l.length :: (if canonical then lower l else l) ++ out := by
  rw [wireLoop, if_neg (Nat.succ_ne_zero len)]
  simp only [Nat.add_sub_cancel]
  split
  · simp_all
  · rename_i l' rest' again
    rw [Nat.add_sub_cancel, read] at again
    cases again
    by_cases empty : l = []
    · simp [empty]
    · cases wireLoop rest (len - l.length) canonical <;> rfl

/-- What fits in the buffer is written. -/
theorem Labels.wireLoop_eq (labels : Labels n ls) (canonical : Bool) (fits : (wire canonical ls).length ≤ len) :
    wireLoop n len canonical = .ok (wire canonical ls) := by
  induction labels generalizing len with
  | root read =>
    obtain ⟨len, rfl⟩ : ∃ k, len = k + 1 := ⟨len - 1, by simp [wire] at fits; omega⟩
    rw [wireLoop_step canonical (unescape_resize read (Nat.zero_le len))]
    rfl
  | @cons _ l _ _ read nonempty _ ih =>
    have size : ((if canonical then lower l else l) : CString).length = l.length := by
      cases canonical <;> simp [lower]
    simp only [wire, length_append, length_cons] at fits
    obtain ⟨len, rfl⟩ : ∃ k, len = k + 1 := ⟨len - 1, by omega⟩
    rw [wireLoop_step canonical (unescape_resize read (by omega)), if_neg nonempty, ih (by omega)]
    rfl

theorem wire_head_ne {m : CString} (short : m ≠ [] ∧ m.length ≤ dnsLabelMax) : (0 : UInt8) ≠ UInt8.ofNat m.length := by
  intro same
  have nonzero := length_pos_of_ne_nil short.1
  have small : m.length < 256 := lt_of_le_of_lt short.2 (by decide)
  have := congrArg UInt8.toNat same
  simp at this
  omega

/-- The wire format tells lists of labels apart. -/
theorem wire_injective {ms : List CString} (short : ∀ l ∈ ls, l ≠ [] ∧ l.length ≤ dnsLabelMax)
    (others : ∀ m ∈ ms, m ≠ [] ∧ m.length ≤ dnsLabelMax) :
    wire true ls = wire true ms ↔ ls.map lower = ms.map lower := by
  induction ls generalizing ms with
  | nil =>
    cases ms with
    | nil => simp
    | cons m ms =>
      have apart := wire_head_ne (others m mem_cons_self)
      simp [wire, apart]
  | cons l ls ih =>
    have shortL := short l mem_cons_self
    cases ms with
    | nil =>
      have apart := wire_head_ne shortL
      simp [wire, apart.symm]
    | cons m ms =>
      have shortM := others m mem_cons_self
      have rest := ih (fun l mem => short l (mem_cons_of_mem _ mem)) (fun m mem => others m (mem_cons_of_mem _ mem))
      simp only [wire, cons_append, map_cons, List.cons.injEq, ← rest]
      constructor
      · rintro ⟨head, tail⟩
        have smallL : l.length < 256 := lt_of_le_of_lt shortL.2 (by decide)
        have smallM : m.length < 256 := lt_of_le_of_lt shortM.2 (by decide)
        have long := congrArg UInt8.toNat head
        rw [UInt8.toNat_ofNat_of_lt' smallL, UInt8.toNat_ofNat_of_lt' smallM] at long
        exact append_inj tail (by simpa [lower] using long)
      · rintro ⟨head, tail⟩
        have long : l.length = m.length := by simpa [lower] using congrArg List.length head
        rw [long, head, tail]
        exact ⟨rfl, rfl⟩

/-! ## Validity -/

theorem item_proper : c = 95 ∨ c = hyphen ∨ asciiIsdigit c ∨ asciiIsalpha c →
    c ≠ dot ∧ c ≠ backslash ∧ 32 ≤ c ∧ c ≠ 127 :=
  forall_byte (P := fun c => c = 95 ∨ c = hyphen ∨ asciiIsdigit c ∨ asciiIsalpha c →
    c ≠ dot ∧ c ≠ backslash ∧ 32 ≤ c ∧ c ≠ 127) (by decide +kernel) c

theorem item_digits : (asciiIsdigit (48 + c / 100) ∧ asciiIsdigit (48 + c / 10 % 10) ∧ asciiIsdigit (48 + c % 10)) ∧
      decimalEscape (48 + c / 100) (48 + c / 10 % 10) (48 + c % 10) = c.toNat :=
  forall_byte (P := fun c => (asciiIsdigit (48 + c / 100) ∧ asciiIsdigit (48 + c / 10 % 10) ∧ asciiIsdigit (48 + c % 10)) ∧
    decimalEscape (48 + c / 100) (48 + c / 10 % 10) (48 + c % 10) = c.toNat) (by decide +kernel) c

theorem Item.digits : Item [backslash, 48 + c / 100, 48 + c / 10 % 10, 48 + c % 10] c := by
  obtain ⟨⟨da, db, dc⟩, value⟩ := item_digits c
  have item := Item.number da db dc (by rw [value]; have := c.toNat_lt; omega)
  rwa [value, UInt8.ofNat_toNat] at item

/-- What is escaped is a text of the label. -/
theorem escapeLoop_text {l : CString} {sz : Nat} (escaped : escapeLoop l sz = .ok t) : Text t l := by
  induction l generalizing sz t with
  | nil =>
    cases escaped
    exact .nil
  | cons c l ih =>
    rw [escapeLoop] at escaped
    split_ifs at escaped with special _ proper
    all_goals
      obtain ⟨t, rest, done⟩ := except_bind_eq_ok.mp escaped
      cases done
    · exact .cons (.quoted special.symm) (ih rest)
    · obtain ⟨notDot, notBackslash, low, high⟩ := item_proper c proper
      exact .cons (.plain notDot notBackslash low high) (ih rest)
    · exact .cons (.digits c) (ih rest)

/-- A buffer of `DNS_LABEL_ESCAPED_MAX` bytes is large enough to escape a label. -/
theorem escapeLoop_ok {l : CString} {sz : Nat} (fits : 4 * l.length + 1 ≤ sz) : ∃ t, escapeLoop l sz = .ok t := by
  induction l generalizing sz with
  | nil => exact ⟨[], rfl⟩
  | cons c l ih =>
    simp only [length_cons] at fits
    rw [escapeLoop]
    split_ifs
    · omega
    · exact (@ih (sz - 2) (by omega)).imp' _ fun t escaped => by rw [escaped]; rfl
    · omega
    · exact (@ih (sz - 1) (by omega)).imp' _ fun t escaped => by rw [escaped]; rfl
    · omega
    · exact (@ih (sz - 4) (by omega)).imp' _ fun t escaped => by rw [escaped]; rfl

theorem escape_ok (nonempty : l ≠ []) (short : l.length ≤ dnsLabelMax) :
    ∃ t, dnsLabelEscape l dnsLabelEscapedMax = .ok t ∧ Text t l := by
  obtain ⟨t, escaped⟩ := @escapeLoop_ok l dnsLabelEscapedMax (by unfold dnsLabelEscapedMax; omega)
  refine ⟨t, ?_, escapeLoop_text escaped⟩
  rw [dnsLabelEscape, if_neg (by rintro (h | h); exacts [nonempty h, by omega]), if_neg (by decide), escaped]

theorem escape_text {sz : Nat} (escaped : dnsLabelEscape l sz = .ok t) : Text t l := by
  rw [dnsLabelEscape] at escaped
  split_ifs at escaped
  exact escapeLoop_text escaped

theorem concatLabels_step (read : dnsLabelUnescape p dnsLabelMax {} = .ok (l, rest)) : concatLabels {} p ret =
      if l = [] then .ok ret
      else (dnsLabelEscape l dnsLabelEscapedMax).bind
        (fun escaped => concatLabels {} rest (if ret = [] then escaped else ret ++ dot :: escaped)) := by
  rw [concatLabels]
  split
  · simp_all
  · rename_i l' rest' again
    rw [read] at again
    cases again
    by_cases empty : l = []
    · have final := (unescape_iff.mp read).2.2.2.1 empty
      simp [empty, final]
    · rw [dif_neg empty, if_neg empty]
      cases dnsLabelEscape l dnsLabelEscapedMax <;> rfl

theorem wire_pos (canonical : Bool) (ls : List CString) : 0 < (wire canonical ls).length := by
  cases ls <;> simp [wire]

theorem wire_length (canonical : Bool) (l : CString) (ls : List CString) :
    (wire canonical (l :: ls)).length = 1 + l.length + (wire canonical ls).length := by
  cases canonical <;> simp [wire, lower] <;> omega

/-- `s` is the rest of a name whose labels are `ls`, with a dot before it if it is not the first
part of the name. -/
def Rest (first : Bool) (s : CString) (ls : List CString) : Prop :=
  if first then Labels s ls else (s = [] ∧ ls = []) ∨ ∃ u, s = dot :: u ∧ ls ≠ [] ∧ Labels u ls

theorem labels_head_ne_dot {u : CString} (labels : Labels u ls) (nonempty : ls ≠ []) : u.head? ≠ some dot := by
  cases labels with
  | root => exact absurd rfl nonempty
  | @cons n l rest ls read more _ =>
    obtain ⟨⟨t, text, ends⟩, _⟩ := unescape_iff.mp read
    have filled : t ≠ [] := fun empty => more (text.eq_nil_iff.mp empty)
    have notDot := text.head
    obtain ⟨c, t, rfl⟩ := exists_cons_of_ne_nil filled
    rcases ends with ⟨rfl, _⟩ | rfl
    · exact notDot
    · exact notDot

theorem labels_of_text {t s : CString} (text : Text t l) (nonempty : l ≠ []) (short : l.length ≤ dnsLabelMax)
    (rest : Rest false s ls) : Labels (t ++ s) (l :: ls) := by
  rcases rest with ⟨rfl, rfl⟩ | ⟨u, rfl, more, labels⟩
  · rw [append_nil]
    have read : dnsLabelUnescape t dnsLabelMax {} = .ok (l, []) :=
      unescape_iff.mpr ⟨⟨t, text, .inl ⟨rfl, rfl⟩⟩, short, short, fun _ => rfl, by simp⟩
    exact .cons read nonempty (Labels.nil_iff.mpr (.inl rfl))
  · refine .cons ?_ nonempty labels
    exact unescape_iff.mpr
      ⟨⟨t, text, .inr rfl⟩, short, short, fun empty => absurd empty nonempty, labels_head_ne_dot labels more⟩

theorem Rest.label {t l s : CString} {ls : List CString} (first : Bool) (text : Text t l) (nonempty : l ≠ [])
    (short : l.length ≤ dnsLabelMax) (rest : Rest false s ls) :
    Rest first ((if first then [] else [dot]) ++ t ++ s) (l :: ls) := by
  have labels := labels_of_text text nonempty short rest
  cases first with
  | true => exact labels
  | false => exact .inr ⟨t ++ s, by simp, by simp, labels⟩

theorem Rest.nil (first : Bool) : Rest first [] [] := by
  cases first with
  | true => exact Labels.nil_iff.mpr (.inl rfl)
  | false => exact .inl ⟨rfl, rfl⟩

/-- A part of a name that any rest can follow. -/
def Part (first : Bool) (s : CString) (ls : List CString) : Prop :=
  (s = [] ↔ ls = []) ∧ ∀ s' ls', Rest (first && ls = []) s' ls' → Rest first (s ++ s') (ls ++ ls')

theorem Part.label {s : CString} (first : Bool) (text : Text t l) (nonempty : l ≠ []) (short : l.length ≤ dnsLabelMax)
    (part : Part false s ls) : Part first ((if first then [] else [dot]) ++ t ++ s) (l :: ls) := by
  refine ⟨by simp [text.eq_nil_iff, nonempty], fun s' ls' rest => ?_⟩
  rw [append_assoc]
  exact .label first text nonempty short (part.2 s' ls' (by simpa using rest))

/-- What `dns_name_concat()` accepts has labels, which it writes out, and counts at least their length. -/
theorem labels_of_concatLabels {out : CString} (done : concatLabels {} p ret = .ok out) :
    ∃ ls s, Labels p ls ∧ out = ret ++ s ∧ Part (ret = []) s ls ∧
      ret.length + (wire true ls).length ≤ out.length + (if ret = [] then 2 else 1) := by
  fun_induction concatLabels {} p ret with
  | case3 p ret p' last read =>
    cases done
    refine ⟨[], [], .root read, by simp, by simp [Part], ?_⟩
    simp only [wire, length_singleton]
    split <;> omega
  | case5 p ret l p' read empty t escaped ih =>
    simp only [dite_eq_ite] at done ih
    have short := unescape_length read
    have text := escape_text escaped
    have long := text.length_le
    have nonempty : t ≠ [] := fun h => empty (text.eq_nil_iff.mp h)
    obtain ⟨ls, s, labels, rfl, part, bound⟩ := ih done
    refine ⟨l :: ls, _, .cons read empty labels, ?_, .label (ret = []) text empty short (s := s) ?_, ?_⟩
    · by_cases start : ret = [] <;> simp [start]
    · by_cases start : ret = [] <;> simpa [start, nonempty] using part
    rw [wire_length]
    by_cases start : ret = []
    · simp only [start, if_true, nonempty, if_false, length_nil] at bound ⊢
      omega
    · simp only [start, if_false, append_eq_nil_iff, false_and, length_append, length_cons] at bound ⊢
      omega
  | _ => cases done

theorem labels_of_valid (valid : dnsNameIsValid n = .ok true) :
    ∃ ls, Labels n ls ∧ (wire true ls).length ≤ dnsHostnameMax + 2 := by
  cases normal : dnsNameNormalize n with
  | error e => rw [dnsNameIsValid, normal] at valid; cases e <;> cases valid
  | ok name =>
    rw [dnsNameNormalize_eq] at normal
    obtain ⟨ret, done, fits⟩ := except_bind_eq_ok.mp normal
    obtain ⟨ls, _, labels, _, _, bound⟩ := labels_of_concatLabels done
    refine ⟨ls, labels, ?_⟩
    by_cases large : dnsHostnameMax < ret.length
    · rw [if_pos large] at fits
      cases fits
    · simp only [if_true] at bound
      omega

/-! ## The walk from the end -/

/-- Whether a text ends with an odd number of backslashes. -/
def oddSlashes (u : CString) : Bool := (slashesBefore u u.length).1 % 2 = 1

theorem slashesBefore_append (v : CString) (inside : i ≤ u.length) :
    slashesBefore (u ++ v) i = slashesBefore u i := by
  induction i with
  | zero => rfl
  | succ i ih =>
    rw [slashesBefore, slashesBefore, getElem?_append_left (by omega), ih (by omega)]

theorem oddSlashes_concat : oddSlashes (u ++ [c]) = (c = backslash && !oddSlashes u) := by
  unfold oddSlashes
  rw [length_append, length_singleton, slashesBefore, slashesBefore_append u [c] le_rfl]
  by_cases slash : c = backslash
  · rcases Nat.mod_two_eq_zero_or_one (slashesBefore u u.length).1 with h | h <;> simp [slash, Nat.add_mod, h]
  · simp [slash]

/-- Each dot of a text has an odd number of backslashes before it, and the text ends with an even number,
if there is an odd number before the text or not. -/
def guarded (odd : Bool) : CString → Bool
  | [] => !odd
  | c :: t => (c ≠ dot || odd) && guarded (c = backslash && !odd) t

theorem Text.guarded (text : Text t l) : guarded false t = true := by
  induction text with
  | nil => rfl
  | cons item text ih =>
    cases item with
    | plain notDot notBackslash => simpa [Dns.guarded, notDot, notBackslash] using ih
    | quoted special =>
      rcases special with rfl | rfl
      · exact ih
      · exact ih
    | number da db dc =>
      have other : backslash ≠ dot := by decide
      simpa [Dns.guarded, digit_not_special da, digit_not_special db, digit_not_special dc, other] using ih

theorem guarded_append {x y : CString} (all : guarded (oddSlashes u) (x ++ y) = true) :
    guarded (oddSlashes (u ++ x)) y = true := by
  induction x generalizing u with
  | nil => simpa using all
  | cons c x ih =>
    have later := ih (u := u ++ [c]) (by
      rw [oddSlashes_concat]
      exact (Bool.and_eq_true_iff.mp all).2)
    simpa using later

/-- The labels of a name up to a dot, the last one first. -/
inductive Front : CString → List CString → Prop
  | nil : Front [] []
  | cons {pre t l : CString} {ls : List CString} : Front pre ls → Text t l → l ≠ [] → l.length ≤ dnsLabelMax →
      Front (pre ++ t ++ [dot]) (l :: ls)

theorem Front.even (front : Front pre ls) : oddSlashes pre = false := by
  cases front with
  | nil => rfl
  | cons => rw [oddSlashes_concat]; rfl

theorem Front.guarded (front : Front pre ls) (text : Text t l) : guarded (oddSlashes pre) t = true := by
  rw [front.even]
  exact text.guarded

theorem Front.cut (front : Front pre ls) : pre = [] ∨ ∃ p, pre = p ++ [dot] ∧ oddSlashes p = false := by
  cases front with
  | nil => exact .inl rfl
  | cons front text =>
    have ends := guarded_append _ (y := []) (by simpa using front.guarded text)
    exact .inr ⟨_, rfl, by simpa [Dns.guarded] using ends⟩

theorem findTerminal_stop (isDot : name[i]? = some dot) (even : (slashesBefore name i).1 % 2 = 0) :
    findTerminal name i = some i := by
  rw [findTerminal.eq_def, if_pos isDot, if_pos even]

/-- Where the search does not stop it goes on before; that it jumps over backslashes makes no difference. -/
theorem findTerminal_back (go_on : name[i]? = some dot → (slashesBefore name i).1 % 2 = 1) :
    findTerminal name i = (ptrSub1 (some i)).bind (findTerminal name) := by
  have plain : ∀ i, name[i]? ≠ some dot → findTerminal name i = (ptrSub1 (some i)).bind (findTerminal name) := by
    intro i notDot
    rw [findTerminal.eq_def, if_neg notDot]
    cases i <;> rfl
  have jump : ∀ i, (slashesBefore name i).2.bind (findTerminal name) = (ptrSub1 (some i)).bind (findTerminal name) := by
    intro i
    induction i with
    | zero => rfl
    | succ i ih =>
      by_cases slash : name[i]? = some backslash
      · simp only [slashesBefore, slash, if_true]
        exact ih.trans (plain i (by rw [slash]; decide)).symm
      · simp [slashesBefore, slash, ptrSub1]
  by_cases isDot : name[i]? = some dot
  · have odd := go_on isDot
    rw [findTerminal.eq_def, if_pos isDot, if_neg (by omega), ← jump]
    split <;> simp_all
  · exact plain i isDot

/-- The dot before the label that starts behind `pre`. -/
def startOf (pre : CString) : Option Nat := if pre = [] then none else some (pre.length - 1)

/-- From anywhere in a label the search finds the dot before the label. -/
theorem findTerminal_label {x y : CString} (front : Front pre ls) (text : Text t l) (parts : t = x ++ y) :
    (ptrSub1 (some (pre ++ x).length)).bind (findTerminal (pre ++ t ++ suf)) = startOf pre := by
  induction x using List.reverseRecOn generalizing y with
  | nil =>
    obtain rfl | ⟨p, rfl, even⟩ := front.cut
    · rfl
    · have size : (p ++ [dot] ++ []).length = p.length + 1 := by simp
      have stop : findTerminal (p ++ [dot] ++ t ++ suf) p.length = some p.length := by
        refine findTerminal_stop (by simp) ?_
        rw [append_assoc, append_assoc, slashesBefore_append p _ le_rfl]
        simpa [oddSlashes] using even
      rw [size]
      exact stop.trans (by simp [startOf])
  | append_singleton x c ih =>
    have before := ih (y := c :: y) (by simp [parts])
    have size : (pre ++ (x ++ [c])).length = (pre ++ x).length + 1 := by simp; omega
    have name : pre ++ t ++ suf = (pre ++ x) ++ c :: (y ++ suf) := by simp [parts]
    rw [size]
    refine (findTerminal_back ?_).trans before
    rw [name, slashesBefore_append _ _ le_rfl]
    intro isDot
    obtain rfl : c = dot := by simpa using isDot
    have odd := guarded_append pre (x := x) (y := dot :: y) (by simpa [parts] using front.guarded text)
    simpa [guarded, oddSlashes] using (Bool.and_eq_true_iff.mp odd).1

/-- Where the terminal of a label is: at the end of the name, or at the dot behind the label. -/
def TerminalOf (suf : CString) (behind terminal : Nat) : Prop :=
  (suf = [] ∧ terminal = behind) ∨ (suf = [dot] ∧ terminal = behind + 1) ∨
    (∃ s, suf = dot :: s ∧ s.head? ≠ some dot ∧ terminal = behind)

theorem skipTerminal_end (atEnd : name[i + 1]? = none) :
    skipTerminal name (i + 1) = if name[i]? = some dot then ptrSub1 (some i) else some i := by
  unfold skipTerminal
  rw [if_pos atEnd]
  rfl

theorem skipTerminal_dot (here : name[i]? = some dot) : skipTerminal name i = ptrSub1 (some i) := by
  unfold skipTerminal
  rw [if_neg (by simp [here])]
  exact if_pos here

/-- Skipping the terminal leads into the label; a dot that the label ends with is skipped as well. -/
theorem skipTerminal_label {terminal : Nat} (nonempty : t ≠ []) (at_ : TerminalOf suf (pre ++ t).length terminal) :
    ∃ t₁ t₂, t = t₁ ++ t₂ ∧ skipTerminal (pre ++ t ++ suf) terminal = ptrSub1 (some (pre ++ t₁).length) := by
  rcases at_ with ⟨rfl, rfl⟩ | ⟨rfl, rfl⟩ | ⟨s, rfl, _, rfl⟩
  · obtain ⟨t₁, c, rfl⟩ : ∃ t₁ c, t = t₁ ++ [c] := ⟨_, _, (dropLast_concat_getLast nonempty).symm⟩
    have size : (pre ++ (t₁ ++ [c])).length = (pre ++ t₁).length + 1 := by simp; omega
    have last : (pre ++ (t₁ ++ [c]) ++ [])[(pre ++ t₁).length]? = some c := by
      rw [append_nil, ← append_assoc, getElem?_concat_length]
    rw [size, skipTerminal_end (by simp; omega), last]
    by_cases isDot : c = dot
    · exact ⟨t₁, [c], rfl, if_pos (by rw [isDot])⟩
    · exact ⟨t₁ ++ [c], [], by simp, by rw [if_neg (by simpa using isDot), size]; rfl⟩
  · exact ⟨t, [], by simp, (skipTerminal_end (by simp; omega)).trans (if_pos (by simp))⟩
  · exact ⟨t, [], by simp, skipTerminal_dot (by simp)⟩

/-- `dns_label_unescape_suffix()` reads the label before its terminal. -/
theorem suffix_label {terminal : Nat} (front : Front pre ls) (text : Text t l) (nonempty : l ≠ [])
    (short : l.length ≤ dnsLabelMax) (at_ : TerminalOf suf (pre ++ t).length terminal) :
    dnsLabelUnescapeSuffix (pre ++ t ++ suf) (some terminal) dnsLabelMax = .ok (l, startOf pre) := by
  obtain ⟨t₁, t₂, parts, skip⟩ := skipTerminal_label (mt text.eq_nil_iff.mp nonempty) at_
  have search : (skipTerminal (pre ++ t ++ suf) terminal).bind (findTerminal (pre ++ t ++ suf)) = startOf pre := by
    rw [skip]
    exact findTerminal_label front text parts
  have start : (startOf pre).elim 0 (· + 1) = pre.length := by
    unfold startOf
    split
    · simp_all
    · have := length_pos_of_ne_nil ‹_›
      simp
      omega
  have rest : (pre ++ t ++ suf).drop pre.length = t ++ suf := by simp
  have read : ∃ r, dnsLabelUnescape (t ++ suf) dnsLabelMax {} = .ok (l, r) := by
    rcases at_ with ⟨rfl, _⟩ | ⟨rfl, _⟩ | ⟨s, rfl, single, _⟩
    · exact ⟨[], unescape_iff.mpr ⟨⟨t, text, .inl ⟨by simp, rfl⟩⟩, short, short, by tauto, by simp⟩⟩
    · exact ⟨[], unescape_iff.mpr ⟨⟨t, text, .inr rfl⟩, short, short, by tauto, by simp⟩⟩
    · exact ⟨s, unescape_iff.mpr ⟨⟨t, text, .inr rfl⟩, short, short, by tauto, single⟩⟩
  obtain ⟨r, read⟩ := read
  dsimp only [dnsLabelUnescapeSuffix]
  rw [search, start, rest, read]
  rfl

/-- The labels before a terminal, the last one first. -/
inductive Before (name : CString) : Option Nat → List CString → Prop
  | none : Before name none []
  | root : name = [] ∨ name = [dot] → Before name (some name.length) []
  | label {pre t l suf : CString} {ls : List CString} {terminal : Nat} : name = pre ++ t ++ suf → Front pre ls →
      Text t l → l ≠ [] → l.length ≤ dnsLabelMax → TerminalOf suf (pre ++ t).length terminal →
      Before name (some terminal) (l :: ls)

theorem Before.stop (before : Before name terminal []) :
    dnsLabelUnescapeSuffix name terminal dnsLabelMax = .ok ([], Option.none) := by
  cases before with
  | none => rfl
  | root isRoot =>
    rcases isRoot with rfl | rfl
    · decide +kernel
    · decide +kernel

theorem Before.step (before : Before name terminal (l :: ls)) :
    ∃ next, dnsLabelUnescapeSuffix name terminal dnsLabelMax = .ok (l, next) ∧ Before name next ls := by
  cases before with
  | @label pre t _ suf _ terminal whole front text nonempty short at_ =>
    subst whole
    refine ⟨startOf pre, suffix_label front text nonempty short at_, ?_⟩
    cases front with
    | nil => exact .none
    | @cons pre' t' l' ls' front' text' nonempty' short' =>
      have start : startOf (pre' ++ t' ++ [dot]) = some (pre' ++ t').length := by simp [startOf]
      rw [start]
      have notDot : (t ++ suf).head? ≠ some dot := by
        have := text.head
        rcases t with _ | ⟨c, t⟩
        · exact absurd (text.eq_nil_iff.mp rfl) nonempty
        · exact this
      exact .label (by simp) front' text' nonempty' short' (.inr (.inr ⟨t ++ suf, rfl, notDot, rfl⟩))

/-- The end of a name has all its labels before it. -/
theorem Labels.before {acc : List CString} (front : Front pre acc) (labels : Labels n ls) (more : ls ≠ []) :
    Before (pre ++ n) (some (pre ++ n).length) (ls.reverse ++ acc) := by
  induction labels generalizing pre acc with
  | root => exact absurd rfl more
  | @cons n l rest ls read nonempty later ih =>
    obtain ⟨⟨t, text, ends⟩, short, _, _, single⟩ := unescape_iff.mp read
    rcases ls with _ | ⟨m, ls⟩
    · rcases ends with ⟨rfl, rfl⟩ | rfl
      · exact .label (by simp) front text nonempty short (.inl ⟨rfl, rfl⟩)
      · obtain rfl | rfl := Labels.nil_iff.mp later
        · exact .label (by simp) front text nonempty short (.inr (.inl ⟨rfl, by simp; omega⟩))
        · exact absurd rfl single
    · rcases ends with ⟨rfl, rfl⟩ | rfl
      · cases later with
        | cons read' nonempty' =>
          have : dnsLabelUnescape [] dnsLabelMax {} = .ok ([], []) := by decide
          cases read'
          exact absurd rfl nonempty'
      · have whole := ih (front.cons text nonempty short) (by simp)
        simpa using whole

theorem Labels.before_end (labels : Labels n ls) : Before n (some n.length) ls.reverse := by
  rcases ls with _ | ⟨l, ls⟩
  · exact .root (Labels.nil_iff.mp labels)
  · simpa using labels.before .nil (by simp)

/-! ## The order -/

/-- The result of a comparison tells how `a` and `b` are ordered. -/
structure Compares {α : Type} [LT α] (r : Int) (a b : α) : Prop where
  less : r < 0 ↔ a < b
  same : r = 0 ↔ a = b
  greater : 0 < r ↔ b < a

section Lists

variable {α : Type} [LT α]

theorem Compares.nil : Compares 0 ([] : List α) [] := ⟨by simp, by simp, by simp⟩

theorem Compares.shorter (b : α) (bs : List α) : Compares (-1) [] (b :: bs) := ⟨by simp, by simp, by simp⟩

theorem Compares.longer (a : α) (as : List α) : Compares 1 (a :: as) [] := ⟨by simp, by simp, by simp⟩

/-- Lists are compared by their first elements, and by their rests if these are equal. -/
theorem Compares.cons {h r : Int} {a b : α} {as bs : List α} (head : Compares h a b) (tail : Compares r as bs) :
    Compares (if h ≠ 0 then h else r) (a :: as) (b :: bs) := by
  obtain ⟨less, same, greater⟩ := head
  by_cases zero : h = 0
  · obtain rfl := same.mp zero
    have irrefl : ¬ a < a := fun lt => by
      have := less.mpr lt
      omega
    rw [if_neg (by simpa using zero)]
    exact ⟨by simp [cons_lt_cons_iff, irrefl, tail.less], by simp [tail.same], by simp [cons_lt_cons_iff, irrefl, tail.greater]⟩
  · have differ : a ≠ b := fun h => zero (same.mpr h)
    rw [if_pos zero]
    exact ⟨by simp [cons_lt_cons_iff, differ, less], by simp [zero, differ], by simp [cons_lt_cons_iff, differ.symm, greater]⟩

end Lists

theorem compares_byte (a b : UInt8) : Compares ((a.toNat : Int) - b.toNat) a b := by
  refine ⟨?_, ?_, ?_⟩
  · rw [UInt8.lt_iff_toNat_lt]
    omega
  · rw [← UInt8.toNat_inj]
    omega
  · rw [UInt8.lt_iff_toNat_lt]
    omega

theorem cmpInt_succ (m n : Int) : cmpInt (m + 1) (n + 1) = cmpInt m n := by
  simp [cmpInt]

theorem strcasecmpNn_cons (a b : CString) : asciiStrcasecmpNn (c :: a) (d :: b) =
      if ((asciiTolower c).toNat : Int) - (asciiTolower d).toNat ≠ 0 then
        ((asciiTolower c).toNat : Int) - (asciiTolower d).toNat
      else asciiStrcasecmpNn a b := by
  have size : min (c :: a).length (d :: b).length = min a.length b.length + 1 := by simp
  unfold asciiStrcasecmpNn
  rw [size, asciiStrcasecmpN]
  by_cases same : (asciiTolower c).toNat = (asciiTolower d).toNat
  · simp [same, cmpInt_succ]
  · have apart : ((asciiTolower c).toNat : Int) - (asciiTolower d).toNat ≠ 0 := by omega
    simp [same, apart]

theorem strcasecmpNn_nil (nonempty : b ≠ []) : asciiStrcasecmpNn [] b = -1 := by
  have := length_pos_of_ne_nil nonempty
  simp only [asciiStrcasecmpNn, length_nil, Nat.zero_min, asciiStrcasecmpN, cmpInt]
  rw [if_neg (by simp), if_neg (by omega), if_pos (by omega)]

theorem strcasecmpNn_of_nil (nonempty : a ≠ []) : asciiStrcasecmpNn a [] = 1 := by
  have := length_pos_of_ne_nil nonempty
  simp only [asciiStrcasecmpNn, length_nil, Nat.min_zero, asciiStrcasecmpN, cmpInt]
  rw [if_neg (by simp), if_neg (by omega), if_neg (by omega)]

theorem compares_strcasecmpNn (a b : CString) : Compares (asciiStrcasecmpNn a b) (lower a) (lower b) := by
  induction a generalizing b with
  | nil =>
    cases b with
    | nil => exact .nil
    | cons d b =>
      rw [strcasecmpNn_nil (cons_ne_nil d b)]
      exact Compares.shorter (asciiTolower d) (lower b)
  | cons c a ih =>
    cases b with
    | nil =>
      exact Compares.longer (asciiTolower c) (lower a)
    | cons d b =>
      rw [strcasecmpNn_cons]
      exact (compares_byte (asciiTolower c) (asciiTolower d)).cons (ih b)

theorem compareLoop_step {la lb : CString} {x y x' y' : Option Nat} (more : ¬ (x = none ∧ y = none))
    (readA : dnsLabelUnescapeSuffix a x dnsLabelMax = .ok (la, x'))
    (readB : dnsLabelUnescapeSuffix b y dnsLabelMax = .ok (lb, y')) : compareLoop a b x y =
      if asciiStrcasecmpNn la lb ≠ 0 then asciiStrcasecmpNn la lb else compareLoop a b x' y' := by
  rw [compareLoop, dif_neg more]
  split
  · rename_i la₂ x₂ lb₂ y₂ readA₂ readB₂
    rw [readA] at readA₂
    rw [readB] at readB₂
    cases readA₂
    cases readB₂
    rfl
  · rename_i neither
    exact (neither la x' lb y' readA readB).elim

theorem compareLoop_none (a b : CString) : compareLoop a b none none = 0 := by
  rw [compareLoop, dif_pos ⟨rfl, rfl⟩]

theorem Before.ne_none (before : Before name terminal (l :: ls)) : terminal ≠ Option.none := by
  cases before
  simp

theorem Before.nonempty (before : Before name terminal (l :: ls)) : l ≠ [] := by
  cases before
  assumption

/-- The comparison goes through the labels from the end. -/
theorem compareLoop_before {x y : Option Nat} (beforeA : Before a x la) (beforeB : Before b y lb) :
    Compares (compareLoop a b x y) (la.map lower) (lb.map lower) := by
  induction la generalizing x y lb with
  | nil =>
    cases lb with
    | nil =>
      by_cases done : x = none ∧ y = none
      · obtain ⟨rfl, rfl⟩ := done
        rw [compareLoop_none]
        exact .nil
      · rw [compareLoop_step done beforeA.stop beforeB.stop, compareLoop_none]
        exact .nil
    | cons m lb =>
      obtain ⟨y', readB, _⟩ := beforeB.step
      rw [compareLoop_step (fun done => beforeB.ne_none done.2) beforeA.stop readB, strcasecmpNn_nil beforeB.nonempty]
      exact .shorter _ _
  | cons l la ih =>
    obtain ⟨x', readA, laterA⟩ := beforeA.step
    cases lb with
    | nil =>
      rw [compareLoop_step (fun done => beforeA.ne_none done.1) readA beforeB.stop,
        strcasecmpNn_of_nil beforeA.nonempty]
      exact .longer _ _
    | cons m lb =>
      obtain ⟨y', readB, laterB⟩ := beforeB.step
      rw [compareLoop_step (fun done => beforeA.ne_none done.1) readA readB]
      exact (compares_strcasecmpNn l m).cons (ih laterA laterB)

/-- The labels of a name in the order they are compared in, from the last to the first and without
case (RFC 4034, section 6.1). -/
def canonicalLabels (n : CString) : List CString := ((dnsNameLabels n).map lower).reverse

theorem Labels.canonical (labels : Labels n ls) : canonicalLabels n = ls.reverse.map lower := by
  rw [canonicalLabels, labels.eq, map_reverse]

theorem Labels.compare (labelsA : Labels a la) (labelsB : Labels b lb) :
    Compares (dnsNameCompareFunc a b) (canonicalLabels a) (canonicalLabels b) := by
  rw [labelsA.canonical, labelsB.canonical]
  exact compareLoop_before labelsA.before_end labelsB.before_end

theorem Labels.compare_eq_zero (labelsA : Labels a la) (labelsB : Labels b lb) :
    dnsNameCompareFunc a b = 0 ↔ la.map lower = lb.map lower := by
  rw [(labelsA.compare labelsB).same, labelsA.canonical, labelsB.canonical, map_reverse, map_reverse, reverse_inj]

theorem Compares.le_zero_iff {α : Type} [LT α] {r : Int} {a b : List α} (compares : Compares r a b) : r ≤ 0 ↔ a ≤ b := by
  rw [← Int.not_lt, compares.greater, List.not_lt]

theorem Labels.toWireFormat (labels : Labels n ls) (fits : (wire true ls).length ≤ dnsHostnameMax + 2)
    (large : dnsHostnameMax + 2 ≤ len) : dnsNameToWireFormat n len true = .ok (wire true ls) := by
  rw [dnsNameToWireFormat, labels.wireLoop_eq true (fits.trans large)]
  exact if_neg (by omega)

theorem hashFeed_congr (same : la.map lower = lb.map lower) : hashFeed la = hashFeed lb := by
  have feed : ∀ ls : List CString, hashFeed ls = (ls.map lower).flatMap (fun l => [l, [0]]) ++ [[0]] := by
    simp [hashFeed, flatMap_map]
  rw [feed, feed, same]

/-- The comparison of valid names is the canonical order of their labels, a total order; names are
equal in it just if `dns_name_equal()` says so and just if their canonical wire formats
are the same; equal names are hashed alike. -/
theorem dnsNameCompareFunc_canonical (a b c : CString) (validA : dnsNameIsValid a = .ok true)
    (validB : dnsNameIsValid b = .ok true) (validC : dnsNameIsValid c = .ok true) :
    Compares (dnsNameCompareFunc a b) (canonicalLabels a) (canonicalLabels b) ∧
    (0 ≤ dnsNameCompareFunc a b ↔ dnsNameCompareFunc b a ≤ 0) ∧
    (dnsNameCompareFunc a b ≤ 0 → dnsNameCompareFunc b c ≤ 0 → dnsNameCompareFunc a c ≤ 0) ∧
    dnsNameEqual a b = .ok (decide (dnsNameCompareFunc a b = 0)) ∧
    (∀ len other : Nat, dnsHostnameMax + 2 ≤ len → dnsHostnameMax + 2 ≤ other →
      ∃ wireA wireB, dnsNameToWireFormat a len true = .ok wireA ∧ dnsNameToWireFormat b other true = .ok wireB ∧
        (wireA = wireB ↔ dnsNameCompareFunc a b = 0)) ∧
    (dnsNameCompareFunc a b = 0 → dnsNameHashFunc a = dnsNameHashFunc b) := by
  obtain ⟨la, labelsA, fitsA⟩ := labels_of_valid validA
  obtain ⟨lb, labelsB, fitsB⟩ := labels_of_valid validB
  obtain ⟨lc, labelsC, _⟩ := labels_of_valid validC
  have orderAB := labelsA.compare labelsB
  have orderBA := labelsB.compare labelsA
  have orderBC := labelsB.compare labelsC
  have orderAC := labelsA.compare labelsC
  have zero := labelsA.compare_eq_zero labelsB
  refine ⟨orderAB, ?_, ?_, ?_, ?_, ?_⟩
  · have opposite : dnsNameCompareFunc a b < 0 ↔ 0 < dnsNameCompareFunc b a := orderAB.less.trans orderBA.greater.symm
    omega
  · intro ab bc
    have leAB : canonicalLabels a ≤ canonicalLabels b := orderAB.le_zero_iff.mp ab
    have leBC : canonicalLabels b ≤ canonicalLabels c := orderBC.le_zero_iff.mp bc
    exact orderAC.le_zero_iff.mpr (List.le_trans leAB leBC)
  · rw [labelsA.equal labelsB]
    simp [zero]
  · intro len other large larger
    refine ⟨wire true la, wire true lb, labelsA.toWireFormat fitsA large, labelsB.toWireFormat fitsB larger, ?_⟩
    rw [wire_injective labelsA.bounded labelsB.bounded, zero]
  · intro equal
    rw [labelsA.hash, labelsB.hash]
    exact hashFeed_congr (zero.mp equal)

theorem dnsNameCompareFunc_canonical_escapes :
    dnsNameCompareFunc (cstr "Foo\\.bar.Example.") (cstr "foo\\046BAR.exam\\112le") = 0 := by
  have validA : dnsNameIsValid (cstr "Foo\\.bar.Example.") = .ok true := by decide +kernel
  have validB : dnsNameIsValid (cstr "foo\\046BAR.exam\\112le") = .ok true := by decide +kernel
  have order := dnsNameCompareFunc_canonical _ _ _ validA validB validA
  exact order.1.same.mpr (by decide +kernel)

end SystemdPort.Shared.Dns
