/-
# Shared.DnsWire — which names are accepted

`dns_name_normalize()` and `dns_name_to_wire_format()` of `src/shared/dns-domain.c` accept the same
labels.  They limit the length of a name in different forms: the first one counts the bytes of the
escaped text, where a byte may take four, and the second one those that are sent.
-/
import SystemdPort.Shared.DnsDomainOrder

namespace SystemdPort.Shared.Dns

set_option autoImplicit false

open Basic Lib.Exec List

/-- How many bytes `dns_label_escape()` writes for a byte. -/
def escapedSize (c : UInt8) : Nat :=
  if c = dot ∨ c = backslash then 2 else if c = 95 ∨ c = hyphen ∨ asciiIsdigit c ∨ asciiIsalpha c then 1 else 4

/-- The labels escaped, with a dot behind each of them. -/
def escapedLength (ls : List CString) : Nat := (ls.map fun l => (l.map escapedSize).sum + 1).sum

variable {n s l t ret out : CString} {ls : List CString} {len sz : Nat} {canonical : Bool}

theorem escapeLoop_length (escaped : escapeLoop l sz = .ok t) : t.length = (l.map escapedSize).sum := by
  fun_induction escapeLoop l sz generalizing t with
  | case1 => cases escaped; rfl
  | case2 | case4 | case6 => cases escaped
  | _ =>
    obtain ⟨t, rest, done⟩ := except_bind_eq_ok.mp escaped
    cases done
    simp_all [escapedSize]
    try omega

/-- A name and the dot behind it, if it is not empty. -/
def dotted (s : CString) : Nat := if s = [] then 0 else s.length + 1

theorem Labels.concatLabels_eq (labels : Labels n ls) (ret : CString) :
    ∃ out, concatLabels {} n ret = .ok out ∧ dotted out = dotted ret + escapedLength ls := by
  induction labels generalizing ret with
  | root read => exact ⟨ret, by rw [concatLabels_step read, if_pos rfl], rfl⟩
  | @cons n l rest ls read nonempty _ ih =>
    obtain ⟨t, escaped, text⟩ := escape_ok nonempty (unescape_length read)
    have filled : t ≠ [] := mt text.eq_nil_iff.mp nonempty
    have size : t.length = (l.map escapedSize).sum := by
      rw [dnsLabelEscape] at escaped
      split_ifs at escaped
      exact escapeLoop_length escaped
    obtain ⟨out, done, length⟩ := ih (if ret = [] then t else ret ++ dot :: t)
    refine ⟨out, ?_, ?_⟩
    · rw [concatLabels_step read, if_neg nonempty, escaped]
      exact done
    · rw [length, escapedLength, escapedLength, map_cons, ← size]
      by_cases first : ret = []
      · simp [dotted, first, filled]
      · simp [dotted, first]
        omega

theorem labels_of_wireLoop (done : wireLoop n len canonical = .ok out) : ∃ ls, Labels n ls ∧ out = wire canonical ls := by
  fun_induction wireLoop n len canonical generalizing out with
  | case3 n len _ domain read =>
    cases done
    exact ⟨[], .root (unescape_resize read (Nat.zero_le _)), rfl⟩
  | case5 n len _ label domain read nonempty out ok ih =>
    cases done
    obtain ⟨ls, labels, rfl⟩ := ih ok
    exact ⟨label :: ls, .cons (unescape_resize read (unescape_length read)) nonempty labels, rfl⟩
  | _ => cases done

theorem Labels.wire_le (labels : Labels n ls) (canonical : Bool) : (wire canonical ls).length ≤ n.length + 2 := by
  induction labels with
  | root => simp [wire]
  | @cons n l rest ls read _ later ih =>
    obtain ⟨⟨t, text, ends⟩, _⟩ := unescape_iff.mp read
    have short := text.length_le
    rw [wire_length]
    rcases ends with ⟨rfl, rfl⟩ | rfl
    · obtain rfl : [] = ls := (Labels.nil_iff.mpr (.inl rfl)).eq.symm.trans later.eq
      simp [wire]
      omega
    · simp only [length_append, length_cons]
      omega

theorem toWireFormat_iff (large : s.length + 2 ≤ len) :
    (∃ out, dnsNameToWireFormat s len canonical = .ok out) ↔ ∃ ls, Labels s ls ∧ (wire canonical ls).length ≤ 255 := by
  constructor
  · rintro ⟨out, done⟩
    obtain ⟨_, loop, done⟩ := except_bind_eq_ok.mp done
    obtain ⟨ls, labels, rfl⟩ := labels_of_wireLoop loop
    split_ifs at done with long
    exact ⟨ls, labels, Nat.le_of_not_lt long⟩
  · rintro ⟨ls, labels, short⟩
    refine ⟨wire canonical ls, ?_⟩
    rw [dnsNameToWireFormat, labels.wireLoop_eq canonical ((labels.wire_le canonical).trans large)]
    exact if_neg (Nat.not_lt.mpr short)

theorem normalize_iff : (∃ ret, dnsNameNormalize s = .ok ret) ↔ ∃ ls, Labels s ls ∧ escapedLength ls ≤ 254 := by
  have long {ls out} (size : dotted out = dotted [] + escapedLength ls) :
      dnsHostnameMax < out.length ↔ 254 < escapedLength ls := by
    simp only [dotted, dnsHostnameMax] at size ⊢
    split_ifs at size <;> simp_all <;> omega
  constructor
  · rintro ⟨ret, done⟩
    rw [dnsNameNormalize_eq] at done
    obtain ⟨out, loop, done⟩ := except_bind_eq_ok.mp done
    obtain ⟨ls, _, labels, _⟩ := labels_of_concatLabels loop
    obtain ⟨out', again, size⟩ := labels.concatLabels_eq []
    cases loop.symm.trans again
    split_ifs at done with fits
    all_goals exact ⟨ls, labels, Nat.le_of_not_lt (mt (long size).mpr fits)⟩
  · rintro ⟨ls, labels, short⟩
    obtain ⟨out, loop, size⟩ := labels.concatLabels_eq []
    rw [dnsNameNormalize_eq, loop]
    exact ⟨_, if_neg (mt (long size).mp (Nat.not_lt.mpr short))⟩

theorem wire_le_escaped (canonical : Bool) (ls : List CString) : (wire canonical ls).length ≤ escapedLength ls + 1 ∧
    ((∀ l ∈ ls, ∀ c ∈ l, escapedSize c = 1) → (wire canonical ls).length = escapedLength ls + 1) := by
  have sizes (l : CString) : l.length ≤ (l.map escapedSize).sum ∧
      ((∀ c ∈ l, escapedSize c = 1) → l.length = (l.map escapedSize).sum) := by
    induction l with
    | nil => simp
    | cons c l ih =>
      have some_ : 1 ≤ escapedSize c := by
        unfold escapedSize
        split_ifs <;> omega
      simp only [length_cons, map_cons, sum_cons, forall_mem_cons]
      refine ⟨by omega, ?_⟩
      rintro ⟨one, rest⟩
      rw [one, ih.2 rest, Nat.add_comm]
  induction ls with
  | nil => simp [wire, escapedLength]
  | cons l ls ih =>
    have size := sizes l
    simp only [escapedLength, map_cons, sum_cons, wire_length, forall_mem_cons] at ih ⊢
    refine ⟨by omega, ?_⟩
    rintro ⟨plain, rest⟩
    rw [ih.2 rest, size.2 plain]
    omega

/-- Both calls accept just the names with labels, and they differ where a name is short enough to be sent
but its text is longer than 253 bytes.  That takes escapes. -/
theorem accepted_alike_iff (s : CString) (len : Nat) (canonical : Bool) (large : s.length + 2 ≤ len) :
    (dnsNameIsValid s = .ok true ↔ ∃ ret, dnsNameNormalize s = .ok ret) ∧
    ((∃ out, dnsNameToWireFormat s len canonical = .ok out) ↔ ∃ ls, Labels s ls ∧ (wire canonical ls).length ≤ 255) ∧
    (((∃ ret, dnsNameNormalize s = .ok ret) ↔ ∃ out, dnsNameToWireFormat s len canonical = .ok out) ↔
      ∀ ls, Labels s ls → (wire canonical ls).length ≤ 255 → escapedLength ls ≤ 254) ∧
    ∀ ls, (∀ l ∈ ls, ∀ c ∈ l, escapedSize c = 1) → (wire canonical ls).length ≤ 255 → escapedLength ls ≤ 254 := by
  refine ⟨?_, toWireFormat_iff large, ?_, ?_⟩
  · unfold dnsNameIsValid
    split <;> simp_all
  · rw [normalize_iff, toWireFormat_iff large]
    constructor
    · intro alike ls labels short
      obtain ⟨ls', labels', fits⟩ := alike.mpr ⟨ls, labels, short⟩
      rwa [← labels.eq, labels'.eq]
    · intro fits
      constructor
      · rintro ⟨ls, labels, short⟩
        have := (wire_le_escaped canonical ls).1
        exact ⟨ls, labels, by omega⟩
      · rintro ⟨ls, labels, short⟩
        exact ⟨ls, labels, fits ls labels short⟩
  · intro ls plain short
    have := (wire_le_escaped canonical ls).2 plain
    omega

theorem accepted_alike_iff_two :
    dnsNameIsValid (cstr "a.b") = .ok true ∧ ∃ out, dnsNameToWireFormat (cstr "a.b") 5 false = .ok out := by
  have facts := accepted_alike_iff (cstr "a.b") 5 false (by decide)
  have labels : Labels (cstr "a.b") [cstr "a", cstr "b"] :=
    .cons (show dnsLabelUnescape (cstr "a.b") dnsLabelMax {} = .ok (cstr "a", cstr "b") by decide) (by decide)
      (.cons (show dnsLabelUnescape (cstr "b") dnsLabelMax {} = .ok (cstr "b", []) by decide) (by decide)
        (Labels.nil_iff.mpr (.inl rfl)))
  have sent := facts.2.1.mpr ⟨_, labels, by decide⟩
  refine ⟨facts.1.mpr ((facts.2.2.1.mpr ?_).mpr sent), sent⟩
  intro ls labels' _
  rw [← labels'.eq, labels.eq]
  decide

/-- A label of 63 bytes that are escaped, and one more: 257 bytes of text, but only 67 to be sent. -/
theorem escapes_too_long :
    dnsNameNormalize ((replicate 63 (cstr "\\001")).flatten ++ cstr ".\\001") = .error .einval ∧
      (dnsNameToWireFormat ((replicate 63 (cstr "\\001")).flatten ++ cstr ".\\001") 512 false).map length = .ok 67 := by
  decide +kernel

end SystemdPort.Shared.Dns
