/-
# Shared.DnsConcat — escaping a label, and joining two names

`dns_label_escape()` and `dns_name_concat()` of `src/shared/dns-domain.c`.  A label that is escaped
reads back as it was, so the names that `dns_name_concat()` makes of the labels it reads have these
labels again.  The flags may only make it refuse a name.
-/
import SystemdPort.Shared.DnsDomainOrder

namespace SystemdPort.Shared.Dns

set_option autoImplicit false

open Basic Lib.Exec

variable {p ret out l t : CString} {flags : DNSLabelFlags} {sz : Nat}

/-- The rest of a name does not begin with a dot. -/
theorem unescape_dot (m : CString) (leaves : flags.leaveTrailingDot = true) :
    ∃ e, dnsLabelUnescape (dot :: m) dnsLabelMax flags = .error e := by
  rw [dnsLabelUnescape, unescapeLoop.eq_def]
  by_cases hyphened : (flags.ldh && (0 : UInt8) == hyphen) = true
  · exact ⟨.einval, by simp [hyphened, bind, Except.bind]⟩
  · by_cases last : m = [] <;> simp [hyphened, bind, Except.bind, leaves, last]

theorem unescape_flags {rest : CString} (read : dnsLabelUnescape p sz flags = .ok (l, rest))
    (notDot : rest.head? ≠ some dot) : dnsLabelUnescape p sz {} = .ok (l, rest) := by
  obtain ⟨⟨t, text, ends | ⟨-, rfl, -⟩⟩, short, fits, empty, -⟩ := text_of_unescape read
  · exact unescape_iff.mpr ⟨⟨t, text, ends⟩, short, fits, empty, notDot⟩
  · exact absurd rfl notDot

/-- What is done with flags is done without flags. -/
theorem concatLabels_of_flags (done : concatLabels flags p ret = .ok out) : concatLabels {} p ret = .ok out := by
  fun_induction concatLabels flags p ret with
  | case3 p ret p' last read =>
    obtain rfl : p' = [] := by simpa using last
    cases done
    rw [concatLabels_step (unescape_flags read (by simp)), if_pos rfl]
  | case5 p ret label p' read nonempty escaped ok ih =>
    by_cases isDot : p'.head? = some dot
    · obtain ⟨m, rfl⟩ : ∃ m, p' = dot :: m := by simpa [List.head?_eq_some_iff] using isDot
      obtain ⟨e, error⟩ := unescape_dot m ((text_of_unescape read).2.2.2.2 rfl)
      rw [concatLabels] at done
      split at done <;> simp_all
    · rw [concatLabels_step (unescape_flags read isDot), if_neg nonempty, ok]
      exact ih done
  | _ => cases done

theorem concatOptional_part {p : Option CString} (done : concatOptional flags p ret = .ok out) :
    ∃ s, (∀ n ∈ p, Labels n (dnsNameLabels n)) ∧ out = ret ++ s ∧ Part (ret = []) s (p.elim [] dnsNameLabels) := by
  cases p with
  | none =>
    cases done
    exact ⟨[], by simp, by simp, by simp [Part]⟩
  | some p =>
    obtain ⟨ls, s, labels, whole, part, -⟩ := labels_of_concatLabels (concatLabels_of_flags done)
    obtain rfl := labels.eq
    exact ⟨s, by simpa using labels, whole, part⟩

/-- A label is read back as it was escaped, a buffer of `DNS_LABEL_ESCAPED_MAX` bytes is large enough
for that, and the labels of two names that were joined are those of the first and those of the second. -/
theorem labels_escaped_and_joined :
    (∀ l sz t, dnsLabelEscape l sz = .ok t → dnsLabelUnescape t dnsLabelMax {} = .ok (l, [])) ∧
      (∀ l, l ≠ [] → l.length ≤ dnsLabelMax → ∃ t, dnsLabelEscape l dnsLabelEscapedMax = .ok t) ∧
      ∀ a b flags ret, dnsNameConcat a b flags = .ok ret →
        (∀ n ∈ a, Labels n (dnsNameLabels n)) ∧ (∀ n ∈ b, Labels n (dnsNameLabels n)) ∧
        Labels ret (a.elim [] dnsNameLabels ++ b.elim [] dnsNameLabels) := by
  refine ⟨fun l sz t escaped => ?_, fun l nonempty short => ?_, fun a b flags ret joined => ?_⟩
  · rw [dnsLabelEscape] at escaped
    split_ifs at escaped with bad
    obtain ⟨nonempty, short⟩ : l ≠ [] ∧ l.length ≤ dnsLabelMax := by simpa using bad
    exact unescape_iff.mpr ⟨⟨t, escapeLoop_text escaped, .inl ⟨rfl, rfl⟩⟩, short, short, by simp, by simp⟩
  · obtain ⟨t, escaped, -⟩ := escape_ok nonempty short
    exact ⟨t, escaped⟩
  · obtain ⟨s, first, joined⟩ := except_bind_eq_ok.mp joined
    obtain ⟨out, second, joined⟩ := except_bind_eq_ok.mp joined
    obtain ⟨_, validA, rfl, partA⟩ := concatOptional_part first
    obtain ⟨s', validB, rfl, partB⟩ := concatOptional_part second
    refine ⟨validA, validB, ?_⟩
    split_ifs at joined with long root
    all_goals cases joined
    · obtain ⟨rfl, rfl⟩ := List.append_eq_nil_iff.mp root
      rw [partA.1.mp rfl, partB.1.mp rfl]
      exact Labels.nil_iff.mpr (.inr rfl)
    · have rest := partB.2 [] [] (.nil _)
      exact partA.2 s' _ (by simpa [partA.1] using rest)

/-- `dns_name_concat("a\\.b", "c.", 0, &ret)` -/
theorem labels_escaped_and_joined_dots :
    dnsNameConcat (some (cstr "a\\.b")) (some (cstr "c.")) {} = .ok (cstr "a\\.b.c") ∧
      Labels (cstr "a\\.b.c") [cstr "a.b", cstr "c"] := by
  have joined : dnsNameConcat (some (cstr "a\\.b")) (some (cstr "c.")) {} = .ok (cstr "a\\.b.c") := by
    decide +kernel
  refine ⟨joined, ?_⟩
  have labels := (labels_escaped_and_joined.2.2 _ _ _ _ joined).2.2
  rwa [Option.elim_some, Option.elim_some, show dnsNameLabels (cstr "a\\.b") = [cstr "a.b"] by decide +kernel,
    show dnsNameLabels (cstr "c.") = [cstr "c"] by decide +kernel] at labels

end SystemdPort.Shared.Dns
