/-
# Basic.EnvUtil — environment assignments

What `src/basic/env-util.c` takes for a valid list of assignments, and how an assignment
gets into a list.  `argMax` is what `sysconf(_SC_ARG_MAX)` returns.
-/
import SystemdPort.Basic.Utf8
import SystemdPort.Basic.Errno

namespace SystemdPort.Basic

set_option autoImplicit false

open List

/-- The index of what `strchr()` finds. -/
def strchr (s : CString) (c : UInt8) : Option Nat := if c ∈ s then some (s.idxOf c) else none

/-- A subtraction in `size_t`. -/
def sizeSub (m n : Nat) : Nat := (m + 2 ^ 64 - n) % 2 ^ 64

/-- `VALID_BASH_ENV_NAME_CHARS` -/
def validBashEnvNameChars : CString :=
  cstr "0123456789abcdefghijklmnopqrstuvwxyzABCDEFGHIJKLMNOPQRSTUVWXYZ_"

/-- `env_name_is_valid_n()` -/
def envNameIsValid (argMax : Nat) (e : CString) : Bool :=
  match e with
  | [] => false
  | c :: _ =>
    !(chr '0' ≤ c && c ≤ chr '9') && e.length ≤ sizeSub argMax 2 && e.all (· ∈ validBashEnvNameChars)

/-- `env_value_is_valid()` -/
def envValueIsValid (argMax : Nat) (e : CString) : Bool := utf8IsValid e && e.length ≤ sizeSub argMax 3

/-- `env_assignment_is_valid()` -/
def envAssignmentIsValid (argMax : Nat) (e : CString) : Bool :=
  match strchr e (chr '=') with
  | none => false
  | some eq =>
    envNameIsValid argMax (e.take eq) && envValueIsValid argMax (e.drop (eq + 1)) &&
      e.length ≤ sizeSub argMax 1

/-- Whether `q` is another assignment to the variable of `p`. -/
def sameVariable (p q : CString) : Bool :=
  let k := (p.takeWhile (· ≠ chr '=')).length
  q.take k = p.take k ∧ q[k]? = some (chr '=')

/-- `strv_env_is_valid()` -/
def strvEnvIsValid (argMax : Nat) : List CString → Bool
  | [] => true
  | p :: rest => envAssignmentIsValid argMax p && !rest.any (sameVariable p) && strvEnvIsValid argMax rest

/-- `env_entry_has_name()` -/
def envEntryHasName (entry name : CString) : Bool :=
  name.isPrefixOf entry ∧ entry[name.length]? = some (chr '=')

/-- `env_match()` -/
def envMatch (t pattern : CString) : Bool :=
  t = pattern ∨ (chr '=' ∉ pattern ∧ pattern.isPrefixOf t ∧ t[pattern.length]? = some (chr '='))

/-- `strv_env_unset()` -/
def strvEnvUnset (l : List CString) (p : CString) : List CString := l.filter (!envMatch · p)

/-- The loop of `strv_env_replace_consume()`, with the append behind it. -/
def replaceOrAppend (name p : CString) : List CString → List CString
  | [] => [p]
  | f :: rest => if envEntryHasName f name then p :: strvEnvUnset rest p else f :: replaceOrAppend name p rest

/-- `strv_env_replace_consume()` -/
def strvEnvReplaceConsume (l : List CString) (p : CString) : Except Errno (List CString) :=
  match strchr p (chr '=') with
  | none => .error .einval
  | some t => .ok (replaceOrAppend (p.take t) p l)

variable {name value e p s : CString} {c : UInt8}

/-! ## Assignments -/

theorem strchr_append (first : c ∉ name) : strchr (name ++ c :: value) c = some name.length := by
  have found : c ∈ name ++ c :: value := by simp
  have index : (name ++ c :: value).idxOf c = name.length := by
    rw [idxOf_append_of_notMem first, idxOf_cons_self, Nat.add_zero]
  rw [strchr, if_pos found, index]

/-- An assignment with its variable and its value. -/
structure Assigns (e name value : CString) : Prop where
  split : e = name ++ chr '=' :: value
  nonempty : name ≠ []
  chars : ∀ c ∈ name, c ∈ validBashEnvNameChars
  valid : utf8IsValid value = true

theorem Assigns.noEq (assigns : Assigns e name value) : chr '=' ∉ name := by
  intro inName
  exact absurd (assigns.chars _ inName) (by decide)

theorem assigns_of_valid {argMax : Nat} (valid : envAssignmentIsValid argMax e = true) :
    ∃ name value, Assigns e name value := by
  unfold envAssignmentIsValid at valid
  split at valid
  · cases valid
  rename_i eq found
  simp only [Bool.and_eq_true] at valid
  obtain ⟨⟨nameValid, valueValid⟩, -⟩ := valid
  unfold strchr at found
  split at found
  · rename_i member
    obtain rfl : e.idxOf (chr '=') = eq := by simpa using found
    have lt : e.idxOf (chr '=') < e.length := idxOf_lt_length_of_mem member
    refine ⟨e.take (e.idxOf (chr '=')), e.drop (e.idxOf (chr '=') + 1), ?_, ?_, ?_, ?_⟩
    · have here : e.drop (e.idxOf (chr '=')) = chr '=' :: e.drop (e.idxOf (chr '=') + 1) := by
        rw [drop_eq_getElem_cons lt, getElem_idxOf lt]
      rw [← here, take_append_drop]
    · intro empty
      rw [empty] at nameValid
      cases nameValid
    · intro c inName
      unfold envNameIsValid at nameValid
      split at nameValid
      · cases nameValid
      · simp only [Bool.and_eq_true, all_eq_true, decide_eq_true_eq] at nameValid
        exact nameValid.2 c inName
    · unfold envValueIsValid at valueValid
      simp only [Bool.and_eq_true] at valueValid
      exact valueValid.1
  · cases found

theorem Assigns.takeWhile (assigns : Assigns e name value) : e.takeWhile (· ≠ chr '=') = name := by
  have all : ∀ c ∈ name, (decide (c ≠ chr '=')) = true := by
    intro c inName
    have := assigns.noEq
    simp only [decide_eq_true_eq]
    rintro rfl
    exact this inName
  rw [assigns.split, takeWhile_append_of_pos all]
  simp

/-- An assignment to a new variable goes to the end. -/
theorem replaceOrAppend_new {l : List CString} (new : ∀ f ∈ l, envEntryHasName f name = false) :
    replaceOrAppend name p l = l ++ [p] := by
  induction l with
  | nil => rfl
  | cons f rest ih =>
    have head := new f (by simp)
    rw [replaceOrAppend, if_neg (by simp [head]), ih (fun g member => new g (by simp [member]))]
    rfl

/-- Another variable has another name. -/
theorem envEntryHasName_of_sameVariable {q name' value' : CString} (assigns : Assigns p name value)
    (assigns' : Assigns q name' value') (different : sameVariable p q = false) : envEntryHasName p name' = false := by
  by_contra hasName
  rw [Bool.not_eq_false, envEntryHasName, decide_eq_true_eq, isPrefixOf_iff_prefix] at hasName
  obtain ⟨⟨rest, same⟩, eq⟩ := hasName
  obtain ⟨tail, rfl⟩ : ∃ tail, rest = chr '=' :: tail := by
    rw [← same, getElem?_append_right le_rfl] at eq
    cases rest with
    | nil => cases eq
    | cons c tail =>
      obtain rfl : c = chr '=' := by simpa using eq
      exact ⟨tail, rfl⟩
  have names : name = name' := by
    have first : strchr p (chr '=') = some name.length := by
      rw [assigns.split]
      exact strchr_append assigns.noEq
    have second : strchr p (chr '=') = some name'.length := by
      rw [← same]
      exact strchr_append assigns'.noEq
    have lengths : name.length = name'.length := Option.some.inj (first.symm.trans second)
    rw [assigns.split] at same
    exact (append_inj_left same lengths.symm).symm
  subst names
  have reached : sameVariable p q = true := by
    unfold sameVariable
    rw [assigns.takeWhile, assigns.split, assigns'.split]
    simp
  rw [different] at reached
  cases reached

/-! ## Names are ASCII -/

theorem utf8IsValid_cons (ascii : c.toBitVec < 0x80) : utf8IsValid (c :: s) = utf8IsValid s := by
  have one : utf8EncodedValidUnichar (c :: s) = some 1 := by
    have len : utf8EncodedExpectedLen c.toBitVec = 1 := if_pos ascii
    simp [utf8EncodedValidUnichar, len]
  rw [utf8IsValid, if_neg (by simp)]
  split
  · rename_i none
    rw [one] at none
    cases none
  · rename_i len found
    obtain rfl : 1 = len := by simpa [one] using found
    rfl

theorem utf8IsValid_ascii (ascii : ∀ c ∈ s, c.toBitVec < 0x80) : utf8IsValid s = true := by
  induction s with
  | nil => rw [utf8IsValid]; rfl
  | cons c s ih =>
    rw [utf8IsValid_cons (ascii c (by simp))]
    exact ih fun d member => ascii d (by simp [member])

theorem ascii_of_name (char : c ∈ validBashEnvNameChars) : c.toBitVec < 0x80 := by
  revert c
  decide +kernel

/-! ## Assigning a variable

An assignment overwrites the first entry for its variable and is to drop the others, but what it
drops is what `env_match()` finds for the new assignment, and that is only the same assignment
again.  `strv_env_get()` reads the list from the end and then finds one of the entries left. -/

/-- `strv_env_get_n()`; `getenv` is there with `REPLACE_ENV_USE_ENVIRONMENT`. -/
def strvEnvGetN (getenv : Option (CString → Option CString)) (l : List CString) (name : CString) : Option CString :=
  if name = [] then none
  else
    match l.reverse.find? (envEntryHasName · name) with
    | some i => some (i.drop (name.length + 1))
    | none => getenv.bind (· name)

/-- `strv_env_get()` -/
def strvEnvGet (l : List CString) (name : CString) : Option CString := strvEnvGetN none l name

/-- `strv_env_assign()` -/
def strvEnvAssign (argMax : Nat) (l : List CString) (key : CString) (value : Option CString) :
    Except Errno (List CString) :=
  if !envNameIsValid argMax key then .error .einval
  else
    match value with
    | none => .ok (strvEnvUnset l key)
    | some value => strvEnvReplaceConsume l (key ++ chr '=' :: value)

/-- What is expected of an assignment: the value is found, one entry defines the variable and
the other entries are as before. -/
structure Assigned (l l' : List CString) (name value : CString) : Prop where
  found : strvEnvGet l' name = some value
  once : l'.countP (envEntryHasName · name) = 1
  others : l'.filter (!envEntryHasName · name) = l.filter (!envEntryHasName · name)

theorem envEntryHasName_assignment : envEntryHasName (name ++ chr '=' :: value) name = true := by
  simp [envEntryHasName]

/-- Only the same assignment matches an assignment. -/
theorem strvEnvUnset_assignment (l : List CString) :
    strvEnvUnset l (name ++ chr '=' :: value) = l.filter (· ≠ name ++ chr '=' :: value) := by
  simp [strvEnvUnset, envMatch]

/-- The entries for the variable: the new one, and those behind the first that are other assignments. -/
theorem filter_replaceOrAppend (l : List CString) :
    (replaceOrAppend name (name ++ chr '=' :: value) l).filter (envEntryHasName · name) =
      (name ++ chr '=' :: value) ::
        ((l.filter (envEntryHasName · name)).tail.filter (· ≠ name ++ chr '=' :: value)) := by
  induction l with
  | nil => simp [replaceOrAppend, envEntryHasName_assignment]
  | cons f rest ih =>
    rw [replaceOrAppend]
    split_ifs with has
    · rw [strvEnvUnset_assignment, filter_cons, if_pos envEntryHasName_assignment, filter_cons, if_pos has,
        tail_cons, filter_comm]
    · rw [filter_cons, if_neg has, filter_cons, if_neg has, ih]

theorem filter_not_replaceOrAppend (l : List CString) :
    (replaceOrAppend name (name ++ chr '=' :: value) l).filter (!envEntryHasName · name) =
      l.filter (!envEntryHasName · name) := by
  have assignment := @envEntryHasName_assignment name value
  induction l with
  | nil => simp [replaceOrAppend, assignment]
  | cons f rest ih =>
    rw [replaceOrAppend]
    split_ifs with has
    · rw [strvEnvUnset_assignment, filter_cons_of_neg (by simp [assignment]),
        filter_cons_of_neg (by simp [has]), filter_filter]
      refine filter_congr fun g _ => ?_
      by_cases same : g = name ++ chr '=' :: value
      · simp [same, assignment]
      · simp [same]
    · rw [filter_cons_of_pos (by simp [has]), filter_cons_of_pos (by simp [has]), ih]

/-- The last entry for a variable counts. -/
theorem strvEnvGet_eq (named : name ≠ []) (l : List CString) :
    strvEnvGet l name = (l.filter (envEntryHasName · name)).getLast?.map (·.drop (name.length + 1)) := by
  rw [strvEnvGet, strvEnvGetN, if_neg named, ← head?_filter, filter_reverse, head?_reverse]
  cases (l.filter (envEntryHasName · name)).getLast? <;> rfl

theorem envNameIsValid_chars {argMax : Nat} (valid : envNameIsValid argMax name = true) :
    name ≠ [] ∧ chr '=' ∉ name := by
  cases name with
  | nil => cases valid
  | cons c name =>
    simp only [envNameIsValid, Bool.and_eq_true, all_eq_true] at valid
    exact ⟨by simp, fun member => absurd (valid.2 _ member) (by decide)⟩

/-- Assigning does what is expected exactly if each entry for the variable, behind the first one,
is the new assignment already. -/
theorem assigned_iff {argMax : Nat} (valid : envNameIsValid argMax name = true) (l : List CString) :
    ∃ l', strvEnvAssign argMax l name (some value) = .ok l' ∧
      strvEnvReplaceConsume l (name ++ chr '=' :: value) = .ok l' ∧
      (Assigned l l' name value ↔
        ∀ f ∈ (l.filter (envEntryHasName · name)).tail, f = name ++ chr '=' :: value) := by
  obtain ⟨named, noEq⟩ := envNameIsValid_chars valid
  have replaced : strvEnvReplaceConsume l (name ++ chr '=' :: value) =
      .ok (replaceOrAppend name (name ++ chr '=' :: value) l) := by
    simp [strvEnvReplaceConsume, strchr_append noEq]
  refine ⟨_, by simpa [strvEnvAssign, valid] using replaced, replaced, ?_⟩
  have entries := @filter_replaceOrAppend name value l
  constructor
  · intro assigned
    have once := assigned.once
    rw [countP_eq_length_filter, entries, length_cons, Nat.add_eq_right, length_eq_zero_iff] at once
    simpa using once
  · intro same
    have none : (l.filter (envEntryHasName · name)).tail.filter (· ≠ name ++ chr '=' :: value) = [] := by
      simpa using same
    rw [none] at entries
    refine ⟨?_, ?_, filter_not_replaceOrAppend l⟩
    · simp [strvEnvGet_eq named, entries]
    · rw [countP_eq_length_filter, entries, length_singleton]

theorem assigned_iff_one : envNameIsValid 100000 (cstr "A") = true ∧
    ∃ l', strvEnvAssign 100000 [cstr "A=1", cstr "B=2"] (cstr "A") (some (cstr "3")) = .ok l' ∧
      Assigned [cstr "A=1", cstr "B=2"] l' (cstr "A") (cstr "3") := by
  have valid : envNameIsValid 100000 (cstr "A") = true := by decide +kernel
  obtain ⟨l', assigned, -, iff⟩ := @assigned_iff _ (cstr "3") _ valid [cstr "A=1", cstr "B=2"]
  exact ⟨valid, l', assigned, iff.mpr (by decide +kernel)⟩

/-- With two entries for a variable the second one stays, and is what is found. -/
theorem strvEnvAssign_second_stays :
    strvEnvAssign 100000 [cstr "A=1", cstr "A=2"] (cstr "A") (some (cstr "3")) =
        .ok [cstr "A=3", cstr "A=2"] ∧
      strvEnvGet [cstr "A=3", cstr "A=2"] (cstr "A") = some (cstr "2") ∧
      ¬Assigned [cstr "A=1", cstr "A=2"] [cstr "A=3", cstr "A=2"] (cstr "A") (cstr "3") := by
  have found : strvEnvGet [cstr "A=3", cstr "A=2"] (cstr "A") = some (cstr "2") := by decide +kernel
  refine ⟨by decide +kernel, found, fun assigned => ?_⟩
  have value := found.symm.trans assigned.found
  exact absurd value (by decide +kernel)

end SystemdPort.Basic
