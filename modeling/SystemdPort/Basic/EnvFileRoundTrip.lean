/-
# Basic.EnvFileRoundTrip — what is written is loaded again

The reader goes through the text of one assignment and is ready for the next one, with the
assignment at the end of the list; so a list that was written comes back, if the file is not
larger than what is read at once.
-/
import SystemdPort.Basic.EnvFile

namespace SystemdPort.Basic

set_option autoImplicit false

open List

variable {c : UInt8}

theorem plain_of_name (char : c ∈ validBashEnvNameChars) :
    c ∉ comments ∧ c ∉ whitespace ∧ c ∉ newline ∧ c ≠ chr '=' := by
  revert c
  decide +kernel

theorem plain_of_unquoted (char : c ∉ whitespace ++ shellNeedQuotes) :
    c ∉ newline ∧ c ≠ 39 ∧ c ≠ 34 ∧ c ≠ 92 ∧ c ∉ whitespace := by
  simp only [whitespace, shellNeedQuotes, shellNeedEscape, newline, mem_append, mem_cons, not_mem_nil, or_false,
    not_or] at char ⊢
  obtain ⟨⟨space, tab, nl, cr⟩, ⟨⟨⟨quote, backslash, -, -⟩, -⟩, single⟩, -⟩ := char
  exact ⟨⟨nl, cr⟩, single, quote, backslash, space, tab, nl, cr⟩

namespace EnvParser

section Step

variable {σ : Type} {push : Push σ} {p : EnvParser σ}

/-- Between two assignments. -/
structure Ready (p : EnvParser σ) : Prop where
  state : p.state = .preKey
  key : p.key = []
  value : p.value = none

variable {name value : CString}

/-- The rest of a name is added to the key. -/
theorem foldlM_name (chars : ∀ c ∈ name, c ∈ validBashEnvNameChars) (state : p.state = .key)
    (clean : p.lastKeyWhitespace = none) : name.foldlM (step push) p = .ok { p with key := p.key ++ name } := by
  induction name generalizing p with
  | nil => simp [pure, Except.pure]
  | cons c name ih =>
    obtain ⟨-, notSpace, notNewline, notEq⟩ := plain_of_name (chars c (by simp))
    have stepped : step push p c = .ok { p with key := p.key ++ [c] } := by
      unfold step
      rw [state]
      simp [notNewline, notEq, notSpace, addKey, ← clean]
    rw [foldlM_cons, stepped]
    show List.foldlM (step push) { p with key := p.key ++ [c] } name = _
    rw [ih (p := { p with key := p.key ++ [c] }) (fun d member => chars d (by simp [member])) state clean]
    simp

theorem foldlM_key (nonempty : name ≠ []) (chars : ∀ c ∈ name, c ∈ validBashEnvNameChars) (ready : Ready p) :
    (name ++ [chr '=']).foldlM (step push) p =
      .ok { p with state := .preValue, key := name, lastKeyWhitespace := none, lastValueWhitespace := none } := by
  obtain ⟨c, rest, rfl⟩ := exists_cons_of_ne_nil nonempty
  obtain ⟨notComment, notSpace, -, -⟩ := plain_of_name (chars c (by simp))
  have first : step push p c = .ok { p with state := .key, key := [c], lastKeyWhitespace := none } := by
    unfold step
    rw [ready.state]
    simp [notComment, notSpace, addKey, ready.key]
  have rest_chars (d : UInt8) (member : d ∈ rest) : d ∈ validBashEnvNameChars := chars d (by simp [member])
  rw [cons_append, foldlM_cons, first]
  show List.foldlM (step push) { p with state := .key, key := [c], lastKeyWhitespace := none } (rest ++ [chr '=']) = _
  rw [foldlM_append, foldlM_name rest_chars rfl rfl]
  rfl

theorem foldlM_plain (plain : ∀ c ∈ value, c ∉ whitespace ++ shellNeedQuotes) (state : p.state = .value)
    (clean : p.lastValueWhitespace = none) {before : CString} (had : p.value = some before) :
    value.foldlM (step push) p = .ok { p with value := some (before ++ value) } := by
  induction value generalizing p before with
  | nil => simp [pure, Except.pure, ← had]
  | cons c value ih =>
    obtain ⟨notNewline, -, -, notEscape, notSpace⟩ := plain_of_unquoted (plain c (by simp))
    have stepped : step push p c = .ok { p with value := some (before ++ [c]) } := by
      unfold step
      rw [state]
      simp [notNewline, notEscape, notSpace, addValue, had, ← clean]
    rw [foldlM_cons, stepped]
    show List.foldlM (step push) { p with value := some (before ++ [c]) } value = _
    rw [ih (p := { p with value := some (before ++ [c]) }) (fun d member => plain d (by simp [member])) state clean
      rfl]
    simp

theorem foldlM_quoteChar (c : UInt8) (state : p.state = .doubleQuoteValue) :
    (quoteChar c).foldlM (step push) p = .ok (addValue [c] p) := by
  obtain ⟨_, key, value, lastKeyWhitespace, lastValueWhitespace, line, userdata⟩ := p
  obtain rfl := state
  unfold quoteChar
  split
  · rename_i special
    have escaped (q : EnvParser σ) (escape : q.state = .doubleQuoteValueEscape) :
        step push q c = .ok (addValue [c] { q with state := .doubleQuoteValue }) := by
      unfold step
      rw [escape]
      exact if_pos special
    show List.foldlM (step push) _ [c] = _
    rw [foldlM_cons, escaped _ rfl]
    rfl
  · rename_i notSpecial
    have plain : c ≠ 34 ∧ c ≠ 92 := by
      simp only [shellNeedEscape, mem_cons, not_or] at notSpecial
      exact ⟨notSpecial.1, notSpecial.2.1⟩
    simp [step, plain, bind, Except.bind, pure, Except.pure]

theorem foldlM_quoted (state : p.state = .doubleQuoteValue) : (value.flatMap quoteChar).foldlM (step push) p =
      .ok { p with value := if value = [] then p.value else some (p.value.getD [] ++ value) } := by
  induction value generalizing p with
  | nil => rfl
  | cons c value ih =>
    rw [flatMap_cons, foldlM_append, foldlM_quoteChar c state]
    show List.foldlM (step push) (addValue [c] p) (value.flatMap quoteChar) = _
    rw [ih (p := addValue [c] p) state]
    by_cases last : value = []
    · simp [addValue]
    · simp [addValue]

end Step

variable {e name value : CString} {p : EnvParser (List CString)}

/-! ## One assignment -/

theorem loadEnvFilePush_new (line : Nat) {given : Option CString} {m : List CString} (assigns : Assigns e name value)
    (same : given.getD [] = value) (new : ∀ f ∈ m, envEntryHasName f name = false) :
    loadEnvFilePush line name given m = .ok (m ++ [e]) := by
  have nameValid : utf8IsValid name = true := utf8IsValid_ascii fun c member => ascii_of_name (assigns.chars c member)
  have checked : checkUtf8nessAndWarn name given = .ok () := by
    cases given with
    | none => simp [checkUtf8nessAndWarn, nameValid]
    | some v =>
      obtain rfl : v = value := same
      simp [checkUtf8nessAndWarn, nameValid, assigns.valid]
  have whole : name ++ [chr '='] ++ given.getD [] = e := by
    rw [same, assigns.split]
    simp
  have found : strchr e (chr '=') = some name.length := by
    rw [assigns.split]
    exact strchr_append assigns.noEq
  have taken : e.take name.length = name := by
    rw [assigns.split, take_left]
  rw [loadEnvFilePush, checked, whole]
  rw [strvEnvReplaceConsume, found]
  show Except.ok (replaceOrAppend (e.take name.length) e m) = _
  rw [taken, replaceOrAppend_new new]

theorem pushed_ready (chomp : Bool) (assigns : Assigns e name value) (key : p.key = name)
    (cleanKey : p.lastKeyWhitespace = none) (given : p.value.getD [] = value)
    (cleanValue : p.lastValueWhitespace = none) (new : ∀ f ∈ p.userdata, envEntryHasName f name = false)
    (state : p.state = .preKey) :
    ∃ p', pushed loadEnvFilePush chomp p = .ok p' ∧ Ready p' ∧ p'.userdata = p.userdata ++ [e] := by
  have sameValue : (if chomp then p.value.map (cutAt · p.lastValueWhitespace) else p.value) = p.value := by
    rw [cleanValue]
    cases chomp
    · rfl
    · cases p.value <;> rfl
  have result := loadEnvFilePush_new p.line assigns given new
  refine ⟨{ p with userdata := p.userdata ++ [e], key := [], value := none }, ?_, ⟨state, rfl, rfl⟩, rfl⟩
  rw [pushed, sameValue, cleanKey, key]
  show (loadEnvFilePush p.line name p.value p.userdata >>= _) = _
  rw [result]
  rfl

theorem writeEnvVar_eq (assigns : Assigns e name value) : writeEnvVar e = (name ++ [chr '=']) ++
      ((if needsQuotes value then 34 :: (value.flatMap quoteChar ++ [34]) else value) ++ [10]) := by
  have found : strchr e (chr '=') = some name.length := by
    rw [assigns.split]
    exact strchr_append assigns.noEq
  have whole : e = (name ++ [chr '=']) ++ value := by
    rw [assigns.split]
    simp
  have length : (name ++ [chr '=']).length = name.length + 1 := by simp
  rw [writeEnvVar, found]
  dsimp only
  rw [whole, take_left' length, drop_left' length]
  split <;> simp

/-- Behind the equals sign of an assignment. -/
structure AtValue (p : EnvParser (List CString)) (name : CString) : Prop where
  state : p.state = .preValue
  key : p.key = name
  cleanKey : p.lastKeyWhitespace = none
  value : p.value = none
  cleanValue : p.lastValueWhitespace = none
  new : ∀ f ∈ p.userdata, envEntryHasName f name = false

section Value

variable {p : EnvParser (List CString)} {e name value : CString}

/-- A newline ends the assignment, whether or not it follows a closing quote. -/
theorem step_newline (assigns : Assigns e name value) (at_value : AtValue p name) (given : Option CString)
    (same : given.getD [] = value) :
    ∃ p', step loadEnvFilePush { p with value := given } 10 = .ok p' ∧ Ready p' ∧ p'.userdata = p.userdata ++ [e] := by
  have ended : step loadEnvFilePush { p with value := given } 10 =
      pushed loadEnvFilePush false { p with value := given, state := .preKey, line := p.line + 1 } := by
    rw [at_value.state]
    rfl
  rw [ended]
  exact pushed_ready false assigns at_value.key at_value.cleanKey same at_value.cleanValue at_value.new rfl

theorem foldlM_inQuotes (assigns : Assigns e name value) (at_value : AtValue p name) :
    ∃ p', (34 :: (value.flatMap quoteChar ++ [34]) ++ [10]).foldlM (step loadEnvFilePush) p = .ok p' ∧ Ready p' ∧
      p'.userdata = p.userdata ++ [e] := by
  have opened : step loadEnvFilePush p 34 = .ok { p with state := .doubleQuoteValue } := by
    unfold step
    rw [at_value.state]
    rfl
  have same : (if value = [] then p.value else some (p.value.getD [] ++ value)).getD [] = value := by
    rw [at_value.value]
    split <;> simp_all
  obtain ⟨p', ended, ready, userdata⟩ := step_newline assigns at_value _ same
  refine ⟨p', ?_, ready, userdata⟩
  rw [cons_append, foldlM_cons, opened]
  show List.foldlM (step loadEnvFilePush) { p with state := .doubleQuoteValue } _ = _
  rw [append_assoc, foldlM_append, foldlM_quoted rfl]
  show (step loadEnvFilePush { p with state := .preValue, value := _ } 10 >>= _) = _
  rw [← at_value.state]
  rw [ended]
  rfl

theorem foldlM_unquoted (assigns : Assigns e name value) (plain : needsQuotes value = false)
    (at_value : AtValue p name) :
    ∃ p', (value ++ [10]).foldlM (step loadEnvFilePush) p = .ok p' ∧ Ready p' ∧ p'.userdata = p.userdata ++ [e] := by
  have chars (c : UInt8) (member : c ∈ value) : c ∉ whitespace ++ shellNeedQuotes := by
    simp only [needsQuotes, Bool.or_eq_false_iff, any_eq_false, decide_eq_true_eq] at plain
    exact plain.2 c member
  cases value with
  | nil =>
    obtain ⟨p', ended, ready, userdata⟩ := step_newline assigns at_value none rfl
    rw [← at_value.value] at ended
    refine ⟨p', ?_, ready, userdata⟩
    show (step loadEnvFilePush p 10 >>= _) = _
    rw [ended]
    rfl
  | cons c rest =>
    obtain ⟨notNewline, notSingle, notDouble, notEscape, notSpace⟩ := plain_of_unquoted (chars c (by simp))
    have first : step loadEnvFilePush p c = .ok { p with state := .value, value := some [c] } := by
      unfold step
      rw [at_value.state]
      simp [notNewline, notSingle, notDouble, notEscape, notSpace, addValue, at_value.value]
    have rest_chars (d : UInt8) (member : d ∈ rest) : d ∉ whitespace ++ shellNeedQuotes := chars d (by simp [member])
    obtain ⟨p', ended, ready, userdata⟩ :=
      pushed_ready (p := { p with value := some (c :: rest), state := .preKey, line := p.line + 1 }) true assigns
        at_value.key at_value.cleanKey rfl at_value.cleanValue at_value.new rfl
    refine ⟨p', ?_, ready, userdata⟩
    rw [cons_append, foldlM_cons, first]
    show List.foldlM (step loadEnvFilePush) { p with state := .value, value := some [c] } _ = _
    rw [foldlM_append, foldlM_plain (p := { p with state := .value, value := some [c] }) rest_chars rfl at_value.cleanValue rfl]
    show (pushed loadEnvFilePush true { p with value := some (c :: rest), state := .preKey, line := p.line + 1 } >>= _) = _
    rw [ended]
    rfl

end Value

/-- The text of an assignment to a new variable. -/
theorem foldlM_writeEnvVar (ready : Ready p) (assigns : Assigns e name value)
    (new : ∀ f ∈ p.userdata, envEntryHasName f name = false) :
    ∃ p', (writeEnvVar e).foldlM (step loadEnvFilePush) p = .ok p' ∧ Ready p' ∧ p'.userdata = p.userdata ++ [e] := by
  rw [writeEnvVar_eq assigns, foldlM_append, foldlM_key assigns.nonempty assigns.chars ready]
  show ∃ p', List.foldlM (step loadEnvFilePush) _ _ = _ ∧ _
  split
  · exact foldlM_inQuotes assigns ⟨rfl, rfl, rfl, ready.value, rfl, new⟩
  · rename_i plain
    exact foldlM_unquoted assigns (by simpa using plain) ⟨rfl, rfl, rfl, ready.value, rfl, new⟩

/-- The text of a list of assignments, to variables that differ from those already there. -/
theorem foldlM_writeEnvFile {l : List CString} (ready : Ready p)
    (assigns : ∀ e ∈ p.userdata ++ l, ∃ name value, Assigns e name value)
    (different : (p.userdata ++ l).Pairwise fun e f => sameVariable e f = false) :
    ∃ p', (writeEnvFile l).foldlM (step loadEnvFilePush) p = .ok p' ∧ Ready p' ∧ p'.userdata = p.userdata ++ l := by
  induction l generalizing p with
  | nil => exact ⟨p, rfl, ready, by simp⟩
  | cons e l ih =>
    obtain ⟨name, value, here⟩ := assigns e (by simp)
    have new (f : CString) (member : f ∈ p.userdata) : envEntryHasName f name = false := by
      obtain ⟨name', value', there⟩ := assigns f (by simp [member])
      exact envEntryHasName_of_sameVariable there here ((pairwise_append.mp different).2.2 f member e (by simp))
    obtain ⟨p', read, ready', userdata⟩ := foldlM_writeEnvVar ready here new
    have same : p'.userdata ++ l = p.userdata ++ e :: l := by simp [userdata]
    obtain ⟨p'', later, ready'', userdata'⟩ := ih ready' (by rwa [same]) (by rwa [same])
    refine ⟨p'', ?_, ready'', by rw [userdata', same]⟩
    rwa [writeEnvFile, flatMap_cons, foldlM_append, read]

end EnvParser

/-! ## A whole file -/

theorem strvEnvIsValid_iff {argMax : Nat} {l : List CString} : strvEnvIsValid argMax l = true ↔
      (∀ e ∈ l, envAssignmentIsValid argMax e = true) ∧ l.Pairwise fun e f => sameVariable e f = false := by
  induction l with
  | nil => simp [strvEnvIsValid]
  | cons e l ih =>
    simp only [strvEnvIsValid, Bool.and_eq_true, Bool.not_eq_true', any_eq_false, Bool.not_eq_true, forall_mem_cons,
      pairwise_cons]
    tauto

theorem zero_notMem_writeEnvVar {e : CString} (noNul : 0 ∉ e) : 0 ∉ writeEnvVar e := by
  have quoted (value : CString) (noNul : 0 ∉ value) : 0 ∉ value.flatMap quoteChar := by
    intro inQuoted
    obtain ⟨c, member, inChar⟩ := mem_flatMap.mp inQuoted
    have nonzero : (0 : UInt8) ≠ c := by
      rintro rfl
      exact noNul member
    unfold quoteChar at inChar
    split at inChar <;> simp [nonzero] at inChar
  unfold writeEnvVar
  split
  · simpa using noNul
  · rename_i i found
    have taken : 0 ∉ e.take (i + 1) := fun member => noNul (mem_of_mem_take member)
    have dropped : 0 ∉ e.drop (i + 1) := fun member => noNul (mem_of_mem_drop member)
    dsimp only
    split
    · have := quoted _ dropped
      simp only [mem_append, not_or]
      exact ⟨⟨taken, ⟨by decide, this⟩, by decide⟩, by decide⟩
    · simp only [mem_append, not_or]
      exact ⟨⟨taken, dropped⟩, by decide⟩

/-- A list of assignments that is valid is loaded as it was written, if the file is not larger
than `READ_FULL_BYTES_MAX`. -/
theorem loadEnvFile_writeEnvFile (argMax : Nat) (usable : Nat → Nat) {l : List CString} (enough : ∀ n, n ≤ usable n)
    (strings : ∀ e ∈ l, 0 ∉ e) (valid : strvEnvIsValid argMax l = true)
    (fits : (writeEnvFile l).length ≤ readFullBytesMax) : loadEnvFile usable (writeEnvFile l) = .ok l := by
  obtain ⟨each, different⟩ := strvEnvIsValid_iff.mp valid
  have noNul : 0 ∉ writeEnvFile l := by
    intro member
    obtain ⟨e, inList, inText⟩ := mem_flatMap.mp member
    exact zero_notMem_writeEnvVar (strings e inList) inText
  obtain ⟨p, read, ready, userdata⟩ :=
    EnvParser.foldlM_writeEnvFile (l := l) (p := { userdata := [] }) ⟨rfl, rfl, rfl⟩
      (fun e member => assigns_of_valid (each e (by simpa using member))) (by simpa using different)
  rw [loadEnvFile, parseEnvFileInternal, readFullStream_small enough fits noNul]
  show (List.foldlM (EnvParser.step loadEnvFilePush) { userdata := [] } (writeEnvFile l) >>= _) = _
  rw [read]
  show (p.finish loadEnvFilePush >>= _) = _
  rw [EnvParser.finish, ready.state]
  show Except.ok p.userdata = _
  rw [userdata]
  rfl

/-- A value with a blank and a quote at its ends. -/
theorem loadEnvFile_writeEnvFile_quoted :
    loadEnvFile id (writeEnvFile [cstr "A= b\n\"", cstr "B="]) = .ok [cstr "A= b\n\"", cstr "B="] :=
  loadEnvFile_writeEnvFile 2097152 id (fun _ => le_rfl) (by decide) (by decide +kernel) (by decide)

/-! ## A file that is too large -/

/-- Assignments to variables with longer and longer names. -/
def longNames (n : Nat) : List CString := (List.range n).map fun k => List.replicate (k + 1) (chr 'A') ++ [chr '=']

theorem longName_assigns (k : Nat) :
    Assigns (List.replicate (k + 1) (chr 'A') ++ [chr '=']) (List.replicate (k + 1) (chr 'A')) [] where
  split := rfl
  nonempty := by simp
  chars := by
    intro c member
    rw [eq_of_mem_replicate member]
    decide
  valid := utf8IsValid_ascii (by simp)

theorem longName_valid {k : Nat} (small : k < 12000) :
    envAssignmentIsValid 2097152 (List.replicate (k + 1) (chr 'A') ++ [chr '=']) = true := by
  have assigns := longName_assigns k
  have length : (List.replicate (k + 1) (chr 'A')).length = k + 1 := length_replicate
  have name : envNameIsValid 2097152 (List.replicate (k + 1) (chr 'A')) = true := by
    rw [replicate_succ, envNameIsValid, ← replicate_succ, length]
    have small' : k + 1 ≤ sizeSub 2097152 2 := by
      have : sizeSub 2097152 2 = 2097150 := by decide
      omega
    simp only [Bool.and_eq_true, decide_eq_true_eq, all_eq_true]
    exact ⟨⟨by decide, small'⟩, assigns.chars⟩
  have value : envValueIsValid 2097152 [] = true := by
    rw [envValueIsValid, assigns.valid]
    decide
  have whole : (List.replicate (k + 1) (chr 'A') ++ [chr '=']).length ≤ sizeSub 2097152 1 := by
    have : sizeSub 2097152 1 = 2097151 := by decide
    simp
    omega
  rw [envAssignmentIsValid, strchr_append assigns.noEq]
  dsimp only
  have rest : (List.replicate (k + 1) (chr 'A') ++ [chr '=']).drop ((List.replicate (k + 1) (chr 'A')).length + 1) = [] := by
    simp
  rw [take_left, rest, name, value, decide_eq_true whole]
  rfl

theorem longNames_valid {n : Nat} (small : n ≤ 12000) : strvEnvIsValid 2097152 (longNames n) = true := by
  rw [strvEnvIsValid_iff]
  constructor
  · intro e member
    obtain ⟨k, inRange, rfl⟩ := mem_map.mp member
    have lt : k < n := mem_range.mp inRange
    exact longName_valid (by omega)
  · unfold longNames
    rw [pairwise_map]
    refine pairwise_lt_range.imp ?_
    intro j k lt
    -- where the shorter name ends, the longer one goes on
    have goesOn : (List.replicate (k + 1) (chr 'A') ++ [chr '='])[j + 1]? = some (chr 'A') := by
      rw [getElem?_append_left (by simpa using lt), getElem?_replicate, if_pos (by omega)]
    have notEq : some (chr 'A') ≠ some (chr '=') := by decide
    simp only [sameVariable, (longName_assigns j).takeWhile, length_replicate, goesOn, notEq, and_false, decide_false]

theorem length_writeEnvFile_longNames (n : Nat) : 2 * (writeEnvFile (longNames n)).length = n * n + 5 * n := by
  induction n with
  | zero => rfl
  | succ n ih =>
    have last : (writeEnvVar (List.replicate (n + 1) (chr 'A') ++ [chr '='])).length = n + 3 := by
      rw [EnvParser.writeEnvVar_eq (longName_assigns n), if_neg (by decide)]
      simp
    have split : writeEnvFile (longNames (n + 1)) =
        writeEnvFile (longNames n) ++ writeEnvVar (List.replicate (n + 1) (chr 'A') ++ [chr '=']) := by
      simp [writeEnvFile, longNames, range_succ]
    rw [split, length_append, last, Nat.mul_add, ih]
    ring

/-- Twelve thousand valid assignments, and a file of more than 64 MiB, with memory in pages. -/
theorem loadEnvFile_too_large :
    strvEnvIsValid 2097152 (longNames 12000) = true ∧ (∀ e ∈ longNames 12000, 0 ∉ e) ∧
      loadEnvFile (fun n => (n + 4095) / 4096 * 4096) (writeEnvFile (longNames 12000)) = .error .e2big := by
  have length := length_writeEnvFile_longNames 12000
  refine ⟨longNames_valid le_rfl, ?_, ?_⟩
  · intro e member
    obtain ⟨k, -, rfl⟩ := mem_map.mp member
    rw [mem_append, mem_replicate]
    rintro (⟨-, same⟩ | same) <;> exact absurd same (by decide)
  · have refused : readFullStream (fun n => (n + 4095) / 4096 * 4096) (writeEnvFile (longNames 12000)) = .error .e2big := by
      apply readFullStream_large
      · omega
      · unfold readFullBytesMax
        omega
      · unfold readFullBytesMax
        omega
    rw [loadEnvFile, parseEnvFileInternal, refused]
    rfl

end SystemdPort.Basic
