/-
# Bus.MatchParse — match strings

`bus_match_parse()` and `bus_match_to_string()` of `src/libsystemd/sd-bus/bus-match.c`.  In a match string a
backslash takes the next character as it is, and a value may stand between quotes.  The string that is made of
components puts each value between quotes and escapes nothing: it is read back as the same components just if
no value has a quote or a backslash (`parse_toString_iff`).
-/
import SystemdPort.Basic.Errno
import SystemdPort.Bus.Match

namespace SystemdPort.Bus

open Basic List

set_option autoImplicit false

/-! ## Names -/

/-- The number of a type in `enum bus_match_node_type` -/
def MatchType.number : MatchType → Nat
  | sender => 3
  | messageType => 4
  | destination => 5
  | interface => 6
  | member => 7
  | path => 8
  | pathNamespace => 9
  | arg i => 10 + i
  | argPath i => 74 + i
  | argNamespace i => 138 + i
  | argHas i => 202 + i

/-- `bus_match_node_type_to_string()` -/
def busMatchNodeTypeToString : MatchType → CString
  | .messageType => cstr "type"
  | .sender => cstr "sender"
  | .destination => cstr "destination"
  | .interface => cstr "interface"
  | .member => cstr "member"
  | .path => cstr "path"
  | .pathNamespace => cstr "path_namespace"
  | .arg i => cstr "arg" ++ decimal i
  | .argPath i => cstr "arg" ++ decimal i ++ cstr "path"
  | .argNamespace i => cstr "arg" ++ decimal i ++ cstr "namespace"
  | .argHas i => cstr "arg" ++ decimal i ++ cstr "has"

/-- `undecchar()` -/
def undecchar (c : UInt8) : Option Nat := if asciiIsdigit c then some (c.toNat - 48) else none

/-- The two tests for a name that starts with `arg` and ends in `ending`, with one digit and with two -/
def argNumber (ending k : CString) : Option (Fin 64) :=
  if k.take 3 ≠ cstr "arg" then none
  else match k.drop 3 with
    | [] => none
    | a :: rest =>
      if rest = ending then do
        let j ← undecchar a
        if fits : j < 64 then some ⟨j, fits⟩ else none
      else match rest with
        | [] => none
        | b :: rest =>
          if rest ≠ ending then none
          else do
            let a ← undecchar a
            let b ← undecchar b
            if fits : 0 < a ∧ a * 10 + b < 64 then some ⟨a * 10 + b, fits.2⟩ else none

/-- `bus_match_node_type_from_string()` -/
def busMatchNodeTypeFromString (k : CString) : Option MatchType :=
  if k = cstr "type" then some .messageType
  else if k = cstr "sender" then some .sender
  else if k = cstr "destination" then some .destination
  else if k = cstr "interface" then some .interface
  else if k = cstr "member" then some .member
  else if k = cstr "path" then some .path
  else if k = cstr "path_namespace" then some .pathNamespace
  else (argNumber [] k).map .arg <|> (argNumber (cstr "path") k).map .argPath <|>
    (argNumber (cstr "namespace") k).map .argNamespace <|> (argNumber (cstr "has") k).map .argHas

/-- `bus_message_type_from_string()` -/
def busMessageTypeFromString (s : CString) : Option UInt8 :=
  if s = cstr "signal" then some 4
  else if s = cstr "method_call" then some 1
  else if s = cstr "error" then some 3
  else if s = cstr "method_return" then some 2
  else none

/-- `bus_message_type_to_string()` -/
def busMessageTypeToString (u : UInt8) : Option CString :=
  if u = 4 then some (cstr "signal")
  else if u = 1 then some (cstr "method_call")
  else if u = 3 then some (cstr "error")
  else if u = 2 then some (cstr "method_return")
  else none

/-! ## Parsing -/

/-- The loop over a value; gives also the text from `q + quoted` on. -/
def busMatchValue (quoted : Bool) : Bool → CString → Option (CString × CString)
  | _, [] => if quoted then none else some ([], [])
  | escaped, c :: s =>
    if !escaped && c = chr '\\' then busMatchValue quoted true s
    else if !escaped && quoted && c = chr '\'' then some ([], s)
    else if !escaped && !quoted && c = chr ',' then some ([], c :: s)
    else (busMatchValue quoted false s).map fun (value, rest) => (c :: value, rest)

/-- The value of a component of a type -/
def matchValue (type : MatchType) (value : CString) : Option MatchValue :=
  if type = .messageType then (busMessageTypeFromString value).map .u8 else some (.str value)

/-- One round of the loop of `bus_match_parse()` -/
def busMatchComponent (s : CString) : Option (MatchComponent × CString) :=
  let s := skipSpan [chr ' '] s
  match s.dropWhile (· ≠ chr '=') with
  | [] => none
  | _ :: text => do
    let type ← busMatchNodeTypeFromString (s.takeWhile (· ≠ chr '='))
    let quoted := decide (text.head? = some (chr '\''))
    let (value, rest) ← busMatchValue quoted false (if quoted then text.tail else text)
    let value ← matchValue type value
    some (⟨type, value⟩, rest)

variable {quoted escaped : Bool} {s value rest text v w : CString} {c : MatchComponent} {cs ds : List MatchComponent}

theorem busMatchValue_length (found : busMatchValue quoted escaped s = some (value, rest)) :
    rest.length ≤ s.length := by
  induction s generalizing escaped value with
  | nil =>
    simp only [busMatchValue] at found
    split at found <;> simp_all
  | cons c s ih =>
    rw [busMatchValue] at found
    split_ifs at found
    · exact (ih found).trans (by simp)
    · cases found
      simp
    · cases found
      simp
    · obtain ⟨⟨value, rest⟩, found, same⟩ := Option.map_eq_some_iff.mp found
      cases same
      exact (ih found).trans (by simp)

theorem busMatchComponent_ok (found : busMatchComponent s = some (c, rest)) :
    rest.length < s.length ∧ ∃ value, matchValue c.type value = some c.value := by
  have spaces := (dropWhile_suffix (l := s) (· ∈ [chr ' '])).length_le
  have name := (dropWhile_suffix (l := skipSpan [chr ' '] s) (· ≠ chr '=')).length_le
  rw [busMatchComponent] at found
  split at found
  · cases found
  · rename_i text eq
    simp only [Option.bind_eq_bind, Option.bind_eq_some_iff] at found
    obtain ⟨type, -, ⟨value, rest'⟩, found, inner, valued, same⟩ := found
    cases same
    refine ⟨?_, value, valued⟩
    have behind := busMatchValue_length found
    have shorter : (if decide (text.head? = some (chr '\'')) then text.tail else text).length ≤ text.length := by
      split <;> simp
    rw [eq] at name
    simp only [skipSpan, length_cons] at name
    show rest'.length < s.length
    omega

/-- The loop of `bus_match_parse()` -/
def busMatchComponents (s : CString) : Option (List MatchComponent) :=
  if s = [] then some []
  else match _found : busMatchComponent s with
    | none => none
    | some (c, []) => some [c]
    | some (c, x :: next) => if x = chr ',' then (busMatchComponents next).map (c :: ·) else none
termination_by s.length
decreasing_by exact (Nat.lt_succ_self _).trans (busMatchComponent_ok _found).1

/-- `bus_match_parse()`; `qsort()` can leave components of the same type in any order, but then they are refused. -/
def busMatchParse (s : CString) : Except Errno (List MatchComponent) :=
  match busMatchComponents s with
  | none => .error .einval
  | some components =>
    let components := components.mergeSort fun a b => a.type.number ≤ b.type.number
    if (components.map (·.type.number)).IsChain (· ≠ ·) then .ok components else .error .einval

/-- What `bus_match_to_string()` writes for a component, or `none` where it is given a NULL to write -/
def componentToString (c : MatchComponent) : Option CString := do
  let value ← match c.value with
    | .u8 u => busMessageTypeToString u
    | .str s => some s
  some (busMatchNodeTypeToString c.type ++ cstr "='" ++ value ++ cstr "'")

/-- `bus_match_to_string()` -/
def busMatchToString : List MatchComponent → Option CString
  | [] => some []
  | [c] => componentToString c
  | c :: cs => do
    let first ← componentToString c
    let others ← busMatchToString cs
    some (first ++ chr ',' :: others)

/-! ## Values between quotes -/

/-- Neither a quote nor a backslash. -/
def Plain (v : CString) : Prop := chr '\'' ∉ v ∧ chr '\\' ∉ v

theorem value_plain (plain : Plain v) : busMatchValue true false (v ++ chr '\'' :: rest) = some (v, rest) := by
  induction v with
  | nil => rfl
  | cons c v ih =>
    simp only [Plain, mem_cons, not_or] at plain ih
    simp [busMatchValue, Ne.symm plain.1.1, Ne.symm plain.2.1, ih ⟨plain.1.2, plain.2.2⟩]

/-- Once a backslash has been skipped, what is read stays behind the text, and in between there is no quote. -/
theorem value_not_plain (behind : CString) (special : behind ≠ [] ∨ escaped = false ∧ ¬ Plain v)
    (no_quote : chr '\'' ∉ behind)
    (found : busMatchValue true escaped (v ++ chr '\'' :: text) = some (w, rest)) : w ≠ behind ++ v := by
  induction v generalizing escaped w behind with
  | nil =>
    have some_behind : behind ≠ [] := special.resolve_right fun h => h.2 (by simp [Plain])
    obtain ⟨b, behind, rfl⟩ := exists_cons_of_ne_nil some_behind
    cases escaped with
    | false =>
      cases found
      simp
    | true =>
      obtain ⟨⟨w, rest⟩, -, same⟩ := Option.map_eq_some_iff.mp found
      cases same
      simp_all
  | cons c v ih =>
    rw [cons_append, busMatchValue] at found
    split_ifs at found with skip quote separator
    · simp only [Bool.and_eq_true, decide_eq_true_eq] at skip
      have later := ih (behind ++ [c]) (.inl (by simp))
        (by simpa [skip.2, show chr '\'' ≠ chr '\\' by decide] using no_quote) found
      simpa using later
    · cases found
      simp
    · simp at separator
    · obtain ⟨⟨w, rest⟩, found, same⟩ := Option.map_eq_some_iff.mp found
      cases same
      cases behind with
      | nil =>
        have later := ih [] (.inr ⟨rfl, by simp_all [Plain, eq_comm (a := c)]⟩) (by simp) found
        simpa using later
      | cons b behind =>
        intro same
        obtain ⟨rfl, same⟩ := List.cons.inj same
        refine ih (behind ++ [c]) (.inl (by simp)) (by simpa [and_comm] using no_quote) found ?_
        simpa using same

/-! ## Components -/

theorem typeName_read (type : MatchType) :
    busMatchNodeTypeFromString (busMatchNodeTypeToString type) = some type := by
  cases type with
  | arg i | argPath i | argNamespace i | argHas i =>
    revert i
    decide +kernel
  | _ => decide

/-- A name stands apart from the spaces before it and from the value. -/
theorem typeName_apart (type : MatchType) :
    (busMatchNodeTypeToString type).all (fun c => c ≠ chr '=' && c ≠ chr ' ') = true := by
  cases type with
  | arg i | argPath i | argNamespace i | argHas i =>
    revert i
    decide +kernel
  | _ => decide

theorem component_written (type : MatchType) (text : CString) :
    busMatchComponent (busMatchNodeTypeToString type ++ (chr '=' :: chr '\'' :: text)) =
      (busMatchValue true false text).bind fun found =>
        (matchValue type found.1).map fun value => (⟨type, value⟩, found.2) := by
  have apart := typeName_apart type
  simp only [all_eq_true, Bool.and_eq_true, decide_eq_true_eq] at apart
  have name := typeName_read type
  generalize busMatchNodeTypeToString type = k at apart name ⊢
  have start : skipSpan [chr ' '] (k ++ chr '=' :: chr '\'' :: text) = k ++ chr '=' :: chr '\'' :: text := by
    cases k with
    | nil => simp [skipSpan, show chr '=' ≠ chr ' ' by decide]
    | cons c k => simp [skipSpan, (apart c mem_cons_self).2]
  have no_eq : ∀ c ∈ k, decide (c ≠ chr '=') = true := fun c member => by simp [(apart c member).1]
  have front : (k ++ chr '=' :: chr '\'' :: text).takeWhile (· ≠ chr '=') = k := by
    rw [takeWhile_append_of_pos no_eq]
    simp
  have back : (k ++ chr '=' :: chr '\'' :: text).dropWhile (· ≠ chr '=') = chr '=' :: chr '\'' :: text := by
    rw [dropWhile_append_of_pos no_eq]
    simp
  rw [busMatchComponent, start, front, back]
  simp [name, Option.map_eq_bind]

/-- What a component was read from is what is written for it; the name of a message type is plain. -/
theorem componentToString_of (parsed : matchValue c.type value = some c.value) :
    componentToString c = some (busMatchNodeTypeToString c.type ++ (chr '=' :: chr '\'' :: (value ++ [chr '\'']))) ∧
      (c.type ≠ .messageType ∧ c.value = .str value ∨ Plain value ∧ ∀ v, c.value ≠ .str v) := by
  unfold matchValue at parsed
  split at parsed
  · obtain ⟨u, known, same⟩ := Option.map_eq_some_iff.mp parsed
    rw [componentToString, ← same]
    unfold busMessageTypeFromString at known
    split_ifs at known with is is is is <;>
      · subst is
        cases known
        exact ⟨by simp [busMessageTypeToString, cstr], .inr ⟨by simp [Plain]; decide, by simp⟩⟩
  · rename_i other
    have same : c.value = .str value := (Option.some.inj parsed).symm
    rw [componentToString, same]
    exact ⟨by simp [cstr], .inl ⟨other, rfl⟩⟩

theorem busMatchComponents_eq_some (some_text : s ≠ []) : busMatchComponents s = some cs ↔
    ∃ c rest, busMatchComponent s = some (c, rest) ∧ (rest = [] ∧ cs = [c] ∨
      ∃ next ds, rest = chr ',' :: next ∧ busMatchComponents next = some ds ∧ cs = c :: ds) := by
  rw [busMatchComponents, if_neg some_text]
  split
  · rename_i found
    simp [found]
  · rename_i c found
    simp [found, eq_comm (a := cs)]
  · rename_i c x next found
    by_cases comma : x = chr ','
    · simp [found, comma, eq_comm (a := cs)]
    · simp [found, comma]

/-- A component reads back as itself, or another one of its type is read. -/
theorem component_read (parsed : matchValue c.type value = some c.value) :
    ∃ first, componentToString c = some first ∧ first ≠ [] ∧
      ((∀ v, c.value = .str v → Plain v) → ∀ more, busMatchComponent (first ++ more) = some (c, more)) ∧
      ((¬ ∀ v, c.value = .str v → Plain v) → ∀ more d rest,
        busMatchComponent (first ++ more) = some (d, rest) → d.type = c.type ∧ d ≠ c) := by
  obtain ⟨written, kind⟩ := componentToString_of parsed
  refine ⟨_, written, by simp, fun plain more => ?_, fun special more d rest found => ?_⟩
  · have plain : Plain value := by
      rcases kind with ⟨-, same⟩ | ⟨plain, -⟩
      · exact plain value same
      · exact plain
    have read := component_written c.type (value ++ chr '\'' :: more)
    rw [value_plain plain] at read
    simpa [parsed] using read
  · have read := component_written c.type (value ++ chr '\'' :: more)
    simp only [append_assoc, cons_append, nil_append] at found
    rw [read, Option.bind_eq_some_iff] at found
    obtain ⟨⟨w, rest'⟩, found, valued⟩ := found
    obtain ⟨_, valued, same⟩ := Option.map_eq_some_iff.mp valued
    cases same
    rcases kind with ⟨other, same⟩ | ⟨-, none_there⟩
    · have changed : w ≠ value :=
        value_not_plain [] (.inr ⟨rfl, fun plain => special fun v is => by simp_all⟩) (by simp) found
      rw [matchValue, if_neg other] at valued
      cases valued
      refine ⟨rfl, fun equal => changed ?_⟩
      exact MatchValue.str.inj ((congrArg MatchComponent.value equal).trans same)
    · exact absurd (fun v is => absurd is (none_there v)) special

/-! ## Match strings -/

theorem components_parsed (done : busMatchComponents s = some cs) :
    ∀ c ∈ cs, ∃ value, matchValue c.type value = some c.value := by
  induction size : s.length using Nat.strongRecOn generalizing s cs with
  | ind n ih =>
    by_cases some_text : s = []
    · rw [busMatchComponents, if_pos some_text] at done
      cases done
      simp
    · obtain ⟨c, rest, found, last | ⟨next, ds, rfl, others, rfl⟩⟩ := (busMatchComponents_eq_some some_text).mp done
      · simp [last.2, (busMatchComponent_ok found).2]
      · have shorter := (busMatchComponent_ok found).1
        rw [length_cons] at shorter
        exact forall_mem_cons.mpr ⟨(busMatchComponent_ok found).2, ih next.length (by omega) others rfl⟩

/-- The components are read back as themselves, or another one of the type of one of them is read. -/
theorem components_read (parsed : ∀ c ∈ cs, ∃ value, matchValue c.type value = some c.value) :
    ∃ text, busMatchToString cs = some text ∧
      ((∀ c ∈ cs, ∀ v, c.value = .str v → Plain v) → busMatchComponents text = some cs) ∧
      ((¬ ∀ c ∈ cs, ∀ v, c.value = .str v → Plain v) → ∀ ds, busMatchComponents text = some ds →
        ∃ c ∈ cs, ∃ d ∈ ds, d.type = c.type ∧ d ≠ c) := by
  induction cs with
  | nil => exact ⟨[], rfl, fun _ => by simp [busMatchComponents], by simp⟩
  | cons c cs ih =>
    obtain ⟨⟨value, here⟩, others⟩ := forall_mem_cons.mp parsed
    obtain ⟨first, written, some_first, plain, special⟩ := component_read here
    obtain ⟨text, writtenText, plainText, specialText⟩ := ih others
    -- the rest of the string, with the comma before it
    have whole : ∃ more, busMatchToString (c :: cs) = some (first ++ more) ∧
        (cs = [] ∧ more = [] ∨ cs ≠ [] ∧ more = chr ',' :: text) := by
      cases cs with
      | nil => exact ⟨[], by simp [busMatchToString, written], .inl ⟨rfl, rfl⟩⟩
      | cons d cs => exact ⟨_, by simp [busMatchToString, written, writtenText], .inr ⟨by simp, rfl⟩⟩
    obtain ⟨more, wholeEq, kind⟩ := whole
    have some_text : first ++ more ≠ [] := by simp [some_first]
    refine ⟨_, wholeEq, fun all => ?_, fun some_special ds done => ?_⟩
    · obtain ⟨plainHere, plainOthers⟩ := forall_mem_cons.mp all
      rw [busMatchComponents_eq_some some_text]
      refine ⟨c, more, plain plainHere more, ?_⟩
      rcases kind with ⟨rfl, rfl⟩ | ⟨-, rfl⟩
      · exact .inl ⟨rfl, rfl⟩
      · exact .inr ⟨text, cs, rfl, plainText plainOthers, rfl⟩
    · obtain ⟨d, rest, found, last⟩ := (busMatchComponents_eq_some some_text).mp done
      by_cases plainHere : ∀ v, c.value = .str v → Plain v
      · have some_other : ¬ ∀ c ∈ cs, ∀ v, c.value = .str v → Plain v := fun all =>
          some_special (forall_mem_cons.mpr ⟨plainHere, all⟩)
        cases (plain plainHere more).symm.trans found
        rcases kind with ⟨rfl, -⟩ | ⟨-, rfl⟩
        · simp at some_other
        · obtain ⟨none_left, -⟩ | ⟨next, ds, same, done, rfl⟩ := last
          · cases none_left
          · cases same
            obtain ⟨c', member, d', member', differ⟩ := specialText some_other ds done
            exact ⟨c', mem_cons_of_mem _ member, d', mem_cons_of_mem _ member', differ⟩
      · have member : d ∈ ds := by
          obtain ⟨-, rfl⟩ | ⟨_, _, -, -, rfl⟩ := last <;> simp
        exact ⟨c, mem_cons_self, d, member, special plainHere more d rest found⟩

theorem lt_of_neighbours {l : List Nat} (sorted : l.Pairwise (· ≤ ·)) (apart : l.IsChain (· ≠ ·)) :
    l.Pairwise (· < ·) := by
  refine isChain_iff_pairwise.mp ?_
  induction l with
  | nil => exact .nil
  | cons n l ih =>
    obtain ⟨first, others⟩ := pairwise_cons.mp sorted
    rw [isChain_cons] at apart ⊢
    exact ⟨fun k next => lt_of_le_of_ne (first k (mem_of_mem_head? next)) (apart.1 k next), ih others apart.2⟩

/-- What is read is in order, with one component of a type. -/
theorem busMatchParse_ok (done : busMatchParse s = .ok cs) :
    ∃ ds, busMatchComponents s = some ds ∧ cs ~ ds ∧ (cs.map (·.type.number)).Pairwise (· < ·) := by
  unfold busMatchParse at done
  split at done
  · cases done
  · rename_i ds found
    have sorted : (ds.mergeSort fun a b => a.type.number ≤ b.type.number).Pairwise fun a b =>
        decide (a.type.number ≤ b.type.number) = true :=
      pairwise_mergeSort (by simpa using fun _ _ _ => le_trans) (by simpa using fun _ _ => le_total _ _) ds
    dsimp only at done
    split at done
    · rename_i apart
      cases done
      refine ⟨ds, found, mergeSort_perm ds _, lt_of_neighbours ?_ apart⟩
      simpa [pairwise_map] using sorted
    · cases done

theorem busMatchParse_of (found : busMatchComponents s = some cs)
    (ordered : (cs.map (·.type.number)).Pairwise (· < ·)) : busMatchParse s = .ok cs := by
  have sorted : cs.mergeSort (fun a b => a.type.number ≤ b.type.number) = cs := by
    refine mergeSort_of_pairwise ((pairwise_map.mp ordered).imp fun less => ?_)
    simpa using less.le
  have apart : (cs.map (·.type.number)).IsChain (· ≠ ·) := (ordered.imp Nat.ne_of_lt).isChain
  simp only [busMatchParse, found, sorted]
  rw [if_pos apart]

theorem parse_one (found : busMatchComponent s = some (c, [])) : busMatchParse s = .ok [c] := by
  have some_text : s ≠ [] := by
    rintro rfl
    exact absurd (busMatchComponent_ok found).1 (by simp)
  have all := (busMatchComponents_eq_some some_text).mpr ⟨c, [], found, .inl ⟨rfl, rfl⟩⟩
  exact busMatchParse_of all (by simp)

/-- The string made of what was read from a match string is read as the same components just if no value has a
quote or a backslash. -/
theorem parse_toString_iff (accepted : busMatchParse s = .ok cs) :
    (∃ text, busMatchToString cs = some text ∧ busMatchParse text = .ok cs) ↔
      ∀ c ∈ cs, ∀ v, c.value = .str v → chr '\'' ∉ v ∧ chr '\\' ∉ v := by
  obtain ⟨ds, done, perm, ordered⟩ := busMatchParse_ok accepted
  obtain ⟨text, written, plain, special⟩ := components_read fun c member =>
    components_parsed done c (perm.subset member)
  constructor
  · rintro ⟨text', written', again⟩
    cases written.symm.trans written'
    obtain ⟨ds', done', perm', -⟩ := busMatchParse_ok again
    by_contra some_special
    obtain ⟨c, member, d, member', sameType, differ⟩ := special some_special ds' done'
    have once := inj_on_of_nodup_map (ordered.imp Nat.ne_of_lt)
    exact differ (once (perm'.symm.subset member') member (by rw [sameType]))
  · intro all_plain
    exact ⟨text, written, busMatchParse_of (plain all_plain) ordered⟩

/-- The match of one member -/
theorem parse_toString_member :
    busMatchParse (cstr "member=its") = .ok [⟨.member, .str (cstr "its")⟩] ∧
      ((∃ text, busMatchToString [⟨.member, .str (cstr "its")⟩] = some text ∧
        busMatchParse text = .ok [⟨.member, .str (cstr "its")⟩]) ↔
        ∀ c ∈ [(⟨.member, .str (cstr "its")⟩ : MatchComponent)], ∀ v, c.value = .str v →
          chr '\'' ∉ v ∧ chr '\\' ∉ v) := by
  have accepted : busMatchParse (cstr "member=its") = .ok [⟨.member, .str (cstr "its")⟩] :=
    parse_one (by decide)
  exact ⟨accepted, parse_toString_iff accepted⟩

/-- A quote inside a value, which is accepted where the value itself is not quoted, ends it when it is read again. -/
theorem toString_quote_refused :
    busMatchParse (cstr "member=it's") = .ok [⟨.member, .str (cstr "it's")⟩] ∧
      busMatchToString [⟨.member, .str (cstr "it's")⟩] = some (cstr "member='it's'") ∧
      busMatchParse (cstr "member='it's'") = .error .einval := by
  refine ⟨parse_one (by decide), by decide, ?_⟩
  have refused : busMatchComponents (cstr "member='it's'") = none := by
    rw [Option.eq_none_iff_forall_ne_some]
    intro cs done
    obtain ⟨c, rest, found, last⟩ := (busMatchComponents_eq_some (by decide)).mp done
    have read : busMatchComponent (cstr "member='it's'") = some (⟨.member, .str (cstr "it")⟩, cstr "s'") := by decide
    cases read.symm.trans found
    obtain ⟨none_left, -⟩ | ⟨next, ds, comma, -⟩ := last
    · cases none_left
    · cases comma
  rw [busMatchParse, refused]

end SystemdPort.Bus
