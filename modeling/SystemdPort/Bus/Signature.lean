/-
# Bus.Signature — type signatures

`src/libsystemd/sd-bus/bus-signature.c`.  The recursion of `signature_element_length_internal()` ends
because each level counts towards one of two depths that may not pass 32, so a counter of 65 levels never
runs out; its loops over fields end because each field takes at least one character.

`Single` is the grammar of single complete types.  What the functions find is what the grammar has
(`elementLength_sound`, `elementLength_complete`), so that the length of an element depends on the element
alone, and signatures are concatenations of such types (`elements_iff`).
-/
import SystemdPort.Bus.Type

namespace SystemdPort.Bus

open Basic List Option

set_option autoImplicit false

/-- The lengths of the elements up to the bracket that closes them. -/
def fieldLengths (element : CString → Option Nat) (close : UInt8) : Nat → CString → Option (List Nat)
  | 0, _ => none
  | n + 1, p =>
    if p.head? = some close then some []
    else do
      let t ← element p
      let ts ← fieldLengths element close n (p.drop t)
      some (t :: ts)

def elementLength : Nat → Bool → Nat → Nat → CString → Option Nat
  | 0, _, _, _, _ => none
  | _ + 1, _, _, _, [] => none
  | n + 1, allowDictEntry, arrayDepth, structDepth, c :: s =>
    if busTypeIsBasic c ∨ c = variantCode then some 1
    else if c = arrayCode then
      if 32 ≤ arrayDepth then none
      else (elementLength n true (arrayDepth + 1) structDepth s).map (· + 1)
    else if c = structBegin then
      if 32 ≤ structDepth then none
      else do
        let ts ← fieldLengths (elementLength n false arrayDepth (structDepth + 1)) structEnd s.length s
        if ts.sum + 1 < 2 then none else some (ts.sum + 2)
    else if c = dictEntryBegin ∧ allowDictEntry then
      if 32 ≤ structDepth then none
      else do
        let ts ← fieldLengths (elementLength n false arrayDepth (structDepth + 1)) dictEntryEnd s.length s
        if s.head?.any busTypeIsBasic ∧ ts.length = 2 then some (ts.sum + 2) else none
    else none

def signatureElementLength (s : CString) : Option Nat := elementLength 65 true 0 0 s

def signatureIsSingle (s : CString) (allowDictEntry : Bool) : Bool :=
  elementLength 65 allowDictEntry 0 0 s = some s.length

def signatureIsPair : CString → Bool
  | [] => false
  | c :: s => busTypeIsBasic c && signatureIsSingle s false

/-- The loop of `signature_is_valid()`. -/
def elementsValid (element : CString → Option Nat) : Nat → CString → Bool
  | _, [] => true
  | 0, _ => false
  | n + 1, p =>
    match element p with
    | none => false
    | some t => elementsValid element n (p.drop t)

def signatureIsValid (s : CString) (allowDictEntry : Bool) : Bool :=
  elementsValid (elementLength 65 allowDictEntry 0 0) s.length s && s.length ≤ 255

/-! ## The grammar -/

/-- A single complete type, inside of so many arrays and of so many structs and dict entries.  Elements of
arrays may be dict entries, and others where that is allowed. -/
inductive Single : Bool → Nat → Nat → CString → Prop
  | basic {allow : Bool} {arrayDepth structDepth : Nat} {c : UInt8} (isBasic : busTypeIsBasic c = true) :
      Single allow arrayDepth structDepth [c]
  | variant {allow : Bool} {arrayDepth structDepth : Nat} : Single allow arrayDepth structDepth [variantCode]
  | array {allow : Bool} {arrayDepth structDepth : Nat} {e : CString} (shallow : arrayDepth < 32)
      (element : Single true (arrayDepth + 1) structDepth e) : Single allow arrayDepth structDepth (arrayCode :: e)
  | struct {allow : Bool} {arrayDepth structDepth : Nat} {es : List CString} (shallow : structDepth < 32)
      (some_field : es ≠ []) (fields : ∀ e ∈ es, Single false arrayDepth (structDepth + 1) e) :
      Single allow arrayDepth structDepth (structBegin :: (es.flatten ++ [structEnd]))
  | dictEntry {arrayDepth structDepth : Nat} {key : UInt8} {e : CString} (shallow : structDepth < 32)
      (isBasic : busTypeIsBasic key = true) (value : Single false arrayDepth (structDepth + 1) e) :
      Single true arrayDepth structDepth (dictEntryBegin :: (key :: e ++ [dictEntryEnd]))

variable {e p s x y contents : CString} {es ts' : List CString} {ts : List Nat} {allow allow' : Bool}
  {arrayDepth arrayDepth' structDepth structDepth' k n t : Nat} {close : UInt8} {element : CString → Option Nat}

namespace Single

theorem exists_cons (single : Single allow arrayDepth structDepth e) :
    ∃ c r, e = c :: r ∧ c ≠ 0 ∧ c ≠ structEnd ∧ c ≠ dictEntryEnd := by
  cases single with
  | @basic _ _ _ c isBasic =>
    refine ⟨c, [], rfl, ?_, ?_, ?_⟩ <;> (rintro rfl; exact absurd isBasic (by decide))
  | variant | array | struct | dictEntry => exact ⟨_, _, rfl, by decide, by decide, by decide⟩

theorem ne_nil (single : Single allow arrayDepth structDepth e) : e ≠ [] := by
  obtain ⟨c, r, rfl, -⟩ := single.exists_cons
  simp

theorem mono (single : Single allow arrayDepth structDepth e) (allows : allow = true → allow' = true)
    (arrays : arrayDepth' ≤ arrayDepth) (structs : structDepth' ≤ structDepth) :
    Single allow' arrayDepth' structDepth' e := by
  induction single generalizing allow' arrayDepth' structDepth' with
  | basic isBasic => exact .basic isBasic
  | variant => exact .variant
  | array shallow _ ih => exact .array (by omega) (ih id (by omega) structs)
  | struct shallow some_field _ ih =>
    exact .struct (by omega) some_field fun e member => ih e member id arrays (by omega)
  | dictEntry shallow isBasic _ ih =>
    obtain rfl := allows rfl
    exact .dictEntry (by omega) isBasic (ih id arrays (by omega))

theorem nulFree (single : Single allow arrayDepth structDepth e) : 0 ∉ e := by
  have basicCode {c : UInt8} (isBasic : busTypeIsBasic c = true) : 0 ≠ c := by
    rintro rfl
    exact absurd isBasic (by decide)
  induction single with
  | basic isBasic => simpa using basicCode isBasic
  | variant => decide
  | array _ _ ih => simpa using ⟨by decide, ih⟩
  | struct _ _ _ ih => simpa using ⟨by decide, fun e member => ih e member, by decide⟩
  | dictEntry _ isBasic _ ih => simpa using ⟨by decide, basicCode isBasic, ih, by decide⟩

/-- Each of several takes at least one character. -/
theorem length_le (singles : ∀ e ∈ es, Single allow arrayDepth structDepth e) : es.length ≤ (es.map length).sum := by
  have each : ∀ l ∈ es.map length, 1 ≤ l := by
    intro l listed
    obtain ⟨e, member, rfl⟩ := mem_map.mp listed
    exact length_pos_iff.mpr (singles e member).ne_nil
  simpa using length_le_sum_of_one_le (es.map length) each

theorem head_ne (single : Single allow arrayDepth structDepth e) (isClose : close = structEnd ∨ close = dictEntryEnd) :
    ∃ c r, e = c :: r ∧ c ≠ close := by
  obtain ⟨c, r, same, -, notStruct, notDict⟩ := single.exists_cons
  rcases isClose with rfl | rfl
  · exact ⟨c, r, same, notStruct⟩
  · exact ⟨c, r, same, notDict⟩

end Single

/-! ## What is found is what the grammar has -/

theorem exists_fields {P : CString → Prop} (sound : ∀ {s t}, element s = some t → ∃ e x, s = e ++ x ∧ t = e.length ∧ P e)
    (found : fieldLengths element close k p = some ts) :
    ∃ (es : List CString) (x : CString), p = es.flatten ++ close :: x ∧ ts = es.map length ∧ ∀ e ∈ es, P e := by
  induction k generalizing p ts with
  | zero => simp [fieldLengths] at found
  | succ k ih =>
    rw [fieldLengths] at found
    split at found
    · rename_i closed
      cases found
      obtain ⟨x, rfl⟩ := head?_eq_some_iff.mp closed
      exact ⟨[], x, rfl, rfl, by simp⟩
    · obtain ⟨t, first, found⟩ := bind_eq_some_iff.mp found
      obtain ⟨us, rest, found⟩ := bind_eq_some_iff.mp found
      cases found
      obtain ⟨e, y, rfl, rfl, here⟩ := sound first
      rw [drop_left] at rest
      obtain ⟨es, x, rfl, rfl, others⟩ := ih rest
      exact ⟨e :: es, x, by simp, rfl, forall_mem_cons.mpr ⟨here, others⟩⟩

theorem fieldLengths_flatten
    (fields : ∀ e ∈ es, (∃ c r, e = c :: r ∧ c ≠ close) ∧ ∀ x, element (e ++ x) = some e.length) (enough : es.length < k) :
    fieldLengths element close k (es.flatten ++ close :: x) = some (es.map length) := by
  induction es generalizing k with
  | nil =>
    obtain ⟨k, rfl⟩ : ∃ j, k = j + 1 := ⟨k - 1, by simp at enough; omega⟩
    simp [fieldLengths]
  | cons e es ih =>
    obtain ⟨k, rfl⟩ : ∃ j, k = j + 1 := ⟨k - 1, by simp at enough; omega⟩
    obtain ⟨⟨⟨c, r, rfl, notClose⟩, found⟩, others⟩ := forall_mem_cons.mp fields
    rw [flatten_cons, append_assoc, fieldLengths, if_neg (by simpa using notClose), found]
    simp only [bind_eq_bind, bind_some, drop_left]
    rw [ih others (by simpa using enough)]
    rfl

theorem elementLength_sound (found : elementLength n allow arrayDepth structDepth s = some t) :
    ∃ e x, s = e ++ x ∧ t = e.length ∧ Single allow arrayDepth structDepth e := by
  induction n generalizing allow arrayDepth structDepth s t with
  | zero => simp [elementLength] at found
  | succ n ih =>
    cases s with
    | nil => simp [elementLength] at found
    | cons c s =>
      rw [elementLength] at found
      split at found
      · rename_i leaf
        cases found
        rcases leaf with isBasic | rfl
        · exact ⟨[c], s, rfl, rfl, .basic isBasic⟩
        · exact ⟨[variantCode], s, rfl, rfl, .variant⟩
      split at found
      · rename_i isArray
        subst isArray
        split at found
        · simp at found
        · obtain ⟨k, inner, rfl⟩ := map_eq_some_iff.mp found
          obtain ⟨e, x, rfl, rfl, single⟩ := ih inner
          exact ⟨arrayCode :: e, x, rfl, rfl, .array (by omega) single⟩
      split at found
      · rename_i isStruct
        subst isStruct
        split at found
        · simp at found
        · obtain ⟨ts, fields, found⟩ := bind_eq_some_iff.mp found
          obtain ⟨es, x, rfl, rfl, singles⟩ := exists_fields ih fields
          split at found
          · simp at found
          · rename_i large
            cases found
            refine ⟨structBegin :: (es.flatten ++ [structEnd]), x, by simp, by simp [length_flatten], ?_⟩
            refine .struct (by omega) ?_ singles
            rintro rfl
            exact large (by decide)
      split at found
      · rename_i isDictEntry
        obtain ⟨rfl, rfl⟩ := isDictEntry
        split at found
        · simp at found
        · obtain ⟨ts, fields, found⟩ := bind_eq_some_iff.mp found
          obtain ⟨es, x, rfl, rfl, singles⟩ := exists_fields ih fields
          split at found
          · rename_i pair
            cases found
            obtain ⟨key, two⟩ := pair
            rw [length_map] at two
            obtain ⟨f, e, rfl⟩ := length_eq_two.mp two
            have value := singles e (by simp)
            -- what starts like a basic type is one
            cases singles f (by simp) with
            | basic isBasic => exact ⟨_, x, by simp, by simp; omega, .dictEntry (by omega) isBasic value⟩
            | variant | array | struct => exact absurd key (by simp; decide)
          · simp at found
      · simp at found

theorem elementLength_complete (single : Single allow arrayDepth structDepth e) (levels : 65 ≤ n + arrayDepth + structDepth)
    (arrays : arrayDepth ≤ 32) (structs : structDepth ≤ 32) (x : CString) :
    elementLength n allow arrayDepth structDepth (e ++ x) = some e.length := by
  induction single generalizing n x with
  | basic isBasic =>
    obtain ⟨n, rfl⟩ : ∃ j, n = j + 1 := ⟨n - 1, by omega⟩
    simp [elementLength, isBasic]
  | variant =>
    obtain ⟨n, rfl⟩ : ∃ j, n = j + 1 := ⟨n - 1, by omega⟩
    simp [elementLength]
  | array shallow _ ih =>
    obtain ⟨n, rfl⟩ : ∃ j, n = j + 1 := ⟨n - 1, by omega⟩
    rw [cons_append, elementLength, if_neg (by decide), if_pos rfl, if_neg (by omega), ih (by omega) (by omega) structs]
    rfl
  | @struct _ _ _ es shallow some_field fields ih =>
    obtain ⟨n, rfl⟩ : ∃ j, n = j + 1 := ⟨n - 1, by omega⟩
    have count := Single.length_le fields
    have positive := length_pos_iff.mpr some_field
    rw [cons_append, append_assoc, singleton_append, elementLength, if_neg (by decide), if_neg (by decide), if_pos rfl,
      if_neg (by omega), fieldLengths_flatten (fun e member => ⟨(fields e member).head_ne (.inl rfl),
        ih e member (by omega) arrays (by omega)⟩) (by simp [length_flatten]; omega)]
    simp only [bind_eq_bind, bind_some]
    rw [if_neg (by omega)]
    simp [length_flatten]
  | @dictEntry _ _ key e shallow isBasic value ih =>
    obtain ⟨n, rfl⟩ : ∃ j, n = j + 2 := ⟨n - 2, by omega⟩
    have positive := length_pos_iff.mpr value.ne_nil
    have fields : fieldLengths _ dictEntryEnd (key :: (e ++ dictEntryEnd :: x)).length ([[key], e].flatten ++ dictEntryEnd :: x) =
        some [1, e.length] :=
      fieldLengths_flatten (forall_mem_cons.mpr ⟨⟨(Single.basic isBasic : Single true 0 0 [key]).head_ne (.inr rfl),
          fun x => (by simp [elementLength, isBasic] : elementLength (n + 1) false _ _ (key :: x) = some 1)⟩,
        forall_mem_singleton.mpr ⟨value.head_ne (.inr rfl), ih (by omega) arrays (by omega)⟩⟩) (by simp; omega)
    simp only [flatten_cons, flatten_nil, append_nil, cons_append, nil_append] at fields
    simp only [cons_append, append_assoc, nil_append]
    rw [elementLength, if_neg (by decide), if_neg (by decide), if_neg (by decide), if_pos ⟨rfl, rfl⟩, if_neg (by omega), fields]
    simp [isBasic]
    omega

theorem elementLength_iff :
    elementLength 65 allow 0 0 s = some t ↔ ∃ e x, s = e ++ x ∧ t = e.length ∧ Single allow 0 0 e := by
  constructor
  · exact elementLength_sound
  · rintro ⟨e, x, rfl, rfl, single⟩
    exact elementLength_complete single (by omega) (by omega) (by omega) x

theorem elementLength_of_single (single : Single allow arrayDepth structDepth e) (allows : allow = true → allow' = true)
    (x : CString) : elementLength 65 allow' 0 0 (e ++ x) = some e.length :=
  elementLength_iff.mpr ⟨e, x, rfl, rfl, single.mono allows (Nat.zero_le _) (Nat.zero_le _)⟩

theorem signatureIsSingle_iff : signatureIsSingle s allow = true ↔ Single allow 0 0 s := by
  rw [signatureIsSingle, decide_eq_true_eq, elementLength_iff]
  constructor
  · rintro ⟨e, x, rfl, whole, single⟩
    obtain rfl : x = [] := by simpa using whole
    rwa [append_nil]
  · intro single
    exact ⟨s, [], by simp, rfl, single⟩

/-! ## Signatures -/

/-- A string every character of which belongs to an element. -/
def Elements (allow : Bool) (s : CString) : Prop :=
  elementsValid (elementLength 65 allow 0 0) s.length s = true

theorem elementsValid_iff (enough : p.length ≤ k) : elementsValid (elementLength 65 allow 0 0) k p = true ↔
    ∃ es : List CString, p = es.flatten ∧ ∀ e ∈ es, Single allow 0 0 e := by
  induction k generalizing p with
  | zero =>
    obtain rfl : p = [] := length_eq_zero_iff.mp (by omega)
    exact iff_of_true rfl ⟨[], rfl, by simp⟩
  | succ k ih =>
    cases p with
    | nil => exact iff_of_true rfl ⟨[], rfl, by simp⟩
    | cons c p =>
      simp only [elementsValid]
      constructor
      · intro valid
        split at valid
        · simp at valid
        · rename_i t found
          obtain ⟨e, x, whole, rfl, single⟩ := elementLength_iff.mp found
          have positive := length_pos_iff.mpr single.ne_nil
          have size := congrArg length whole
          rw [whole, drop_left] at valid
          obtain ⟨es, rfl, others⟩ := (ih (by simp at size enough ⊢; omega)).mp valid
          exact ⟨e :: es, by simpa using whole, forall_mem_cons.mpr ⟨single, others⟩⟩
      · rintro ⟨es, whole, singles⟩
        cases es with
        | nil => simp at whole
        | cons e es =>
          obtain ⟨single, others⟩ := forall_mem_cons.mp singles
          have positive := length_pos_iff.mpr single.ne_nil
          have size := congrArg length whole
          rw [whole, flatten_cons, elementLength_of_single single id]
          simp only [drop_left]
          exact (ih (by simp at size enough ⊢; omega)).mpr ⟨es, rfl, others⟩

theorem elements_iff : Elements allow s ↔ ∃ es : List CString, s = es.flatten ∧ ∀ e ∈ es, Single allow 0 0 e :=
  elementsValid_iff le_rfl

theorem elements_of_single (single : Single allow 0 0 s) : Elements allow s :=
  elements_iff.mpr ⟨[s], by simp, by simpa using single⟩

theorem signatureIsValid_iff : signatureIsValid s allow = true ↔ Elements allow s ∧ s.length ≤ 255 := by
  simp [signatureIsValid, Elements]

theorem exists_of_pair (pair : signatureIsPair s = true) :
    ∃ key value, s = key :: value ∧ busTypeIsBasic key = true ∧ Single false 0 0 value := by
  cases s with
  | nil => simp [signatureIsPair] at pair
  | cons key value =>
    simp only [signatureIsPair, Bool.and_eq_true, signatureIsSingle_iff] at pair
    exact ⟨key, value, rfl, pair⟩

theorem elements_of_pair (pair : signatureIsPair s = true) : Elements false s := by
  obtain ⟨key, value, rfl, isBasic, single⟩ := exists_of_pair pair
  exact elements_iff.mpr ⟨[[key], value], by simp, by simpa using ⟨.basic isBasic, single⟩⟩

/-- Text up to a bracket is made of elements in one way. -/
theorem elements_unique (isClose : close = structEnd ∨ close = dictEntryEnd) (elements : Elements allow s)
    (singles : ∀ e ∈ es, Single allow' arrayDepth structDepth e) (same : s ++ close :: x = es.flatten ++ close :: y) :
    s = es.flatten := by
  obtain ⟨es', rfl, singles'⟩ := elements_iff.mp elements
  have lengths {fs : List CString} {z : CString} {allow : Bool} {arrayDepth structDepth : Nat}
      (singles : ∀ e ∈ fs, Single allow arrayDepth structDepth e) :
      fieldLengths (elementLength 65 true 0 0) close (fs.flatten ++ close :: z).length (fs.flatten ++ close :: z) =
        some (fs.map length) :=
    fieldLengths_flatten (fun e member => ⟨(singles e member).head_ne isClose,
      elementLength_of_single (singles e member) (by simp)⟩) (by have := Single.length_le singles; simp [length_flatten]; omega)
  have equal : es'.map length = es.map length := Option.some.inj ((lengths singles').symm.trans (same ▸ lengths singles))
  exact (append_inj same (by rw [length_flatten, length_flatten, equal])).1

/-! ## Containers -/

/-- The check of the contents when a container is opened or entered. -/
def ContainerType.accepts (contents : CString) : ContainerType → Bool
  | array => signatureIsSingle contents true
  | variant => signatureIsSingle contents false && contents.head? ≠ some dictEntryBegin
  | struct => signatureIsValid contents false
  | dictEntry => signatureIsPair contents

/-- The element found where a container's signature starts is that signature. -/
theorem container_elementLength {kind : ContainerType} (accepted : kind.accepts contents = true)
    (found : elementLength 65 allow arrayDepth structDepth (kind.signature contents ++ x) = some t) :
    t = (kind.signature contents).length := by
  obtain ⟨e, y, whole, rfl, single⟩ := elementLength_sound found
  obtain ⟨c, r, rfl, -⟩ := single.exists_cons
  cases kind with
  | array =>
    obtain ⟨rfl, rest⟩ := cons.inj whole
    cases single with
    | basic isBasic => exact absurd isBasic (by decide)
    | array shallow inner =>
      have outer := elementLength_of_single (signatureIsSingle_iff.mp accepted) id x
      have same := elementLength_of_single inner id y
      rw [append_eq, append_eq] at rest
      rw [rest, same] at outer
      simpa [ContainerType.signature] using outer
  | variant =>
    obtain ⟨rfl, rest⟩ := cons.inj whole
    cases single with
    | basic isBasic => rfl
    | variant => rfl
  | struct =>
    obtain ⟨rfl, rest⟩ := cons.inj whole
    cases single with
    | basic isBasic => exact absurd isBasic (by decide)
    | struct shallow some_field fields =>
      have := elements_unique (.inl rfl) (signatureIsValid_iff.mp accepted).1 fields (by simpa using rest)
      simp [ContainerType.signature, this]
  | dictEntry =>
    obtain ⟨rfl, rest⟩ := cons.inj whole
    cases single with
    | basic isBasic => exact absurd isBasic (by decide)
    | @dictEntry _ _ key e shallow isBasic value =>
      have singles : ∀ x ∈ [[key], e], Single false arrayDepth (structDepth + 1) x := by
        simpa using ⟨.basic isBasic, value⟩
      have := elements_unique (.inr rfl) (elements_of_pair accepted) singles (by simpa using rest)
      simp [ContainerType.signature, this]

/-- The contents of an array have an alignment. -/
theorem alignment_of_accepts (accepted : ContainerType.array.accepts contents = true) :
    contents.head?.bind busTypeGetAlignment ≠ none := by
  cases signatureIsSingle_iff.mp accepted with
  | basic isBasic =>
    obtain ⟨t, found⟩ := isSome_iff_exists.mp isBasic
    simp [busTypeGetAlignment, found]
  | variant | array | struct | dictEntry => simp; decide

/-! ## What is accepted -/

/-- Signatures are concatenations of single complete types of at most 255 characters, and the length that is
found is that of the one such type at the beginning; dict entries are among them where they are allowed. -/
theorem signature_grammar (s : CString) :
    (∀ allow, signatureIsValid s allow = true ↔
      s.length ≤ 255 ∧ ∃ es : List CString, s = es.flatten ∧ ∀ e ∈ es, Single allow 0 0 e) ∧
    (∀ t, signatureElementLength s = some t ↔ ∃ e, e <+: s ∧ e.length = t ∧ Single true 0 0 e) ∧
    ∀ e e', e <+: s → e' <+: s → Single true 0 0 e → Single true 0 0 e' → e = e' := by
  refine ⟨fun allow => ?_, fun t => ?_, ?_⟩
  · rw [signatureIsValid_iff, elements_iff, and_comm]
  · rw [signatureElementLength, elementLength_iff]
    constructor
    · rintro ⟨e, x, rfl, rfl, single⟩
      exact ⟨e, prefix_append e x, rfl, single⟩
    · rintro ⟨e, ⟨x, rfl⟩, rfl, single⟩
      exact ⟨e, x, rfl, rfl, single⟩
  · rintro e e' ⟨x, rfl⟩ ⟨x', same⟩ single single'
    have found := elementLength_of_single single id x
    have found' := elementLength_of_single single' id x'
    rw [same, found] at found'
    exact (append_inj same (Option.some.inj found').symm).1.symm

/-- A dict entry that is not in an array is accepted where it is allowed. -/
theorem signature_dictEntry :
    signatureIsValid (cstr "\x7bsv\x7d") true = true ∧ signatureElementLength (cstr "\x7bsv\x7d") = some 4 ∧
      ¬ ∃ es : List CString, cstr "\x7bsv\x7d" = es.flatten ∧ ∀ e ∈ es, Single false 0 0 e := by
  refine ⟨by decide +kernel, by decide +kernel, fun elements => ?_⟩
  exact absurd (elements_iff.mpr elements) (by unfold Elements; decide +kernel)

end SystemdPort.Bus
