/-
# Bus.Skip — skipping is reading

`sd_bus_message_skip()` walks over the signature of an element where reading walks over
its values.  For an element that is next in a message, both end at the same place
(`skip_value`, `read_value`).

Two things are special.  Without given types the element is found by
`signature_element_length()`, which refuses types nested deeper than 32 and structs
without fields, while entering a container does not.  And the loop over an array finds
its end by trying to enter one more element, which fails if 128 containers are open.
-/
import SystemdPort.Bus.ReadBack

namespace SystemdPort.Bus

open Basic Lib Lib.Exec List

set_option autoImplicit false

variable {contents : CString} {type : ContainerType} {elems : List Value} {m' m₁ m₂ : Message}

variable {env : Env}

/-! ## Where skipping can work -/

mutual

/-- No array of containers, variants apart, is itself the last container that may be open. -/
def Value.Skippable (depth : Nat) : Value → Prop
  | .basic _ _ => True
  | .container type contents elems =>
    (type = .array → depth + 1 < 128 ∨ contents = [variantCode] ∨ contents.head?.any busTypeIsBasic = true) ∧
      AllSkippable (depth + 1) elems

def AllSkippable (depth : Nat) : List Value → Prop
  | [] => True
  | v :: vs => v.Skippable depth ∧ AllSkippable depth vs

end

variable {enclosing : Option ContainerType} {v : Value} {allow : Bool} {x : CString}

/-- The signature of a value is one element, where it starts an element. -/
theorem Value.elementLength_eq {t : Nat} (sound : v.Sound enclosing)
    (found : elementLength 65 allow 0 0 (v.signature ++ x) = some t) : t = v.signature.length := by
  cases v with
  | basic v n =>
    have one : elementLength 65 allow 0 0 ([v.type.code] ++ x) = some 1 :=
      elementLength_iff.mpr ⟨_, x, rfl, rfl, .basic (busTypeIsBasic_code _)⟩
    exact Option.some.inj (found.symm.trans one)
  | container type contents elems => exact container_elementLength sound.1 found

/-- Where elements start with the signature of a value, it is one of them. -/
theorem elements_append (sound : v.Sound enclosing) (elements : Elements allow (v.signature ++ x)) :
    Single true 0 0 v.signature ∧ Elements allow x := by
  obtain ⟨es, whole, singles⟩ := elements_iff.mp elements
  cases es with
  | nil => exact absurd (append_eq_nil_iff.mp whole).1 v.signature_ne_nil
  | cons e es =>
    obtain ⟨single, others⟩ := forall_mem_cons.mp singles
    rw [flatten_cons] at whole
    have length := v.elementLength_eq sound (whole ▸ elementLength_of_single single id es.flatten)
    obtain ⟨rfl, rfl⟩ := append_inj whole length.symm
    exact ⟨single.mono (fun _ => rfl) le_rfl le_rfl, elements_iff.mpr ⟨es, rfl, others⟩⟩

/-! ## Reading whole values -/

section Values

variable {bytes : List UInt8} {block : Nat} {m : Message} {todo : List Value} {todos : List (List Value)}

theorem readAll_append {xs ys : List Call} {rs ss : List Reply} (first : readAll env xs m = .ok rs m₁)
    (second : readAll env ys m₁ = .ok ss m₂) : readAll env (xs ++ ys) m = .ok (rs ++ ss) m₂ := by
  induction xs generalizing m rs with
  | nil =>
    cases first
    exact second
  | cons call xs ih =>
    obtain ⟨r, m', one, rest⟩ := bind_eq_ok.mp first
    obtain ⟨rs', m'', others, last⟩ := bind_eq_ok.mp rest
    cases last
    exact readAll_cons one (ih others)

/-- The reader has moved past some values of a container. -/
structure PassedAll (vs : List Value) (m m' : Message) : Prop where
  rindex : m'.rindex = m.rindex + (encodeAll m.rindex vs).length
  below : m'.stack.tail = m.stack.tail

theorem PassedAll.cons {v : Value} {vs : List Value} (first : Passed bytes block v m m₁) (others : PassedAll vs m₁ m₂) :
    PassedAll (v :: vs) m m₂ := by
  refine ⟨?_, ?_⟩
  · rw [others.rindex, first.rindex, encodeAll, length_append, Nat.add_assoc]
  · rw [others.below, first.stack, tail_cons]

variable {m₃ : Message} {n : Nat} {rest : CString} {c : Container}

/-- Entering a container, passing what is in it and leaving it is passing it. -/
theorem Passed.container (entered : m₁.rindex = m.rindex + (type.opening contents m.rindex).length)
    (stack : m₁.stack.tail = m.lastContainer.past (.container type contents elems) :: m.stack.tail)
    (inside : PassedAll elems m₁ m₂) (left : m₃.rindex = m₂.rindex) (below : m₃.stack = m₂.stack.tail)
    (after : Reading bytes block m₃ todos) : Passed bytes block (.container type contents elems) m m₃ := by
  refine ⟨after.readable, ?_, ?_⟩
  · rw [left, inside.rindex, entered, encode_container, length_append, Opening.length_bytes, Nat.add_assoc]
  · rw [below, inside.below, stack]

mutual

theorem read_value (memory : ∀ k, (env.alloc k).isSome = true) : (v : Value) → ∀ {m : Message} {todo : List Value}
    {todos : List (List Value)}, Reading bytes block m ((v :: todo) :: todos) →
    ∃ m', readAll env v.calls m = .ok (v.calls.map Call.reply) m' ∧ Passed bytes block v m m'
  | .basic v n, m, todo, todos, reading => by
    obtain ⟨m', reads, passed⟩ := readBasic_ok reading
    exact ⟨m', readAll_cons (bind_of_ok reads) rfl, passed⟩
  | .container type contents elems, m, todo, todos, reading => by
    obtain ⟨m₁, enters, entered, stack, inside⟩ := enterContainer_ok memory reading
    rw [← append_nil elems] at inside
    obtain ⟨m₂, reads, passed, atEnd⟩ := read_values memory elems inside
    obtain ⟨m₃, exits, left, below, after⟩ := exitContainer_ok atEnd
    refine ⟨m₃, ?_, .container entered (by rw [stack]; rfl) passed left below after⟩
    have last : readAll env [.closeContainer] m₂ = .ok [.exited] m₃ := readAll_cons (bind_of_ok exits) rfl
    rw [Value.calls]
    have first : (Call.openContainer type contents).read env m = .ok (.entered true) m₁ := bind_of_ok enters
    have all := readAll_cons first (readAll_append reads last)
    rwa [map_cons, map_append]

theorem read_values (memory : ∀ k, (env.alloc k).isSome = true) : (vs : List Value) → ∀ {m : Message}
    {todo : List Value} {todos : List (List Value)}, Reading bytes block m ((vs ++ todo) :: todos) →
    ∃ m', readAll env (callsOf vs) m = .ok ((callsOf vs).map Call.reply) m' ∧ PassedAll vs m m' ∧
      Reading bytes block m' (todo :: todos)
  | [], m, todo, todos, reading => ⟨m, rfl, ⟨by simp [encodeAll], rfl⟩, reading⟩
  | v :: vs, m, todo, todos, reading => by
    obtain ⟨m₁, first, passed⟩ := read_value memory v reading
    obtain ⟨m₂, others, passedAll, final⟩ := read_values memory vs (reading.past passed)
    refine ⟨m₂, ?_, passedAll.cons passed, final⟩
    rw [callsOf, map_append]
    exact readAll_append first others

end

/-! ## The end of an array -/

/-- What skipping leaves alone at the end of an array: all but the count of allocations. -/
def OnlyAllocs (m m' : Message) : Prop := ∃ n, m' = { m with nAllocs := n }

theorem OnlyAllocs.reading {m : Message} (only : OnlyAllocs m m') (reading : Reading bytes block m todos) :
    Reading bytes block m' todos := by
  obtain ⟨n, rfl⟩ := only
  exact ⟨{ reading.readable with }, reading.pending⟩

section

variable (memory : ∀ k, (env.alloc k).isSome = true) (reading : Reading bytes block m ([] :: todos)) (isArray : m.lastContainer.enclosing = some .array)

include memory reading isArray

theorem enterContainer_atEnd (room : m.containers.length < 128) :
    ∃ m', enterContainer env type.code (some contents) m = .ok false m' ∧ OnlyAllocs m m' := by
  obtain ⟨a, allocates⟩ := allocate_of memory id m
  have later : OnlyAllocs m { m with nAllocs := m.nAllocs + 1 } := ⟨_, rfl⟩
  have atEnd := endOfArray_ok (later.reading reading)
  refine ⟨_, ?_, later⟩
  simp only [enterContainer, get_bind]
  rw [check_bind_of reading.readable.isSealed, check_bind_of (.inl type.code_ne_zero),
    if_neg (by simp [type.code_ne_zero])]
  simp only [enterKnown, get_bind]
  rw [check_bind_of room, bind_of_ok allocates,
    check_bind_of (by rw [endOfSignature_eq reading]; simp [isArray]), bind_of_ok atEnd]
  rw [decide_eq_true ⟨isArray, rfl⟩]
  rfl

theorem skipContainer_atEnd (room : m.containers.length < 128) :
    ∃ m', (∀ skip, skipContainer env type contents skip m = .ok false m') ∧ OnlyAllocs m m' := by
  obtain ⟨m', enters, only⟩ := enterContainer_atEnd memory reading isArray room
  refine ⟨m', fun skip => ?_, only⟩
  unfold skipContainer
  rw [bind_of_ok enters]
  rfl

/-- At the end of an array there is nothing to skip. -/
theorem skipTypes_atEnd (same : m.lastContainer.signature = contents)
    (room : m.containers.length < 128 ∨ contents = [variantCode] ∨ contents.head?.any busTypeIsBasic = true) :
    ∃ m', (∀ n, skipTypes env (n + 1) contents m = .ok false m') ∧ OnlyAllocs m m' := by
  have accepted : ContainerType.array.accepts contents = true := by
    have expects := reading.awaits.1.expects
    rw [if_pos isArray, same] at expects
    exact expects.2.1
  have single : Single true 0 0 contents := signatureIsSingle_iff.mp accepted
  have whole : signatureElementLength contents = some contents.length := by
    simpa [signatureElementLength] using elementLength_of_single single id []
  have atEnd := endOfArray_ok reading
  rw [decide_eq_true ⟨isArray, rfl⟩] at atEnd
  have more : m.endOfSignature = false := by
    rw [endOfSignature_eq reading]
    simp [isArray]
  have deep : ∀ {code : UInt8} {rest : CString}, contents = code :: rest → busTypeIsBasic code = false →
      code ≠ variantCode → m.containers.length < 128 := by
    rintro code rest rfl notBasic notVariant
    rcases room with room | isVariant | isBasic
    · exact room
    · exact absurd (List.cons.inj isVariant).1 notVariant
    · simp [notBasic] at isBasic
  have bracket {code : UInt8} {s : CString} (isCode : code = structBegin ∨ code = dictEntryBegin)
      (same : contents = code :: s) (long : 2 ≤ contents.length) : ∃ code rest m', contents = code :: rest ∧
      OnlyAllocs m m' ∧
      ∃ remaining, ∀ n, skipElement env n (skipTypes env n) code rest m = .ok (false, remaining) m' := by
    obtain ⟨notBasic, notArray, notVariant⟩ : basicTypeOf code = none ∧ code ≠ arrayCode ∧ code ≠ variantCode := by
      rcases isCode with rfl | rfl <;> decide
    have room := deep same (by simp [busTypeIsBasic, notBasic]) notVariant
    obtain ⟨m', skips, only⟩ := skipContainer_atEnd memory reading isArray room
    refine ⟨code, s, m', same, only, s.drop (contents.length - 1), fun n => ?_⟩
    simp only [skipElement, notBasic]
    rw [if_neg notArray, if_neg notVariant, if_pos isCode, ← same]
    simp only [whole]
    rw [check_bind_of long]
    exact bind_of_ok (skips _)
  -- one case for each kind of element
  have first : ∃ code rest m', contents = code :: rest ∧ OnlyAllocs m m' ∧
      ∃ remaining, ∀ n, skipElement env n (skipTypes env n) code rest m = .ok (false, remaining) m' := by
    cases single with
    | @basic _ _ _ c isBasic =>
      obtain ⟨t, found⟩ := Option.isSome_iff_exists.mp isBasic
      have reads : readBasic t m = .ok none m := by
        simp only [readBasic, get_bind]
        rw [check_bind_of reading.readable.isSealed, check_bind_of more, bind_of_ok atEnd]
        rfl
      refine ⟨c, [], m, rfl, ⟨_, rfl⟩, [], fun n => ?_⟩
      simp only [skipElement, found]
      exact bind_of_ok reads
    | variant =>
      have peeks : peekType env m = .ok none m := by
        simp only [peekType, get_bind]
        rw [check_bind_of reading.readable.isSealed, more, if_neg (by simp), bind_of_ok atEnd]
        rfl
      have noBasic : basicTypeOf variantCode = none := rfl
      refine ⟨variantCode, [], m, rfl, ⟨_, rfl⟩, [], fun n => ?_⟩
      simp only [skipElement, noBasic]
      rw [if_neg (by decide), if_pos trivial, bind_of_ok peeks]
      rfl
    | @array _ _ _ e shallow inner =>
      have room := deep rfl (by decide) (by decide)
      have found := elementLength_of_single inner id []
      rw [append_nil] at found
      have noBasic : basicTypeOf arrayCode = none := rfl
      obtain ⟨m', skips, only⟩ := skipContainer_atEnd memory reading isArray room
      refine ⟨arrayCode, e, m', rfl, only, e.drop e.length, fun n => ?_⟩
      simp only [skipElement]
      simp only [signatureElementLength, found]
      exact bind_of_ok (skips _)
    | struct => exact bracket (.inl rfl) rfl (by simp)
    | dictEntry => exact bracket (.inr rfl) rfl (by simp)
  obtain ⟨code, rest, m', rfl, only, remaining, skips⟩ := first
  refine ⟨m', fun n => ?_, only⟩
  unfold skipTypes
  rw [bind_of_ok (skips n)]
  rfl

end

/-! ## Skipping a value -/

theorem skipTypes_of_element {code : UInt8} {remaining : CString}
    (skips : skipElement env n (skipTypes env n) code rest m = .ok (true, remaining) m') :
    skipTypes env (n + 1) (code :: rest) m = (skipTypes env n remaining >>= fun _ => pure true) m' := by
  rw [skipTypes, bind_of_ok skips]
  rfl

theorem skipContainer_ok {skip : BusM PUnit} (enters : enterContainer env type.code (some contents) m = .ok true m₁)
    (inside : skip m₁ = .ok ⟨⟩ m₂) (exits : exitContainer m₂ = .ok ⟨⟩ m₃) :
    skipContainer env type contents skip m = .ok true m₃ := by
  unfold skipContainer
  rw [bind_of_ok enters]
  exact (bind_of_ok inside).trans (bind_of_ok exits)

theorem Reading.looked (reading : Reading bytes block m todos) : Reading bytes block m.looked todos :=
  ⟨reading.readable.looked, reading.pending⟩

theorem peekType_variant (reading : Reading bytes block m ((.container .variant contents elems :: todo) :: todos)) :
    peekType env m = .ok (some (ContainerType.variant.code, some contents)) m.looked := by
  obtain ⟨awaits, -⟩ := reading.awaits
  obtain ⟨rest, next⟩ := awaits.next
  have there := awaits.there
  obtain ⟨nulFree, text⟩ := peekText_variant reading.readable there.left awaits.sound.1.1 awaits.within.1
  simp only [peekType, get_bind]
  rw [check_bind_of reading.readable.isSealed, endOfSignature_eq reading, if_neg (by simp),
    bind_of_ok (endOfArray_ok reading)]
  simp only [reduceCtorEq, and_false, decide_false, if_false]
  rw [← next]
  show (if busTypeIsBasic variantCode = true then _ else _ : BusM _) m = _
  rw [if_neg (by decide), if_neg (by decide), if_neg (by decide), if_pos rfl, bind_of_ok text]
  rfl

/-- The types of the element behind its first character, for a struct or a dict entry. -/
theorem skipElement_struct (isStruct : type = .struct ∨ type = .dictEntry)
    (single : Single true 0 0 (type.signature contents))
    (skips : skipContainer env type contents (do let _ ← skipTypes env n contents) m = .ok true m') :
    skipTypes env (n + 1) (type.signature contents ++ rest) m =
      (skipTypes env n rest >>= fun _ => pure true) m' := by
  obtain ⟨code, close, signature, kind, notBasic, others, isCode⟩ : ∃ code close,
      type.signature contents = code :: (contents ++ [close]) ∧
      type = (if code = structBegin then ContainerType.struct else .dictEntry) ∧
      basicTypeOf code = none ∧ (code ≠ arrayCode ∧ code ≠ variantCode) ∧
      (code = structBegin ∨ code = dictEntryBegin) := by
    rcases isStruct with rfl | rfl
    · exact ⟨structBegin, structEnd, rfl, rfl, rfl, by decide, by decide⟩
    · exact ⟨dictEntryBegin, dictEntryEnd, rfl, rfl, rfl, by decide, by decide⟩
  have found := elementLength_of_single single id rest
  have length : (code :: (contents ++ [close])).length = contents.length + 2 := by simp
  rw [signature] at found ⊢
  rw [length] at found
  simp only [cons_append, append_assoc, nil_append] at found ⊢
  refine skipTypes_of_element ?_
  simp only [skipElement, notBasic]
  rw [if_neg others.1, if_neg others.2, if_pos isCode]
  simp only [signatureElementLength, found]
  rw [check_bind_of (by omega), Nat.add_sub_cancel, take_left, ← kind, bind_of_ok skips]
  have behind : (contents ++ close :: rest).drop (contents.length + 2 - 1) = rest := by
    rw [← singleton_append, ← append_assoc, drop_left' (by simp)]
  rw [behind]
  rfl

theorem lastContainer_of_stack {cs : List Container} (stack : m.stack = c :: cs) : m.lastContainer = c := by
  rw [m.stack_eq] at stack
  exact (List.cons.inj stack).1

theorem depth_of_stack {d : Container} (stack : m'.stack = c :: d :: m.stack.tail) :
    m'.containers.length = m.containers.length + 1 := by
  rw [← length_stack_tail, ← length_stack_tail, stack]
  rfl

theorem Passed.depth {v : Value} (passed : Passed bytes block v m m') :
    m'.containers.length = m.containers.length := by
  rw [← length_stack_tail, ← length_stack_tail, passed.stack]
  rfl

mutual

theorem skip_value (memory : ∀ k, (env.alloc k).isSome = true) : (v : Value) → ∀ {m : Message} {todo : List Value}
    {todos : List (List Value)}, Reading bytes block m ((v :: todo) :: todos) →
    Single true 0 0 v.signature → v.Skippable m.containers.length →
    ∃ bound m', Passed bytes block v m m' ∧ ∀ n, bound ≤ n → ∀ rest,
      skipTypes env (n + 1) (v.signature ++ rest) m = (skipTypes env n rest >>= fun _ => pure true) m'
  | .basic v k, m, todo, todos, reading, _, _ => by
    obtain ⟨m', reads, passed⟩ := readBasic_ok reading
    refine ⟨0, m', passed, fun n _ rest => skipTypes_of_element ?_⟩
    simp only [skipElement, basicTypeOf_code]
    exact bind_of_ok reads
  | .container .array contents elems, m, todo, todos, reading, _, skippable => by
    obtain ⟨m₁, enters, entered, stack, inside⟩ := enterContainer_ok memory reading
    have last := lastContainer_of_stack stack
    have deeper := depth_of_stack stack
    obtain ⟨bound, m₂, passed, atEnd, skips⟩ := skip_elems memory elems inside (by rw [last]; rfl)
      (show m₁.lastContainer.signature = contents by rw [last]; rfl) (deeper ▸ skippable.1 rfl)
      (deeper ▸ skippable.2)
    obtain ⟨m₃, exits, left, below, after⟩ := exitContainer_ok atEnd
    refine ⟨bound, m₃, .container entered (by rw [stack]; rfl) passed left below after,
      fun n enough rest => skipTypes_of_element ?_⟩
    have accepted := reading.awaits.1.sound.1.1
    have found : signatureElementLength (contents ++ rest) = some contents.length :=
      elementLength_of_single (signatureIsSingle_iff.mp accepted) id rest
    have noBasic : basicTypeOf arrayCode = none := rfl
    have whole := skipContainer_ok enters (skips n enough n enough) exits
    simp only [skipElement, append_eq]
    simp only [found, take_left, drop_left]
    exact bind_of_ok whole
  | .container .variant contents elems, m, todo, todos, reading, _, skippable => by
    have peeks : peekType env m = _ := peekType_variant reading
    obtain ⟨m₁, enters, entered, stack, inside⟩ := enterContainer_ok memory reading.looked
    obtain ⟨accepted, -, suits, -⟩ := reading.awaits.1.sound.1
    obtain ⟨contentsEq, allow, elements⟩ := elements_of_suits accepted (by simp) suits
    rw [← append_nil elems] at inside
    obtain ⟨bound, m₂, passed, atEnd, skips⟩ := skip_values memory elems inside elements
      ((depth_of_stack (m := m.looked) stack) ▸ skippable.2)
    obtain ⟨m₃, exits, left, below, after⟩ := exitContainer_ok atEnd
    have some_elems : elems ≠ [] := by
      rintro rfl
      rw [← contentsEq] at accepted
      exact absurd accepted (by decide)
    refine ⟨bound, m₃, .container entered (by rw [stack]; rfl) passed left below after,
      fun n enough rest => skipTypes_of_element ?_⟩
    have skipped := skips n enough
    rw [contentsEq, decide_eq_true some_elems] at skipped
    have noBasic : basicTypeOf variantCode = none := rfl
    simp only [skipElement, noBasic]
    rw [if_neg (by decide), if_pos trivial, bind_of_ok peeks]
    dsimp only
    have whole : skipContainer env .variant contents (do
        if ← skipTypes env n contents then pure ⟨⟩ else fault) m.looked = .ok true m₃ :=
      skipContainer_ok enters (bind_of_ok skipped) exits
    exact bind_of_ok whole
  | .container .struct contents elems, m, todo, todos, reading, single, skippable
  | .container .dictEntry contents elems, m, todo, todos, reading, single, skippable => by
    obtain ⟨m₁, enters, entered, stack, inside⟩ := enterContainer_ok memory reading
    obtain ⟨accepted, -, suits, -⟩ := reading.awaits.1.sound.1
    obtain ⟨contentsEq, allow, elements⟩ := elements_of_suits accepted (by simp) suits
    rw [← append_nil elems] at inside
    obtain ⟨bound, m₂, passed, atEnd, skips⟩ := skip_values memory elems inside elements
      (depth_of_stack stack ▸ skippable.2)
    obtain ⟨m₃, exits, left, below, after⟩ := exitContainer_ok atEnd
    refine ⟨bound, m₃, .container entered (by rw [stack]; rfl) passed left below after, fun n enough rest => ?_⟩
    have skipped := skips n enough
    rw [contentsEq] at skipped
    exact skipElement_struct (by decide) (by exact single) (skipContainer_ok enters (bind_of_ok skipped) exits)

theorem skip_values (memory : ∀ k, (env.alloc k).isSome = true) : (vs : List Value) → ∀ {m : Message}
    {todo : List Value} {todos : List (List Value)} {allow : Bool},
    Reading bytes block m ((vs ++ todo) :: todos) → Elements allow (signatures vs) →
    AllSkippable m.containers.length vs → ∃ bound m', PassedAll vs m m' ∧ Reading bytes block m' (todo :: todos) ∧
      ∀ n, bound ≤ n → skipTypes env n (signatures vs) m = .ok (decide (vs ≠ [])) m'
  | [], m, todo, todos, _, reading, _, _ => by
    refine ⟨1, m, ⟨by simp [encodeAll], rfl⟩, reading, fun n enough => ?_⟩
    obtain ⟨n, rfl⟩ : ∃ k, n = k + 1 := ⟨n - 1, by omega⟩
    rfl
  | v :: vs, m, todo, todos, allow, reading, elements, skippable => by
    rw [signatures_cons] at elements ⊢
    obtain ⟨single, others⟩ := elements_append (reading.awaits.1.sound.1) elements
    obtain ⟨bound₁, m₁, passed, skips⟩ := skip_value memory v reading single skippable.1
    obtain ⟨bound₂, m₂, passedAll, final, skipsAll⟩ := skip_values memory vs (reading.past passed) others
      (passed.depth ▸ skippable.2)
    refine ⟨bound₁ + bound₂ + 1, m₂, passedAll.cons passed, final, fun n enough => ?_⟩
    obtain ⟨n, rfl⟩ : ∃ k, n = k + 1 := ⟨n - 1, by omega⟩
    rw [skips n (by omega), bind_of_ok (skipsAll n (by omega))]
    rfl

theorem skip_elems (memory : ∀ k, (env.alloc k).isSome = true) : (vs : List Value) → ∀ {m : Message}
    {todos : List (List Value)} {contents : CString}, Reading bytes block m (vs :: todos) →
    m.lastContainer.enclosing = some .array → m.lastContainer.signature = contents →
    (m.containers.length < 128 ∨ contents = [variantCode] ∨ contents.head?.any busTypeIsBasic = true) →
    AllSkippable m.containers.length vs → ∃ bound m', PassedAll vs m m' ∧ Reading bytes block m' ([] :: todos) ∧
      ∀ n, bound ≤ n → ∀ k, bound ≤ k → skipArray (skipTypes env n contents) k m = .ok ⟨⟩ m'
  | [], m, todos, contents, reading, isArray, same, room, _ => by
    obtain ⟨m', skips, only⟩ := skipTypes_atEnd memory reading isArray same room
    have passed : PassedAll [] m m' := by
      obtain ⟨count, rfl⟩ := only
      exact ⟨by simp [encodeAll], rfl⟩
    refine ⟨1, m', passed, only.reading reading, fun n enough k enough' => ?_⟩
    obtain ⟨n, rfl⟩ : ∃ j, n = j + 1 := ⟨n - 1, by omega⟩
    obtain ⟨k, rfl⟩ : ∃ j, k = j + 1 := ⟨k - 1, by omega⟩
    rw [skipArray, bind_of_ok (skips n)]
    rfl
  | v :: vs, m, todos, contents, reading, isArray, same, room, skippable => by
    have expects := reading.awaits.1.expects
    rw [if_pos isArray, same] at expects
    obtain ⟨-, accepted, all⟩ := expects
    have isContents : v.signature = contents := all v (by simp)
    have single : Single true 0 0 v.signature := by
      rw [isContents]
      exact signatureIsSingle_iff.mp accepted
    obtain ⟨bound₁, m₁, passed, skips⟩ := skip_value memory v reading single skippable.1
    have last : m₁.lastContainer = m.lastContainer.past v := lastContainer_of_stack passed.stack
    have keeps : (m.lastContainer.past v).enclosing = m.lastContainer.enclosing ∧
        (m.lastContainer.past v).signature = m.lastContainer.signature := by
      obtain ⟨savedIndex, past⟩ := m.lastContainer.past_eq v
      rw [past]
      unfold Container.moveTo
      split <;> exact ⟨rfl, rfl⟩
    obtain ⟨bound₂, m₂, passedAll, final, skipsAll⟩ := skip_elems memory vs (reading.past passed)
      (by rw [last, keeps.1, isArray]) (show m₁.lastContainer.signature = contents by rw [last, keeps.2, same])
      (passed.depth ▸ room) (passed.depth ▸ skippable.2)
    refine ⟨bound₁ + bound₂ + 2, m₂, passedAll.cons passed, final, fun n enough k enough' => ?_⟩
    obtain ⟨n, rfl⟩ : ∃ j, n = j + 2 := ⟨n - 2, by omega⟩
    obtain ⟨k, rfl⟩ : ∃ j, k = j + 1 := ⟨k - 1, by omega⟩
    have one : skipTypes env (n + 2) contents m = .ok true m₁ := by
      have skipped := skips (n + 1) (by omega) []
      rwa [append_nil, isContents] at skipped
    rw [skipArray, bind_of_ok one]
    exact skipsAll (n + 2) (by omega) k (by omega)

end

end Values

end SystemdPort.Bus
