/-
# Bus.ReadBack — reading what was appended

A reader that makes the calls that match those of the writer is, at each moment, in a
stack of containers with some values of each still to come (`Reading`).  One lemma for
each call says that it gives what is next and moves on (`read_step`); reading a whole
message follows by induction over the calls (`readAll_ok`).

Whether the reader is at the end of the message, or of a container, can be told from
what is still to come (`messageAtEnd_ok`), because no element of an array is empty.
-/
import SystemdPort.Bus.Append
import SystemdPort.Bus.ReadBody

namespace SystemdPort.Bus

open Basic Lib Lib.Exec List

set_option autoImplicit false

variable {env : Env}

/-! ## The calls of a reader -/

inductive Reply where
  | value (v : Option BasicValue)
  | entered (inside : Bool)
  | exited

/-- The call that reads what a call has written. -/
def Call.read (env : Env) : Call → BusM Reply
  | append v => do
      let v ← readBasic v.type
      pure (.value v)
  | openContainer type contents => do
      let inside ← enterContainer env type.code (some contents)
      pure (.entered inside)
  | closeContainer => do
      exitContainer
      pure .exited

/-- What it should give. -/
def Call.reply : Call → Reply
  | append v => .value (some v)
  | openContainer _ _ => .entered true
  | closeContainer => .exited

def readAll (env : Env) : List Call → BusM (List Reply)
  | [] => pure []
  | call :: calls => do
      let reply ← call.read env
      let replies ← readAll env calls
      pure (reply :: replies)

/-! ## Limits -/

mutual

/-- A value at a position, with `depth` containers around it, that keeps to the limits of
the format: at most 128 containers are open, an array has at most 64 MiB, signatures are
shorter than 255 characters, and there are no file descriptors. -/
def Value.Within (pos depth : Nat) : Value → Prop
  | .basic v _ => v.Within
  | .container type contents elems =>
    depth < 128 ∧ (type = .variant → contents.length < 255) ∧
      (type = .array →
        (encodeAll (pos + (type.opening contents pos).length) elems).length ≤ 67108864) ∧
      AllWithin (pos + (type.opening contents pos).length) (depth + 1) elems

def AllWithin (pos depth : Nat) : List Value → Prop
  | [] => True
  | v :: vs => v.Within pos depth ∧ AllWithin (pos + (v.encode pos).length) depth vs

end

/-! ## Elements of arrays are not empty -/

/-- What starts a string of elements is no struct without fields. -/
theorem ne_emptyStruct_of_elements {allow : Bool} {s x : CString} (elements : Elements allow (s ++ x)) :
    s ≠ [structBegin, structEnd] := by
  rintro rfl
  have none_found : elementLength 65 allow 0 0 (structBegin :: structEnd :: x) = none := by cases allow <;> rfl
  obtain ⟨es, whole, singles⟩ := elements_iff.mp elements
  cases es with
  | nil => simp at whole
  | cons e es =>
    have found := elementLength_of_single (singles e (by simp)) id es.flatten
    cases none_found.symm.trans ((congrArg _ whole).trans found)

/-- Signatures that make up something valid are elements. -/
theorem elements_of_suits {type : ContainerType} {contents : CString} {elems : List Value}
    (accepted : type.accepts contents = true) (notArray : type ≠ .array) (suits : type.suits contents (elems.map Value.signature)) :
    signatures elems = contents ∧ ∃ allow, Elements allow (signatures elems) := by
  rw [ContainerType.suits, if_neg notArray] at suits
  refine ⟨suits, ?_⟩
  rw [signatures, suits]
  cases type with
  | array => exact absurd rfl notArray
  | variant =>
    simp only [ContainerType.accepts, Bool.and_eq_true, signatureIsSingle_iff] at accepted
    exact ⟨false, elements_of_single accepted.1⟩
  | struct => exact ⟨false, (signatureIsValid_iff.mp accepted).1⟩
  | dictEntry => exact ⟨false, elements_of_pair accepted⟩

/-- Only a struct without fields has no bytes. -/
theorem Value.encode_ne_nil {enclosing : Option ContainerType} : (v : Value) → (pos : Nat) →
    v.Sound enclosing → v.signature ≠ [structBegin, structEnd] → v.encode pos ≠ []
  | .basic v n, pos, _, _ => by
    rw [Value.encode]
    simp [v.payload_ne_nil n]
  | .container .array contents elems, pos, _, _ | .container .variant contents elems, pos, _, _ => by
    rw [encode_container, ← length_pos_iff]
    simp [ContainerType.opening, Opening.length]
  | .container .struct contents (e :: es), pos, sound, _ | .container .dictEntry contents (e :: es), pos, sound, _ => by
    obtain ⟨accepted, -, suits, inside⟩ := sound
    obtain ⟨-, _, elements⟩ := elements_of_suits accepted (by simp) suits
    have first := fun pos => e.encode_ne_nil pos inside.1 (ne_emptyStruct_of_elements elements)
    rw [encode_container, encodeAll]
    simp [first]

/-! ## What is still to come -/

/-- A container of the reader, with `depth` others around it, from which these values are
still to come. -/
structure Awaits (bytes : List UInt8) (block pos depth : Nat) (c : Container) (todo : List Value) : Prop where
  sound : AllSound c.enclosing todo
  within : AllWithin pos depth todo
  there : At bytes pos (encodeAll pos todo)
  expects : if c.enclosing = some .array then
      c.index = 0 ∧ ContainerType.array.accepts c.signature = true ∧ ∀ v ∈ todo, v.signature = c.signature
    else c.signature.drop c.index = signatures todo
  sized : c.enclosing = some .array → ∃ off size, c.arraySize = some ⟨block, off⟩ ∧
    At bytes off (toLittleEndian 4 size) ∧ size < 2 ^ 32 ∧ c.begin + size = pos + (encodeAll pos todo).length

/-- The same for all containers, the message itself last. -/
def Pending (bytes : List UInt8) (block : Nat) : Nat → List Container → List (List Value) → Prop
  | pos, c :: cs, todo :: todos =>
    Awaits bytes block pos cs.length c todo ∧
      Pending bytes block (pos + (encodeAll pos todo).length) cs todos
  | _, [], [] => True
  | _, _, _ => False

structure Reading (bytes : List UInt8) (block : Nat) (m : Message) (todos : List (List Value)) : Prop where
  readable : Readable m bytes block
  pending : Pending bytes block m.rindex m.stack todos

variable (v : Value)

theorem signatures_cons (vs : List Value) : signatures (v :: vs) = v.signature ++ signatures vs := rfl

theorem Value.signature_ne_nil : v.signature ≠ [] := by
  cases v with
  | basic v n => simp [Value.signature]
  | container type contents elems => cases type <;> simp [Value.signature, ContainerType.signature]

namespace Awaits

variable {bytes : List UInt8} {block pos depth : Nat} {c : Container} {todo : List Value} {v : Value}

theorem next (awaits : Awaits bytes block pos depth c (v :: todo)) : v.signature <+: c.signature.drop c.index := by
  have expects := awaits.expects
  split at expects
  · rw [expects.1, expects.2.2 v (by simp), drop_zero]
  · rw [expects]
    exact ⟨_, (signatures_cons v todo).symm⟩

/-- The end of the signature is the end of what is not an array. -/
theorem endOfSignature (awaits : Awaits bytes block pos depth c todo) :
    c.signature.length ≤ c.index ↔ c.enclosing ≠ some .array ∧ todo = [] := by
  have expects := awaits.expects
  rw [← drop_eq_nil_iff]
  split at expects
  · rename_i isArray
    obtain ⟨index, accepted, -⟩ := expects
    rw [index, drop_zero]
    refine iff_of_false (fun empty => ?_) fun h => h.1 isArray
    rw [empty] at accepted
    exact absurd accepted (by decide)
  · rename_i notArray
    rw [expects]
    cases todo with
    | nil => exact iff_of_true rfl ⟨notArray, rfl⟩
    | cons v todo => simp [signatures_cons, v.signature_ne_nil]

/-- No value of an array is without bytes. -/
theorem endOfArray (awaits : Awaits bytes block pos depth c todo) (isArray : c.enclosing = some .array) :
    (encodeAll pos todo).length = 0 ↔ todo = [] := by
  have expects := awaits.expects
  rw [if_pos isArray] at expects
  obtain ⟨-, accepted, same⟩ := expects
  cases todo with
  | nil => exact iff_of_true rfl rfl
  | cons v todo =>
    refine iff_of_false (fun empty => ?_) (by simp)
    have some_field : v.signature ≠ [structBegin, structEnd] := by
      rw [same v (by simp)]
      rintro isEmpty
      rw [isEmpty] at accepted
      exact absurd accepted (by decide)
    rw [length_eq_zero_iff, encodeAll, append_eq_nil_iff] at empty
    exact v.encode_ne_nil pos awaits.sound.1 some_field empty.1

end Awaits

/-- The container after a value of it was read. -/
def Container.past (v : Value) (c : Container) : Container :=
  match v with
  | .basic _ _ => c.moveTo (c.index + 1)
  | .container type contents _ =>
    { c with savedIndex := c.index }.moveTo (c.index + (type.signature contents).length)

theorem Container.past_eq (c : Container) : ∃ savedIndex,
    c.past v = { c.moveTo (c.index + v.signature.length) with savedIndex } := by
  cases v with
  | basic v n => exact ⟨(c.moveTo (c.index + 1)).savedIndex, rfl⟩
  | container type contents elems =>
    refine ⟨c.index, ?_⟩
    unfold Container.past Container.moveTo
    dsimp only [Value.signature]
    split <;> rfl

theorem Awaits.past {bytes : List UInt8} {block pos depth : Nat} {c : Container} {todo : List Value} {v : Value}
    (awaits : Awaits bytes block pos depth c (v :: todo)) :
    Awaits bytes block (pos + (v.encode pos).length) depth (c.past v) todo := by
  obtain ⟨savedIndex, past⟩ := c.past_eq v
  have keeps : (c.past v).enclosing = c.enclosing ∧ (c.past v).signature = c.signature ∧
      (c.past v).arraySize = c.arraySize ∧ (c.past v).begin = c.begin := by
    rw [past]
    unfold Container.moveTo
    split <;> exact ⟨rfl, rfl, rfl, rfl⟩
  obtain ⟨enclosing, signature, arraySize, begin⟩ := keeps
  refine ⟨enclosing ▸ awaits.sound.2, awaits.within.2, ?_, ?_, fun isArray => ?_⟩
  · have there := awaits.there
    exact there.right
  · have expects := awaits.expects
    rw [enclosing, signature]
    split at expects
    · rename_i isArray
      rw [if_pos isArray]
      refine ⟨?_, expects.2.1, fun w hw => expects.2.2 w (mem_cons_of_mem _ hw)⟩
      rw [past]
      simp [Container.moveTo, isArray, expects.1]
    · rename_i notArray
      rw [if_neg notArray]
      have index : (c.past v).index = c.index + v.signature.length := by
        rw [past]
        simp [Container.moveTo, notArray]
      rw [index, ← drop_drop, expects, signatures_cons, drop_left]
  · obtain ⟨off, size, points, there, small, stop⟩ := awaits.sized (enclosing ▸ isArray)
    refine ⟨off, size, arraySize.trans points, there, small, ?_⟩
    rw [begin, stop, encodeAll, length_append, Nat.add_assoc]

/-! ## Being at the end -/

section Steps

variable {bytes : List UInt8} {block : Nat} {m : Message} {todo : List Value} {todos : List (List Value)}

theorem Reading.awaits (reading : Reading bytes block m (todo :: todos)) :
    Awaits bytes block m.rindex m.stack.tail.length m.lastContainer todo ∧
      Pending bytes block (m.rindex + (encodeAll m.rindex todo).length) m.stack.tail todos := by
  have pending := reading.pending
  rwa [m.stack_eq] at pending

theorem length_stack_tail (m : Message) : m.stack.tail.length = m.containers.length := by
  simp [Message.stack]

theorem arrayLength_ok {c : Container} {off size : Nat} (readable : Readable m bytes block)
    (points : c.arraySize = some ⟨block, off⟩) (there : At bytes off (toLittleEndian 4 size))
    (small : size < 2 ^ 32) : arrayLength c m = .ok size m := by
  have some_bytes : bytes ≠ [] := by
    have bound := there.bound
    rw [length_toLittleEndian] at bound
    rw [← length_pos_iff]
    omega
  have read := deref_ok (readable.held some_bytes) there
  rw [length_toLittleEndian] at read
  unfold arrayLength
  rw [points, bind_of_ok read]
  simp only [get_bind, readable.number, ofLittleEndian_toLittleEndian, pure_apply]
  rw [Nat.mod_eq_of_lt (by omega)]

section

variable (reading : Reading bytes block m (todo :: todos))

include reading

theorem endOfArray_ok :
    Bus.endOfArray m.rindex m = .ok (decide (m.lastContainer.enclosing = some .array ∧ todo = [])) m := by
  have awaits := reading.awaits.1
  simp only [Bus.endOfArray, get_bind]
  by_cases isArray : m.lastContainer.enclosing = some .array
  · obtain ⟨off, size, points, there, small, stop⟩ := awaits.sized isArray
    rw [if_pos isArray, bind_of_ok (arrayLength_ok reading.readable points there small)]
    have atEnd := awaits.endOfArray isArray
    simp only [isArray, stop, ← atEnd]
    simp
  · simp [isArray]

theorem endOfSignature_eq : m.endOfSignature = decide (m.lastContainer.enclosing ≠ some .array ∧ todo = []) := by
  exact decide_eq_decide.mpr reading.awaits.1.endOfSignature

/-- The end of a container is where nothing is to come from it, and the end of the message
where besides no container is open. -/
theorem messageAtEnd_ok (complete : Bool) :
    messageAtEnd complete m = .ok (decide (todo = [] ∧ (complete = true → m.containers = []))) m := by
  simp only [messageAtEnd, get_bind]
  rw [check_bind_of reading.readable.isSealed, endOfSignature_eq reading]
  by_cases outer : complete = true ∧ m.containers ≠ []
  · simp [outer.1, outer.2]
  · rw [if_neg outer]
    have inner : complete = true → m.containers = [] := fun h => by
      by_contra open_
      exact outer ⟨h, open_⟩
    split
    · rename_i ended
      have ended := of_decide_eq_true ended
      exact congrArg (EStateM.Result.ok · m) (decide_eq_true ⟨ended.2, inner⟩).symm
    · rename_i more
      have more := fun h => more (decide_eq_true h)
      rw [endOfArray_ok reading]
      refine congrArg (EStateM.Result.ok · m) (decide_eq_decide.mpr ⟨fun h => ⟨h.2, inner⟩, fun h => ?_⟩)
      exact ⟨by_contra fun notArray => more ⟨notArray, h.1⟩, h.1⟩

end

/-! ## Reading a value -/

/-- The reader has moved past a value. -/
structure Passed (bytes : List UInt8) (block : Nat) (v : Value) (m m' : Message) : Prop where
  readable : Readable m' bytes block
  rindex : m'.rindex = m.rindex + (v.encode m.rindex).length
  stack : m'.stack = m.lastContainer.past v :: m.stack.tail

variable {m' : Message} {type : ContainerType} {calls : List Call} {call : Call}

theorem Reading.past {v : Value} (reading : Reading bytes block m ((v :: todo) :: todos))
    (passed : Passed bytes block v m m') : Reading bytes block m' (todo :: todos) := by
  obtain ⟨awaits, others⟩ := reading.awaits
  refine ⟨passed.readable, ?_⟩
  rw [passed.stack, passed.rindex]
  refine ⟨awaits.past, ?_⟩
  rwa [encodeAll, length_append, ← Nat.add_assoc] at others

theorem Message.rindex_modifyLast (m : Message) (f : Container → Container) : (m.modifyLast f).rindex = m.rindex := by
  unfold Message.modifyLast
  split <;> rfl

theorem Readable.modifyLast (readable : Readable m bytes block) (f : Container → Container) :
    Readable (m.modifyLast f) bytes block := by
  unfold Message.modifyLast
  split <;> exact { readable with }

theorem readBasic_ok {v : BasicValue} {n : Nat} (reading : Reading bytes block m ((.basic v n :: todo) :: todos)) :
    ∃ m', readBasic v.type m = .ok (some v) m' ∧ Passed bytes block (.basic v n) m m' := by
  obtain ⟨awaits, -⟩ := reading.awaits
  have next : m.lastContainer.signature[m.lastContainer.index]? = some v.type.code := by
    obtain ⟨rest, next⟩ := awaits.next
    rw [← head?_drop, ← next]
    rfl
  have there := awaits.there
  have bytesThere := there.left
  have peeked := peekBasic_ok reading.readable awaits.sound.1 awaits.within.1 bytesThere
  have ge := alignTo_ge m.rindex v.type.alignment_pos
  have place : alignTo m.rindex v.type.alignment + (v.payload n).length =
      m.rindex + ((Value.basic v n).encode m.rindex).length := by
    rw [Value.encode, length_append, length_pad]
    omega
  rw [place] at peeked
  set r := m.rindex + ((Value.basic v n).encode m.rindex).length with rEq
  refine ⟨{ m.looked with rindex := r }.modifyLast fun c => c.moveTo (c.index + 1), ?_, ?_⟩
  · simp only [readBasic, get_bind]
    rw [check_bind_of reading.readable.isSealed, check_bind_of (by rw [endOfSignature_eq reading]; simp),
      bind_of_ok (endOfArray_ok reading)]
    simp only [reduceCtorEq, and_false, decide_false, if_false]
    rw [check_bind_of next, bind_of_ok peeked]
    rfl
  · have moved : Readable { m.looked with rindex := r } bytes block := { reading.readable.looked with }
    exact ⟨moved.modifyLast _, Message.rindex_modifyLast _ _, Message.stack_modifyLast _ _⟩

/-! ## Entering a container -/

/-- Where the reader is after the opening of a container. -/
def Message.entered (type : ContainerType) (contents : CString) (m : Message) : Message :=
  m.looked.advance (m.rindex + (type.opening contents m.rindex).length) (type.signature contents).length

theorem Readable.entered (readable : Readable m bytes block) (type : ContainerType) (contents : CString) :
    Readable (m.entered type contents) bytes block := by
  unfold Message.entered Message.advance
  refine Readable.modifyLast ?_ _
  exact { readable.looked with }

/-- Where the size of a container is, if it has one. -/
def sizeAt (block pos : Nat) (type : ContainerType) (contents : CString) : Option Ptr :=
  if (type.opening contents pos).sized then some ⟨block, pos + (type.opening contents pos).pre.length⟩ else none

variable {c : Container} {contents : CString} {elems : List Value} {depth : Nat}

theorem busMessageEnterArray_ok (readable : Readable m bytes block)
    (there : At bytes m.rindex ((Value.container .array contents elems).encode m.rindex))
    (accepted : ContainerType.array.accepts contents = true)
    (within : (Value.container .array contents elems).Within m.rindex depth)
    (next : ContainerType.array.signature contents <+: c.signature.drop c.index) : busMessageEnterArray c contents m =
      .ok (sizeAt block m.rindex .array contents) (m.entered .array contents) := by
  obtain ⟨alignment, aligned⟩ := Option.ne_none_iff_exists'.mp (alignment_of_accepts accepted)
  have some_align : 0 < alignment := by
    obtain ⟨c, -, found⟩ := Option.bind_eq_some_iff.mp aligned
    exact busTypeGetAlignment_pos found
  have four := alignTo_ge m.rindex (by decide : 0 < 4)
  have ge := alignTo_ge (alignTo m.rindex 4 + 4) some_align
  set size := (encodeAll (m.rindex + (ContainerType.array.opening contents m.rindex).length) elems).length
  have few : size ≤ 67108864 := within.2.2.1 rfl
  have opening : (ContainerType.array.opening contents m.rindex).bytes size =
      pad m.rindex 4 ++ toLittleEndian 4 size ++ (pad (alignTo m.rindex 4 + 4) alignment ++ []) := by
    simp [ContainerType.opening, Opening.bytes, elementAlignment, aligned]
  rw [encode_container, opening] at there
  have first := there.left.left
  have second := there.left.right
  rw [length_append, length_pad, length_toLittleEndian] at second
  have place : m.rindex + (alignTo m.rindex 4 - m.rindex + 4) = alignTo m.rindex 4 + 4 := by omega
  rw [place] at second
  obtain ⟨q, peeked, points⟩ := messagePeekBody_ok readable (by decide) first
  obtain ⟨rfl, read⟩ := points (by simp [toLittleEndian])
  obtain ⟨q', peeked', -⟩ := messagePeekBody_ok readable.looked some_align second
  rw [length_toLittleEndian] at peeked read
  have number : m.looked.number (toLittleEndian 4 size) = size := by
    rw [readable.looked.number, ofLittleEndian_toLittleEndian, Nat.mod_eq_of_lt (by omega)]
  unfold busMessageEnterArray
  rw [check_bind_of accepted]
  unfold checkNext
  rw [check_bind_of next]
  simp only [get_bind]
  rw [bind_of_ok peeked]
  rw [bind_of_ok read]
  simp only [get_bind]
  rw [check_bind_of (by rw [number]; exact few)]
  simp only [aligned]
  rw [length_nil] at peeked'
  rw [bind_of_ok peeked']
  have offset : alignTo m.rindex 4 = m.rindex + (pad m.rindex 4).length := by
    rw [length_pad]
    omega
  have stop : alignTo (alignTo m.rindex 4 + 4) alignment =
      m.rindex + (ContainerType.array.opening contents m.rindex).length := by
    simp only [ContainerType.opening, Opening.length, elementAlignment, aligned, Option.getD_some, length_pad,
      if_true]
    omega
  have moved : 1 + contents.length = (ContainerType.array.signature contents).length := Nat.add_comm _ _
  rw [stop, moved, offset]
  rfl

theorem peekText_variant (readable : Readable m bytes block)
    (there : At bytes m.rindex ((Value.container .variant contents elems).encode m.rindex))
    (accepted : ContainerType.variant.accepts contents = true)
    (within : (Value.container .variant contents elems).Within m.rindex depth) :
    ∃ nulFree : 0 ∉ contents, peekText m.rindex 1 (signatureIsValid · true) m =
      .ok (m.rindex + (ContainerType.variant.opening contents m.rindex).length, ⟨contents, nulFree⟩) m.looked := by
  have short : contents.length < 256 ^ 1 - 1 := within.2.1 rfl
  have single : Single false 0 0 contents := by
    simp only [ContainerType.accepts, Bool.and_eq_true, signatureIsSingle_iff] at accepted
    exact accepted.1
  have nulFree : 0 ∉ contents := single.nulFree
  have valid : signatureIsValid contents true = true :=
    signatureIsValid_iff.mpr ⟨elements_of_single (single.mono (fun _ => rfl) le_rfl le_rfl), by omega⟩
  have opening : (ContainerType.variant.opening contents m.rindex).bytes
      (encodeAll (m.rindex + (ContainerType.variant.opening contents m.rindex).length) elems).length =
      pad m.rindex 1 ++ (toLittleEndian 1 contents.length ++ (contents ++ [0])) := by
    simp [ContainerType.opening, Opening.bytes, pad_one]
  rw [encode_container, opening] at there
  have stop : alignTo m.rindex 1 + 1 + (contents.length + 1) =
      m.rindex + (ContainerType.variant.opening contents m.rindex).length := by
    simp [ContainerType.opening, Opening.length, alignTo_one]
    omega
  refine ⟨nulFree, ?_⟩
  rw [← stop]
  exact peekText_ok readable ⟨contents, nulFree⟩ (by decide) there.left short valid

theorem busMessageEnterVariant_ok (readable : Readable m bytes block)
    (there : At bytes m.rindex ((Value.container .variant contents elems).encode m.rindex))
    (accepted : ContainerType.variant.accepts contents = true)
    (within : (Value.container .variant contents elems).Within m.rindex depth)
    (next : ContainerType.variant.signature contents <+: c.signature.drop c.index) :
    busMessageEnterVariant c contents m =
      .ok (sizeAt block m.rindex .variant contents) (m.entered .variant contents) := by
  obtain ⟨nulFree, text⟩ := peekText_variant readable there accepted within
  unfold busMessageEnterVariant
  rw [check_bind_of accepted]
  unfold checkNext
  rw [check_bind_of next]
  simp only [get_bind]
  rw [bind_of_ok text]
  rw [check_bind_of rfl]
  rfl

theorem peekStruct_ok (isStruct : type = .struct ∨ type = .dictEntry) (readable : Readable m bytes block)
    (there : At bytes m.rindex ((Value.container type contents elems).encode m.rindex)) :
    ∃ q, messagePeekBody m.rindex 8 0 m = .ok (m.rindex + (type.opening contents m.rindex).length, q) m.looked := by
  have ge := alignTo_ge m.rindex (by decide : 0 < 8)
  have opening : type.opening contents m.rindex = ⟨pad m.rindex 8, false, []⟩ := by
    rcases isStruct with rfl | rfl <;> rfl
  rw [encode_container, opening] at there
  have padding : At bytes m.rindex (pad m.rindex 8 ++ []) := by
    have left := there.left
    rwa [Opening.bytes, if_neg (by simp), append_nil] at left
  obtain ⟨q, peeked, -⟩ := messagePeekBody_ok readable (by decide) padding
  refine ⟨q, peeked.trans ?_⟩
  have stop : alignTo m.rindex 8 + ([] : List UInt8).length =
      m.rindex + (type.opening contents m.rindex).length := by
    rw [opening]
    simp [Opening.length]
    omega
  rw [stop]

theorem messageEnter_ok (readable : Readable m bytes block)
    (there : At bytes m.rindex ((Value.container type contents elems).encode m.rindex))
    (sound : (Value.container type contents elems).Sound c.enclosing)
    (within : (Value.container type contents elems).Within m.rindex depth)
    (next : type.signature contents <+: c.signature.drop c.index) :
    messageEnter type c contents m = .ok (sizeAt block m.rindex type contents) (m.entered type contents) := by
  obtain ⟨accepted, inArray, -⟩ := sound
  have moved : 1 + contents.length + 1 = contents.length + 1 + 1 := by omega
  cases type with
  | array => exact busMessageEnterArray_ok readable there accepted within next
  | variant => exact busMessageEnterVariant_ok readable there accepted within next
  | struct =>
    obtain ⟨q, peeked⟩ := peekStruct_ok (.inl rfl) readable there
    show busMessageEnterStruct c contents m = _
    unfold busMessageEnterStruct checkNext
    rw [check_bind_of accepted, check_bind_of next]
    simp only [get_bind]
    rw [bind_of_ok peeked]
    simp only [moved]
    simp [sizeAt, ContainerType.opening, Message.entered, ContainerType.signature]
  | dictEntry =>
    obtain ⟨q, peeked⟩ := peekStruct_ok (.inr rfl) readable there
    show busMessageEnterDictEntry c contents m = _
    unfold busMessageEnterDictEntry checkNext
    rw [check_bind_of accepted, check_bind_of (inArray rfl), check_bind_of next]
    simp only [get_bind]
    rw [bind_of_ok peeked]
    simp only [moved]
    simp [sizeAt, ContainerType.opening, Message.entered, ContainerType.signature]

/-- The container that is put on the stack. -/
def enteredContainer (block pos : Nat) (type : ContainerType) (contents : CString) : Container :=
  { enclosing := some type
    signature := contents
    before := pos
    begin := pos + (type.opening contents pos).length
    arraySize := sizeAt block pos type contents }

/-- The values of the container are to come from it. -/
theorem Awaits.enter {pos : Nat} (awaits : Awaits bytes block pos depth c (.container type contents elems :: todo)) :
    Awaits bytes block (pos + (type.opening contents pos).length) (depth + 1)
      (enteredContainer block pos type contents) elems := by
  obtain ⟨accepted, -, suits, inside⟩ := awaits.sound.1
  obtain ⟨-, -, few, within⟩ := awaits.within.1
  have there := awaits.there
  have whole := there.left
  have data := whole.right
  rw [Opening.length_bytes] at data
  refine ⟨inside, within, data, ?_, fun isArray => ?_⟩
  · show if some type = some .array then 0 = 0 ∧ ContainerType.array.accepts contents = true ∧
      ∀ v ∈ elems, v.signature = contents else contents.drop 0 = signatures elems
    unfold ContainerType.suits at suits
    by_cases isArray : type = .array
    · rw [if_pos isArray] at suits
      rw [if_pos (congrArg some isArray)]
      exact ⟨rfl, isArray ▸ accepted, fun v hv => suits _ (mem_map_of_mem hv)⟩
    · rw [if_neg isArray] at suits
      rw [if_neg (fun h => isArray (Option.some.inj h))]
      exact suits.symm
  · obtain rfl : type = .array := Option.some.inj isArray
    refine ⟨pos + (ContainerType.array.opening contents pos).pre.length, _, rfl, ?_, ?_, rfl⟩
    · have opening := whole.left
      exact opening.left.right
    · exact (few rfl).trans_lt (by decide)

theorem allocate_of (memory : ∀ k, (env.alloc k).isSome = true) (onFailure : Message → Message) (m : Message) :
    ∃ a, allocate env onFailure m = .ok a { m with nAllocs := m.nAllocs + 1 } := by
  obtain ⟨a, found⟩ := Option.isSome_iff_exists.mp (memory m.nAllocs)
  exact ⟨a, allocate_eq_ok.mpr ⟨found, rfl⟩⟩

theorem ContainerType.code_ne_zero (type : ContainerType) : type.code ≠ 0 := by
  cases type <;> decide

theorem enterContainer_ok (memory : ∀ k, (env.alloc k).isSome = true)
    (reading : Reading bytes block m ((.container type contents elems :: todo) :: todos)) :
    ∃ m', enterContainer env type.code (some contents) m = .ok true m' ∧
      m'.rindex = m.rindex + (type.opening contents m.rindex).length ∧
      m'.stack = enteredContainer block m.rindex type contents ::
        m.lastContainer.past (.container type contents elems) :: m.stack.tail ∧
      Reading bytes block m' (elems :: todo :: todos) := by
  obtain ⟨awaits, others⟩ := reading.awaits
  have room : m.containers.length < 128 := by
    have := awaits.within.1.1
    rwa [length_stack_tail] at this
  obtain ⟨a₁, allocates₁⟩ := allocate_of memory id m
  have reading₁ : Reading bytes block { m with nAllocs := m.nAllocs + 1 } _ :=
    ⟨{ reading.readable with }, reading.pending⟩
  obtain ⟨a₂, allocates₂⟩ := allocate_of memory id { m with nAllocs := m.nAllocs + 1 }
  have notEnd := endOfArray_ok reading₁
  simp only [reduceCtorEq, and_false, decide_false] at notEnd
  set saved := { m with nAllocs := m.nAllocs + 1 + 1 }.modifyLast fun c => { c with savedIndex := c.index }
    with savedEq
  have readable₂ : Readable saved bytes block :=
    .modifyLast (m := { m with nAllocs := m.nAllocs + 1 + 1 }) { reading.readable with } _
  have rindex : saved.rindex = m.rindex := Message.rindex_modifyLast _ _
  have there := awaits.there
  have enters := messageEnter_ok (m := saved) readable₂ (rindex ▸ there.left) awaits.sound.1
    (rindex ▸ awaits.within.1) awaits.next
  rw [rindex] at enters
  set entered := saved.entered type contents with enteredEq
  have moved : entered.rindex = m.rindex + (type.opening contents m.rindex).length := by
    rw [← rindex]
    exact Message.rindex_modifyLast _ _
  have stack : entered.stack = m.lastContainer.past (.container type contents elems) :: m.stack.tail := by
    have first : entered.stack = Container.moveTo (saved.lastContainer.index + (type.signature contents).length)
      saved.lastContainer :: saved.stack.tail := Message.stack_modifyLast _ _
    rw [first, Message.lastContainer_modifyLast, Message.stack_tail_modifyLast]
    rfl
  have readable₃ : Readable entered bytes block := readable₂.entered type contents
  refine ⟨{ entered with containers := enteredContainer block m.rindex type contents :: entered.containers },
    ?_, moved, ?_, ?_, ?_⟩
  · simp only [enterContainer, get_bind]
    rw [check_bind_of reading.readable.isSealed, check_bind_of (.inl type.code_ne_zero),
      if_neg (by simp [type.code_ne_zero])]
    simp only [enterKnown, get_bind]
    rw [check_bind_of room, bind_of_ok allocates₁, check_bind_of (by rw [endOfSignature_eq reading]; simp),
      bind_of_ok notEnd]
    simp only [Bool.false_eq_true, if_false]
    rw [bind_of_ok allocates₂]
    simp only [modify_bind, containerTypeOf_code]
    rw [bind_of_ok enters]
    simp [enteredContainer, ← moved]
  · show enteredContainer block m.rindex type contents :: entered.stack = _
    rw [stack]
  · exact { readable₃ with }
  · show Pending bytes block entered.rindex (enteredContainer block m.rindex type contents :: entered.stack) _
    rw [stack, moved]
    refine ⟨awaits.enter, ?_⟩
    have stop : m.rindex + (type.opening contents m.rindex).length +
        (encodeAll (m.rindex + (type.opening contents m.rindex).length) elems).length =
        m.rindex + ((Value.container type contents elems).encode m.rindex).length := by
      rw [encode_container, length_append, Opening.length_bytes, Nat.add_assoc]
    rw [stop]
    refine ⟨awaits.past, ?_⟩
    rwa [encodeAll, length_append, ← Nat.add_assoc] at others

/-! ## Leaving a container -/

theorem exitContainer_ok {next : List Value} (reading : Reading bytes block m ([] :: next :: todos)) :
    ∃ m', exitContainer m = .ok ⟨⟩ m' ∧ m'.rindex = m.rindex ∧ m'.stack = m.stack.tail ∧
      Reading bytes block m' (next :: todos) := by
  obtain ⟨awaits, others⟩ := reading.awaits
  have inside : m.containers ≠ [] := by
    intro outside
    rwa [Message.stack, outside] at others
  have left : { m with containers := m.containers.tail }.stack = m.stack.tail := by
    obtain ⟨c, cs, containers⟩ := exists_cons_of_ne_nil inside
    simp [Message.stack, containers]
  refine ⟨{ m with containers := m.containers.tail }, ?_, rfl, left, ?_, ?_⟩
  · simp only [exitContainer, get_bind]
    rw [check_bind_of reading.readable.isSealed, check_bind_of inside]
    by_cases isArray : m.lastContainer.enclosing = some .array
    · obtain ⟨off, size, points, there, small, stop⟩ := awaits.sized isArray
      rw [if_pos isArray, bind_of_ok (arrayLength_ok reading.readable points there small),
        check_bind_of (by exact stop)]
      rfl
    · rw [if_neg isArray, check_bind_of (awaits.endOfSignature.mpr ⟨isArray, rfl⟩)]
      rfl
  · exact { reading.readable with }
  · rw [left]
    exact others

/-! ## One call after the other -/

/-- The calls for what is still to come. -/
def pendingCalls : List (List Value) → List Call
  | [] => []
  | todo :: [] => callsOf todo
  | todo :: todos => callsOf todo ++ .closeContainer :: pendingCalls todos

/-- What is behind the calls for one level. -/
def callsBehind : List (List Value) → List Call
  | [] => []
  | todos => .closeContainer :: pendingCalls todos

theorem pendingCalls_cons (todo : List Value) (todos : List (List Value)) :
    pendingCalls (todo :: todos) = callsOf todo ++ callsBehind todos := by
  cases todos with
  | nil => simp [pendingCalls, callsBehind]
  | cons next todos => rfl

theorem read_step (memory : ∀ k, (env.alloc k).isSome = true) (reading : Reading bytes block m todos)
    (pending : pendingCalls todos = call :: calls) :
    ∃ m' todos', call.read env m = .ok call.reply m' ∧ Reading bytes block m' todos' ∧
      pendingCalls todos' = calls := by
  cases todos with
  | nil => simp [pendingCalls] at pending
  | cons todo todos =>
    rw [pendingCalls_cons] at pending
    cases todo with
    | nil =>
      cases todos with
      | nil => simp [callsOf, callsBehind] at pending
      | cons next todos =>
        simp only [callsOf, callsBehind, nil_append, List.cons.injEq] at pending
        obtain ⟨rfl, rest⟩ := pending
        obtain ⟨m', exits, -, -, after⟩ := exitContainer_ok reading
        exact ⟨m', next :: todos, bind_of_ok exits, after, rest⟩
    | cons v todo =>
      cases v with
      | basic v n =>
        simp only [callsOf, Value.calls, cons_append, nil_append, List.cons.injEq] at pending
        obtain ⟨rfl, rest⟩ := pending
        obtain ⟨m', reads, passed⟩ := readBasic_ok reading
        exact ⟨m', todo :: todos, bind_of_ok reads, reading.past passed, by rw [pendingCalls_cons, rest]⟩
      | container type contents elems =>
        simp only [callsOf, Value.calls, cons_append, append_assoc, nil_append, List.cons.injEq] at pending
        obtain ⟨rfl, rest⟩ := pending
        obtain ⟨m', enters, -, -, after⟩ := enterContainer_ok memory reading
        refine ⟨m', elems :: todo :: todos, bind_of_ok enters, after, ?_⟩
        rw [← rest, pendingCalls_cons, callsBehind, pendingCalls_cons]
        simp

theorem readAll_cons {m₁ m₂ : Message} {reply : Reply} {replies : List Reply} (first : call.read env m = .ok reply m₁)
    (others : readAll env calls m₁ = .ok replies m₂) : readAll env (call :: calls) m = .ok (reply :: replies) m₂ := by
  unfold readAll
  rw [bind_of_ok first, bind_of_ok others]
  rfl

theorem readAll_ok {rest : List Call} (memory : ∀ k, (env.alloc k).isSome = true)
    (reading : Reading bytes block m todos) (pending : pendingCalls todos = calls ++ rest) :
    ∃ m' todos', readAll env calls m = .ok (calls.map Call.reply) m' ∧ Reading bytes block m' todos' ∧
      pendingCalls todos' = rest := by
  induction calls generalizing m todos with
  | nil => exact ⟨m, todos, rfl, reading, pending⟩
  | cons call calls ih =>
    obtain ⟨m₁, todos₁, first, after, pending₁⟩ := read_step memory reading pending
    obtain ⟨m₂, todos₂, others, final, pending₂⟩ := ih after pending₁
    exact ⟨m₂, todos₂, readAll_cons first others, final, pending₂⟩

/-- Nothing is to come from the last container when its end, or that of all, comes next. -/
theorem pendingCalls_head (todo : List Value) (todos : List (List Value)) :
    (pendingCalls (todo :: todos)).head?.all (· = .closeContainer) = decide (todo = []) := by
  rw [pendingCalls_cons]
  cases todo with
  | nil => cases todos <;> simp [callsOf, callsBehind]
  | cons v todo =>
    obtain ⟨call, rest, first, opens⟩ := v.calls_head
    simp [callsOf, first, opens]

end Steps

end SystemdPort.Bus
