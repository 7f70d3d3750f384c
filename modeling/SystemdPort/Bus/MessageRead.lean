/-
# Bus.MessageRead — reading a message

The part of `src/libsystemd/sd-bus/bus-message.c` that reads a sealed message: finding
the bytes at a position in the chain of parts, reading a basic value, entering and
leaving containers, looking at the type of what comes next and skipping it.  A return
value of 0, for the end of an array, is `none` or `false`.

Bytes are read through `deref`, which faults on NULL and on what is not in the body; so
do the assertions of the source and `strdup(NULL)`.
-/
import SystemdPort.Bus.Message

namespace SystemdPort.Bus

open Basic Lib Lib.Exec

set_option autoImplicit false

def fault {α : Type} : BusM α := throw .fault

/-! ## Positions in the body -/

namespace Message

def endOfSignature (m : Message) : Bool := m.lastContainer.signature.length ≤ m.lastContainer.index

/-- Bytes that lie in some part of the body. -/
def inBody (m : Message) (p : Ptr) (n : Nat) : Bool :=
  m.parts.any fun part => part.data = some p.block && p.offset + n ≤ part.size

/-- `BUS_MESSAGE_BSWAP32()` and the like. -/
def number (m : Message) (bytes : List UInt8) : Nat :=
  ofLittleEndian (if m.needBswap then bytes.reverse else bytes)

end Message

def deref (q : Option Ptr) (n : Nat) : BusM (List UInt8) := do
  let m ← get
  match q with
  | none => fault
  | some p => if m.inBody p n then pure (m.load p n) else fault

/-- `BUS_MESSAGE_BSWAP32(m, *c->array_size)` -/
def arrayLength (c : Container) : BusM Nat := do
  let bytes ← deref c.arraySize 4
  let m ← get
  pure (m.number bytes)

/-- `message_end_of_array()` -/
def endOfArray (index : Nat) : BusM Bool := do
  let m ← get
  let c := m.lastContainer
  if c.enclosing = some .array then
    let l ← arrayLength c
    pure (c.begin + l ≤ index)
  else pure false

/-- `sd_bus_message_at_end()` -/
def messageAtEnd (complete : Bool) : BusM Bool := do
  let m ← get
  check (m.isSealed = true) .eperm
  if complete ∧ m.containers ≠ [] then pure false
  else if m.endOfSignature then pure true
  else endOfArray m.rindex

/-- `bus_body_part_map()`, for parts without a memfd. -/
def busBodyPartMap (part : BodyPart) : Option BodyPart :=
  if part.data.isSome ∨ part.size = 0 then some part
  else if part.isZero ∧ part.size < 8 then some { part with data := some 0 }
  else none

/-- The part that has all of `sz` bytes from `index`, with its place and its beginning. -/
def findPartLoop (index sz : Nat) : Nat → Nat → List BodyPart → Option (Nat × Nat × BodyPart)
  | _, _, [] => none
  | place, begin, part :: rest =>
    if index < begin then none
    else if index + sz ≤ begin + part.size then some (place, begin, part)
    else findPartLoop index sz (place + 1) (begin + part.size) rest

/-- Where `find_part()` starts to look. -/
def findPartStart (m : Message) (index : Nat) : Nat × Nat :=
  match m.cachedRindexPart with
  | some (place, begin) => if begin ≤ index then (place, begin) else (0, 0)
  | none => (0, 0)

/-- `find_part()`: a pointer to the bytes, NULL for a part without any. -/
def findPart (index sz : Nat) : BusM (Option (Option Ptr)) := do
  let m ← get
  let start := findPartStart m index
  match findPartLoop index sz start.1 start.2 (m.parts.drop start.1) with
  | none => pure none
  | some (place, begin, part) =>
    match busBodyPartMap part with
    | none => pure none
    | some part => do
        modify fun m => { m with
          parts := m.parts.set place part
          cachedRindexPart := some (place, begin) }
        pure (some (part.data.map fun block => ⟨block, index - begin⟩))

/-- The loop that looks at the padding, if there is a pointer to it. -/
def verifyPadding (q : Option Ptr) (padding : Nat) : BusM PUnit :=
  if q.isSome then do
    let bytes ← deref q padding
    check (bytes = List.replicate padding 0) .ebadmsg
  else pure ⟨⟩

/-- Moves `rindex` past the padding and `nbytes`; gives a pointer to these. -/
def messagePeekBody (rindex align nbytes : Nat) : BusM (Nat × Option Ptr) := do
  let m ← get
  let start := alignTo rindex align
  check (start ≤ m.userBodySize) .ebadmsg
  check (nbytes ≤ 2 ^ 64 - 1 - start) .ebadmsg
  check (start + nbytes ≤ m.userBodySize) .ebadmsg
  match ← findPart rindex (start - rindex) with
  | none => fail .ebadmsg
  | some q => do
      verifyPadding q (start - rindex)
      match ← findPart start nbytes with
      | none => fail .ebadmsg
      | some q => do
          check (nbytes = 0 ∨ q.isSome = true) .ebadmsg
          pure (start + nbytes, q)

/-- `message_peek_body()`, and what it points to. -/
def peekBytes (rindex align nbytes : Nat) : BusM (Nat × List UInt8) := do
  let peeked ← messagePeekBody rindex align nbytes
  let bytes ← deref peeked.2 nbytes
  pure (peeked.1, bytes)

/-! ## Basic values -/

/-- `validate_nul()`, of `l` bytes and the one after them. -/
def validateNul (bytes : List UInt8) (l : Nat) : Option CText :=
  if nulFree : 0 ∉ bytes.take l then
    if bytes.drop l = [0] then some ⟨bytes.take l, nulFree⟩ else none
  else none

/-- A length of `width` bytes, a string of that length, and the NUL after it. -/
def peekText (rindex width : Nat) (valid : CString → Bool) : BusM (Nat × CText) := do
  let size ← peekBytes rindex width width
  let m ← get
  let l := m.number size.2
  -- the largest number would overflow below
  check (l ≠ 256 ^ width - 1) .ebadmsg
  let text ← peekBytes size.1 1 (l + 1)
  match validateNul text.2 l with
  | none => fail .ebadmsg
  | some s => do
      check (valid s.1 = true) .ebadmsg
      pure (text.1, s)

/-- The value of a type with a fixed size, from its number. -/
def BasicValue.ofNumber (fds : List Nat) (n : Nat) : BasicType → Option BasicValue
  | .byte => some (.byte n.toUInt8)
  | .boolean => some (.boolean (n ≠ 0))
  | .int16 => some (.int16 n)
  | .uint16 => some (.uint16 n)
  | .int32 => some (.int32 n)
  | .uint32 => some (.uint32 n)
  | .int64 => some (.int64 n)
  | .uint64 => some (.uint64 n)
  | .double => some (.double n)
  | .unixFd => fds[n]?.map .unixFd
  | .string | .objectPath | .signature => none

/-- A value with a fixed size. -/
def peekFixed (rindex : Nat) (type : BasicType) (size : Nat) : BusM (Nat × BasicValue) := do
  let peeked ← peekBytes rindex type.alignment size
  let m ← get
  match BasicValue.ofNumber m.fds (m.number peeked.2) type with
  | none => fail .ebadmsg
  | some v => pure (peeked.1, v)

/-- The value at a position, and the position after it. -/
def peekBasic (rindex : Nat) (type : BasicType) : BusM (Nat × BasicValue) :=
  match type.size with
  | some size => peekFixed rindex type size
  | none =>
    match type with
    | .objectPath => do
        let text ← peekText rindex 4 objectPathIsValid
        pure (text.1, .objectPath text.2)
    | .signature => do
        let text ← peekText rindex 1 (signatureIsValid · true)
        pure (text.1, .signature text.2)
    | _ => do
        let text ← peekText rindex 4 utf8IsValid
        pure (text.1, .string text.2)

def readBasic (type : BasicType) : BusM (Option BasicValue) := do
  let m ← get
  check (m.isSealed = true) .eperm
  check (m.endOfSignature = false) .enxio
  if ← endOfArray m.rindex then pure none
  else
    check (m.lastContainer.signature[m.lastContainer.index]? = some type.code) .enxio
    let peeked ← peekBasic m.rindex type
    modify fun m => { m with rindex := peeked.1 }
    modify (Message.modifyLast fun c => c.moveTo (c.index + 1))
    pure (some peeked.2)

/-! ## What comes next -/

section Containers

variable (env : Env)

/-- `sd_bus_message_peek_type()`: the type and, for a container, its contents. -/
def peekType : BusM (Option (UInt8 × Option CString)) := do
  let m ← get
  check (m.isSealed = true) .eperm
  if m.endOfSignature then pure none
  else if ← endOfArray m.rindex then pure none
  else
    match m.lastContainer.signature.drop m.lastContainer.index with
    | [] => fail .einval
    | code :: rest =>
      if busTypeIsBasic code then pure (some (code, none))
      else if code = arrayCode then
        match signatureElementLength rest with
        | none => fail .einval
        | some l =>
          if l < 1 then fault
          else do
            let _ ← allocate env id
            pure (some (ContainerType.array.code, some (rest.take l)))
      else if code = structBegin ∨ code = dictEntryBegin then
        match signatureElementLength (code :: rest) with
        | none => fail .einval
        | some l =>
          if l < 3 then fault
          else do
            let _ ← allocate env id
            let type := if code = structBegin then ContainerType.struct else .dictEntry
            pure (some (type.code, some (rest.take (l - 2))))
      else if code = variantCode then do
        let text ← peekText m.rindex 1 (signatureIsValid · true)
        pure (some (ContainerType.variant.code, some text.2.1))
      else fail .einval

/-! ## Containers -/

/-- The next element has to be a container of this type with these contents. -/
def checkNext (c : Container) (type : ContainerType) (contents : CString) : BusM PUnit :=
  check (type.signature contents <+: c.signature.drop c.index) .enxio

/-- Moves the read index and the index of the last container. -/
def Message.advance (rindex count : Nat) (m : Message) : Message :=
  { m with rindex }.modifyLast fun c => c.moveTo (c.index + count)

def busMessageEnterArray (c : Container) (contents : CString) : BusM (Option Ptr) := do
  check (ContainerType.array.accepts contents = true) .einval
  checkNext c .array contents
  let m ← get
  let size ← messagePeekBody m.rindex 4 4
  let bytes ← deref size.2 4
  let m ← get
  check (m.number bytes ≤ 67108864) .ebadmsg
  match contents.head?.bind busTypeGetAlignment with
  | none => fail .einval
  | some alignment => do
      let peeked ← messagePeekBody size.1 alignment 0
      modify (Message.advance peeked.1 (1 + contents.length))
      pure size.2

def busMessageEnterVariant (c : Container) (contents : CString) : BusM (Option Ptr) := do
  check (ContainerType.variant.accepts contents = true) .einval
  checkNext c .variant contents
  let m ← get
  let text ← peekText m.rindex 1 (signatureIsValid · true)
  check (text.2.1 = contents) .enxio
  modify (Message.advance text.1 1)
  pure none

def busMessageEnterStruct (c : Container) (contents : CString) : BusM (Option Ptr) := do
  check (ContainerType.struct.accepts contents = true) .einval
  checkNext c .struct contents
  let m ← get
  let peeked ← messagePeekBody m.rindex 8 0
  modify (Message.advance peeked.1 (1 + contents.length + 1))
  pure none

def busMessageEnterDictEntry (c : Container) (contents : CString) : BusM (Option Ptr) := do
  check (ContainerType.dictEntry.accepts contents = true) .einval
  check (c.enclosing = some .array) .enxio
  checkNext c .dictEntry contents
  let m ← get
  let peeked ← messagePeekBody m.rindex 8 0
  modify (Message.advance peeked.1 (1 + contents.length + 1))
  pure none

def messageEnter (type : ContainerType) (c : Container) (contents : CString) : BusM (Option Ptr) :=
  match type with
  | .array => busMessageEnterArray c contents
  | .variant => busMessageEnterVariant c contents
  | .struct => busMessageEnterStruct c contents
  | .dictEntry => busMessageEnterDictEntry c contents

/-- `sd_bus_message_enter_container()` once type and contents are known. -/
def enterKnown (type : UInt8) (contents : Option CString) : BusM Bool := do
  let m ← get
  check (m.containers.length < 128) .ebadmsg
  let _ ← allocate env id
  check (m.endOfSignature = false) .enxio
  if ← endOfArray m.rindex then pure false
  else
    match contents with
    -- strdup(NULL)
    | none => fault
    | some contents => do
        let _ ← allocate env id
        modify (Message.modifyLast fun c => { c with savedIndex := c.index })
        match containerTypeOf type with
        | none => fail .einval
        | some type => do
            let arraySize ← messageEnter type m.lastContainer contents
            modify fun m' => { m' with containers :=
              { enclosing := some type, signature := contents, before := m.rindex, begin := m'.rindex,
                arraySize } :: m'.containers }
            pure true

/-- `sd_bus_message_enter_container()`; a type of 0 or contents of NULL stand for what
comes next. -/
def enterContainer (type : UInt8) (contents : Option CString) : BusM Bool := do
  let m ← get
  check (m.isSealed = true) .eperm
  check (type ≠ 0 ∨ contents = none) .einval
  if type = 0 ∨ contents = none then
    let peeked ← peekType env
    let found := peeked.getD (0, none)
    check (type = 0 ∨ type = found.1) .enxio
    enterKnown env found.1 found.2
  else enterKnown env type contents

def exitContainer : BusM PUnit := do
  let m ← get
  check (m.isSealed = true) .eperm
  check (m.containers ≠ []) .enxio
  let c := m.lastContainer
  if c.enclosing = some .array then
    let l ← arrayLength c
    check (c.begin + l = m.rindex) .ebusy
  else check (c.signature.length ≤ c.index) .ebusy
  modify fun m => { m with containers := m.containers.tail }

/-! ## Skipping -/

/-- The loop over the elements of an array. -/
def skipArray (skip : BusM Bool) : Nat → BusM PUnit
  | 0 => throw .outOfFuel
  | n + 1 => do
      if ← skip then skipArray skip n else pure ⟨⟩

/-- Skips a container of which type and contents are known, by `skip` for its inside. -/
def skipContainer (type : ContainerType) (contents : CString) (skip : BusM PUnit) : BusM Bool := do
  if ← enterContainer env type.code (some contents) then
    skip
    exitContainer
    pure true
  else pure false

/-- Skips the element that starts with `code`, by `skip` for what is inside; gives whether
there was one, and the types behind it. -/
def skipElement (n : Nat) (skip : CString → BusM Bool) (code : UInt8) (rest : CString) : BusM (Bool × CString) :=
  match basicTypeOf code with
  | some type => do
      let v ← readBasic type
      pure (v.isSome, rest)
  | none =>
    if code = arrayCode then
      match signatureElementLength rest with
      | none => fail .einval
      | some k => do
          let r ← skipContainer env .array (rest.take k) (skipArray (skip (rest.take k)) n)
          pure (r, rest.drop k)
    else if code = variantCode then do
      match ← peekType env with
      | none => pure (false, rest)
      | some (type, contents) => do
          check (type = ContainerType.variant.code) .enxio
          let contents := contents.getD []
          let r ← skipContainer env .variant contents do
            if ← skip contents then pure ⟨⟩ else fault
          pure (r, rest)
    else if code = structBegin ∨ code = dictEntryBegin then
      match signatureElementLength (code :: rest) with
      | none => fail .einval
      | some k => do
          check (2 ≤ k) .erange
          let type := if code = structBegin then ContainerType.struct else .dictEntry
          let r ← skipContainer env type (rest.take (k - 2)) do
            let _ ← skip (rest.take (k - 2))
          pure (r, rest.drop (k - 1))
    else fail .einval

/-- `sd_bus_message_skip()` with given types; the counter bounds the depth of the calls
and the rounds of the loop. -/
def skipTypes : Nat → CString → BusM Bool
  | 0, _ => throw .outOfFuel
  | _ + 1, [] => pure false
  | n + 1, code :: rest => do
      let element ← skipElement env n (skipTypes n) code rest
      if element.1 then
        let _ ← skipTypes n element.2
        pure true
      else pure false

/-- The types to skip: one element if none are given. -/
def messageSkip (fuel : Nat) (types : Option CString) : BusM Bool := do
  let m ← get
  check (m.isSealed = true) .eperm
  match types with
  | some types => skipTypes env fuel types
  | none => do
      check (m.endOfSignature = false) .enxio
      if ← endOfArray m.rindex then pure false
      else
        let next := m.lastContainer.signature.drop m.lastContainer.index
        match signatureElementLength next with
        | none => fail .einval
        | some l => skipTypes env fuel (next.take l)

end Containers

end SystemdPort.Bus
