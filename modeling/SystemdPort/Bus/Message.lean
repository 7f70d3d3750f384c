/-
# Bus.Message — building a message

The part of `src/libsystemd/sd-bus/bus-message.c` that appends to a message and seals it.
The body is a chain of parts, each with a block of memory that is reallocated as it
grows; the size of an array is written through a pointer into such a block.  Memory is
a set of blocks, and a pointer is a block and an offset in it.  Block 0 stands for the
static zeroes that parts of padding are mapped to.

What depends on the outside, whether an allocation succeeds and moves its block, what
is in new memory and what `fcntl()` makes of a file descriptor, is in an `Env`.  A call
that fails leaves the message as far as it has changed it.
-/
import SystemdPort.Basic.Errno
import SystemdPort.Basic.Utf8
import SystemdPort.Bus.Signature
import SystemdPort.Lib.Bytes
import SystemdPort.Lib.Exec

namespace SystemdPort.Bus

open Basic Lib Lib.Exec Function

set_option autoImplicit false

/-! ## Values -/

/-- A string that ends at its NUL. -/
abbrev CText := { s : CString // 0 ∉ s }

inductive BasicValue where
  | byte (v : UInt8)
  | boolean (v : Bool)
  | int16 (v : BitVec 16)
  | uint16 (v : BitVec 16)
  | int32 (v : BitVec 32)
  | uint32 (v : BitVec 32)
  | int64 (v : BitVec 64)
  | uint64 (v : BitVec 64)
  | double (v : BitVec 64)
  | string (s : CText)
  | objectPath (s : CText)
  | signature (s : CText)
  | unixFd (fd : Nat)
  deriving DecidableEq

def isAsciiAlnum (c : UInt8) : Bool :=
  (chr 'a' ≤ c && c ≤ chr 'z') || (chr 'A' ≤ c && c ≤ chr 'Z') || (chr '0' ≤ c && c ≤ chr '9')

/-- The loop of `object_path_is_valid()`; `slash` tells whether the last character was one. -/
def pathComponentsValid : Bool → CString → Bool
  | slash, [] => !slash
  | slash, c :: s =>
    if c = chr '/' then !slash && pathComponentsValid true s
    else (isAsciiAlnum c || c = chr '_') && pathComponentsValid false s

def objectPathIsValid : CString → Bool
  | [] => false
  | c :: s => c = chr '/' && (s = [] || (pathComponentsValid true s && s.length + 1 ≤ 64 * 1024))

namespace BasicValue

def type : BasicValue → BasicType
  | byte _ => .byte
  | boolean _ => .boolean
  | int16 _ => .int16
  | uint16 _ => .uint16
  | int32 _ => .int32
  | uint32 _ => .uint32
  | int64 _ => .int64
  | uint64 _ => .uint64
  | double _ => .double
  | string _ => .string
  | objectPath _ => .objectPath
  | signature _ => .signature
  | unixFd _ => .unixFd

/-- The check that `message_append_basic()` makes. -/
def valid : BasicValue → Bool
  | string s => utf8IsValid s.1
  | objectPath s => objectPathIsValid s.1
  | signature s => signatureIsValid s.1 true
  | _ => true

/-- The bytes stored, for a message that has `nFds` file descriptors. -/
def payload (nFds : Nat) : BasicValue → List UInt8
  | byte v => toLittleEndian 1 v.toNat
  | boolean v => toLittleEndian 4 v.toNat
  | int16 v | uint16 v => toLittleEndian 2 v.toNat
  | int32 v | uint32 v => toLittleEndian 4 v.toNat
  | int64 v | uint64 v | double v => toLittleEndian 8 v.toNat
  | string s | objectPath s => toLittleEndian 4 s.1.length ++ s.1 ++ [0]
  | signature s => toLittleEndian 1 s.1.length ++ s.1 ++ [0]
  | unixFd _ => toLittleEndian 4 nFds

end BasicValue

/-! ## The message -/

structure Ptr where
  block : Nat
  offset : Nat
  deriving DecidableEq

structure BodyPart where
  data : Option Nat := none
  size : Nat := 0
  allocated : Nat := 0
  isZero : Bool := false
  isSealed : Bool := false

structure Container where
  /-- The type of the container, none for the message itself. -/
  enclosing : Option ContainerType := none
  index : Nat := 0
  savedIndex : Nat := 0
  signature : CString := []
  before : Nat := 0
  begin : Nat := 0
  arraySize : Option Ptr := none

structure Message where
  blocks : Nat → List UInt8 := fun b => if b = 0 then List.replicate 7 0 else []
  nAllocs : Nat := 0
  /-- `m->body` and the parts after it. -/
  parts : List BodyPart := [{}]
  nBodyParts : Nat := 0
  bodySize : Nat := 0
  userBodySize : Nat := 0
  poisoned : Bool := false
  isSealed : Bool := false
  allowFds : Bool := true
  fds : List Nat := []
  /-- `BUS_MESSAGE_NEED_BSWAP()` -/
  needBswap : Bool := false
  isMethodReturn : Bool := false
  enforcedReplySignature : Option CString := none
  rootContainer : Container := {}
  /-- The open containers, the last one first. -/
  containers : List Container := []
  rindex : Nat := 0
  /-- `m->cached_rindex_part`, as its place in the chain, and where it begins. -/
  cachedRindexPart : Option (Nat × Nat) := none

namespace Message

/-- `sd_bus_message_new()` and the like, of what matters for appending. -/
def new (allowFds isMethodReturn : Bool) (enforcedReplySignature : Option CString) : Message :=
  { allowFds, isMethodReturn, enforcedReplySignature }

/-- The bytes of all parts. -/
def body (m : Message) : List UInt8 :=
  m.parts.flatMap fun part =>
    match part.data with
    | some block => (m.blocks block).take part.size
    | none => List.replicate part.size 0

end Message

structure Allocation where
  /-- Whether a block that grows stays where it is. -/
  inPlace : Bool
  junk : Nat → UInt8

structure Env where
  alloc : Nat → Option Allocation
  dupFd : Nat → Except Errno Nat

/-- How a call can end other than by success: with an error, with memory accessed or
an assertion made that is not there, or, in a model with a counter, not within it. -/
inductive Failure where
  | errno (e : Errno)
  | fault
  | outOfFuel

abbrev BusM := EStateM Failure Message

def fail {α : Type} (e : Errno) : BusM α := throw (.errno e)

def check (p : Prop) [Decidable p] (e : Errno) : BusM PUnit := require p (.errno e)

namespace Message

def lastContainer (m : Message) : Container := m.containers.headD m.rootContainer

def modifyLast (f : Container → Container) (m : Message) : Message :=
  match m.containers with
  | [] => { m with rootContainer := f m.rootContainer }
  | c :: cs => { m with containers := f c :: cs }

def bodyEnd (m : Message) : BodyPart := m.parts.getLastD {}

def modifyBodyEnd (f : BodyPart → BodyPart) (m : Message) : Message :=
  { m with parts := m.parts.dropLast ++ [f m.bodyEnd] }

def load (m : Message) (p : Ptr) (n : Nat) : List UInt8 := ((m.blocks p.block).drop p.offset).take n

def store (m : Message) (p : Ptr) (bytes : List UInt8) : Message :=
  { m with blocks := update m.blocks p.block (overwrite 0 (m.blocks p.block) p.offset bytes) }

/-- `*array_size += expand` -/
def bumpSize (expand : Nat) (c : Container) (m : Message) : Message :=
  match c.arraySize with
  | none => m
  | some p => m.store p (toLittleEndian 4 (ofLittleEndian (m.load p 4) + expand))

/-- `message_extend_containers()`, from the first container to the last. -/
def extendContainers (expand : Nat) (m : Message) : Message :=
  if expand = 0 then m else m.containers.foldr (bumpSize expand) m

end Message

section Write

variable (env : Env)

/-! ## Memory -/

/-- An allocation; if it fails, the caller gets to clean up. -/
def allocate (onFailure : Message → Message) : BusM Allocation := do
  let m ← get
  modify fun m => { m with nAllocs := m.nAllocs + 1 }
  match env.alloc m.nAllocs with
  | some a => pure a
  | none => do
      modify onFailure
      fail .enomem

def poison (m : Message) : Message := { m with poisoned := true }

/-- `realloc(part->data, newAllocated)` for the last part. -/
def Message.reallocBodyEnd (newAllocated : Nat) (a : Allocation) (m : Message) : Message :=
  let part := m.bodyEnd
  let old := (part.data.map m.blocks).getD []
  -- the allocation that gave the block is the last one made
  let fresh := m.nAllocs
  let block := if a.inPlace then part.data.getD fresh else fresh
  let grown := old ++ (List.range (newAllocated - old.length)).map a.junk
  let freed := match part.data with
    | some b => update m.blocks b []
    | none => m.blocks
  { m with blocks := update freed block grown }.modifyBodyEnd fun part =>
    { part with data := some block, allocated := newAllocated }

/-- Grows the last part to `sz`; the result points to where it ended before. -/
def partMakeSpace (sz : Nat) : BusM Ptr := do
  let m ← get
  check (m.poisoned = false) .enomem
  if m.bodyEnd.allocated = 0 ∨ m.bodyEnd.allocated < sz then
    let a ← allocate env poison
    modify (Message.reallocBodyEnd (if sz > 0 then 2 * sz else 64) a)
  let m ← get
  modify (Message.modifyBodyEnd fun part => { part with size := sz })
  pure ⟨m.bodyEnd.data.getD 0, m.bodyEnd.size⟩

def messageAppendPart : BusM PUnit := do
  let m ← get
  check (m.poisoned = false) .enomem
  if m.nBodyParts = 0 then modify fun m => { m with parts := [{}] }
  else
    let _ ← allocate env poison
    modify fun m => { m with parts := m.parts ++ [{}] }
  modify fun m => { m with nBodyParts := m.nBodyParts + 1 }

def partZero (sz : Nat) (part : BodyPart) : BodyPart :=
  { part with size := sz, isZero := true, isSealed := true }

/-- `ALIGN_TO()` -/
def alignTo (l align : Nat) : Nat := (l + align - 1) / align * align

/-- A pointer into the first `sz` bytes of a block that was reallocated. -/
def adjustPointer (p : Option Ptr) (oldBase : Option Nat) (sz : Nat) (newBase : Option Nat) : Option Ptr :=
  match p, oldBase, newBase with
  | some p, some old, some new => if p.block = old ∧ p.offset < sz then some ⟨new, p.offset⟩ else some p
  | p, _, _ => p

def adjustContainers (oldBase : Option Nat) (sz : Nat) (m : Message) : Message :=
  { m with containers := m.containers.map fun c =>
      { c with arraySize := adjustPointer c.arraySize oldBase sz m.bodyEnd.data } }

/-- The branch of `message_extend_body()` that starts a new part. -/
def extendNewPart (padding sz : Nat) : BusM Ptr := do
  if padding > 0 then
    messageAppendPart env
    modify (Message.modifyBodyEnd (partZero padding))
  messageAppendPart env
  partMakeSpace env sz

/-- The branch that makes the last part longer. -/
def extendLastPart (align padding sz : Nat) : BusM Ptr := do
  let m ← get
  let op := m.bodyEnd.data
  let os := m.bodyEnd.size
  let p ← partMakeSpace env (alignTo os align + sz)
  modify fun m => m.store p (List.replicate padding 0)
  modify (adjustContainers op os)
  pure ⟨p.block, p.offset + padding⟩

/-- Makes room for the padding and `sz` bytes behind it. -/
def extendParts (align padding sz : Nat) : BusM Ptr := do
  let m ← get
  if padding + sz = 0 then pure ⟨0, align⟩
  else if m.nBodyParts = 0 ∨ m.bodyEnd.isSealed ∨
      padding ≠ alignTo m.bodyEnd.size align - m.bodyEnd.size then
    extendNewPart env padding sz
  else extendLastPart env align padding sz

/-- `message_extend_body()`, which fails with the error its callers report. -/
def messageExtendBody (align sz : Nat) : BusM Ptr := do
  let m ← get
  check (m.poisoned = false) .enomem
  let startBody := alignTo m.bodySize align
  let endBody := startBody + sz
  let padding := startBody - m.bodySize
  if 2 ^ 32 ≤ endBody then
    modify poison
    fail .enomem
  else
    let p ← extendParts env align padding sz
    modify fun m => { m with bodySize := endBody }.extendContainers (padding + sz)
    pure p

/-! ## Appending -/

/-- The last container has to expect `s` next; the message itself takes anything and
notes it in its signature.  Gives the index behind `s`. -/
def expectSignature (s : CString) : BusM Nat := do
  let m ← get
  let c := m.lastContainer
  if c.index < c.signature.length then
    check (s <+: c.signature.drop c.index) .enxio
    pure (c.index + s.length)
  else
    check (c.enclosing = none) .enxio
    let _ ← allocate env poison
    modify (Message.modifyLast fun c => { c with signature := c.signature ++ s })
    pure (c.signature.length + s.length)

/-- An array expects the same element again and again. -/
def Container.moveTo (index : Nat) (c : Container) : Container :=
  if c.enclosing = some .array then c else { c with index }

def messagePushFd (fd : Nat) : BusM Nat := do
  let m ← get
  check (m.allowFds = true) .eopnotsupp
  match env.dupFd fd with
  | .error e => fail e
  | .ok copy => do
      let _ ← allocate env poison
      pure copy

/-- The file descriptors the message has after a value was appended. -/
def pushValueFd : BasicValue → BusM (List Nat)
  | .unixFd fd => do
      let copy ← messagePushFd env fd
      pure [copy]
  | _ => pure []

def messageAppendBasic (v : BasicValue) : BusM PUnit := do
  let m ← get
  check (m.isSealed = false) .eperm
  check (m.poisoned = false) .estale
  let _ ← expectSignature env [v.type.code]
  check (v.valid = true) .einval
  let fds ← pushValueFd env v
  let bytes := v.payload m.fds.length
  let a ← messageExtendBody env v.type.alignment bytes.length
  modify fun m => m.store a bytes
  modify fun m => { m with fds := m.fds ++ fds }
  modify (Message.modifyLast fun c => c.moveTo (c.index + 1))

def busMessageOpenArray (contents : CString) : BusM (Option Ptr) := do
  check (ContainerType.array.accepts contents = true) .einval
  let nindex ← expectSignature env (ContainerType.array.signature contents)
  match contents.head?.bind busTypeGetAlignment with
  | none => fail .einval
  | some alignment => do
      let a ← messageExtendBody env 4 4
      let m ← get
      let _ ← messageExtendBody env alignment 0
      let m' ← get
      -- the block of the size may have moved
      let a := if m.parts.length = m'.parts.length then
          (adjustPointer (some a) m.bodyEnd.data m.bodyEnd.size m'.bodyEnd.data).getD a
        else a
      modify fun m => m.store a (toLittleEndian 4 0)
      modify (Message.modifyLast (Container.moveTo nindex))
      pure (some a)

def busMessageOpenVariant (contents : CString) : BusM (Option Ptr) := do
  check (ContainerType.variant.accepts contents = true) .einval
  let nindex ← expectSignature env (ContainerType.variant.signature contents)
  let bytes := toLittleEndian 1 contents.length ++ contents ++ [0]
  let a ← messageExtendBody env 1 bytes.length
  modify fun m => m.store a bytes
  modify (Message.modifyLast (Container.moveTo nindex))
  pure none

def busMessageOpenStruct (contents : CString) : BusM (Option Ptr) := do
  check (ContainerType.struct.accepts contents = true) .einval
  let nindex ← expectSignature env (ContainerType.struct.signature contents)
  let _ ← messageExtendBody env 8 0
  modify (Message.modifyLast (Container.moveTo nindex))
  pure none

def busMessageOpenDictEntry (contents : CString) : BusM (Option Ptr) := do
  check (ContainerType.dictEntry.accepts contents = true) .einval
  let m ← get
  let c := m.lastContainer
  check (c.enclosing = some .array) .enxio
  check (ContainerType.dictEntry.signature contents <+: c.signature.drop c.index) .enxio
  let _ ← messageExtendBody env 8 0
  pure none

def messageOpen (type : ContainerType) (contents : CString) : BusM (Option Ptr) :=
  match type with
  | .array => busMessageOpenArray env contents
  | .variant => busMessageOpenVariant env contents
  | .struct => busMessageOpenStruct env contents
  | .dictEntry => busMessageOpenDictEntry env contents

def openContainer (type : ContainerType) (contents : CString) : BusM PUnit := do
  let m ← get
  check (m.isSealed = false) .eperm
  check (m.poisoned = false) .estale
  let _ ← allocate env poison
  let _ ← allocate env poison
  modify (Message.modifyLast fun c => { c with savedIndex := c.index })
  let before := m.bodySize
  let arraySize ← messageOpen env type contents
  modify fun m => { m with containers :=
    { enclosing := some type, signature := contents, arraySize, before } :: m.containers }

def closeContainer : BusM PUnit := do
  let m ← get
  check (m.isSealed = false) .eperm
  check (m.containers ≠ []) .einval
  check (m.poisoned = false) .estale
  let c := m.lastContainer
  check (c.enclosing = some .array ∨ c.signature.length ≤ c.index) .einval
  modify fun m => { m with containers := m.containers.tail }

/-! ## Sealing -/

/-- `sd_bus_message_seal()`, of the header only the room for its fields. -/
def messageSeal (cookie : Nat) : BusM PUnit := do
  let m ← get
  check (m.isSealed = false) .eperm
  check (m.containers = []) .ebadmsg
  check (m.poisoned = false) .estale
  check (cookie < 2 ^ 32) .eopnotsupp
  check (m.isMethodReturn = false ∨ m.enforcedReplySignature = none ∨
    m.enforcedReplySignature = some m.rootContainer.signature) .enomsg
  if m.rootContainer.signature ≠ [] then
    check (m.rootContainer.signature.length ≤ 255) .einval
    let _ ← allocate env poison
  if m.fds ≠ [] then
    let _ ← allocate env poison
  modify fun m => { m with
    userBodySize := m.bodySize
    rootContainer := { m.rootContainer with index := 0 }
    isSealed := true }

end Write

end SystemdPort.Bus
