/-
# Bus.Type — the types of D-Bus

The type codes of `sd-bus-protocol.h` and the tables of
`src/libsystemd/sd-bus/bus-type.c`.
-/
import SystemdPort.Basic.StringUtil

namespace SystemdPort.Bus

open Basic

set_option autoImplicit false

inductive BasicType where
  | byte | boolean | int16 | uint16 | int32 | uint32 | int64 | uint64 | double
  | string | objectPath | signature | unixFd
  deriving DecidableEq

inductive ContainerType where
  | array | variant | struct | dictEntry
  deriving DecidableEq

def BasicType.code : BasicType → UInt8
  | byte => chr 'y'
  | boolean => chr 'b'
  | int16 => chr 'n'
  | uint16 => chr 'q'
  | int32 => chr 'i'
  | uint32 => chr 'u'
  | int64 => chr 'x'
  | uint64 => chr 't'
  | double => chr 'd'
  | string => chr 's'
  | objectPath => chr 'o'
  | signature => chr 'g'
  | unixFd => chr 'h'

def ContainerType.code : ContainerType → UInt8
  | array => chr 'a'
  | variant => chr 'v'
  | struct => chr 'r'
  | dictEntry => chr 'e'

def containerTypeOf (c : UInt8) : Option ContainerType :=
  [ContainerType.array, .variant, .struct, .dictEntry].find? fun t => t.code = c

def basicTypes : List BasicType :=
  [.byte, .boolean, .int16, .uint16, .int32, .uint32, .int64, .uint64, .double, .string, .objectPath,
    .signature, .unixFd]

def arrayCode : UInt8 := chr 'a'

def variantCode : UInt8 := chr 'v'

def structBegin : UInt8 := chr '('

def structEnd : UInt8 := chr ')'

def dictEntryBegin : UInt8 := 123

def dictEntryEnd : UInt8 := 125

/-- The basic type with a code. -/
def basicTypeOf (c : UInt8) : Option BasicType := basicTypes.find? fun t => t.code = c

def busTypeIsBasic (c : UInt8) : Bool := (basicTypeOf c).isSome

/-- The signature of a container with the given contents. -/
def ContainerType.signature (contents : CString) : ContainerType → CString
  | array => arrayCode :: contents
  | variant => [variantCode]
  | struct => structBegin :: (contents ++ [structEnd])
  | dictEntry => dictEntryBegin :: (contents ++ [dictEntryEnd])

def BasicType.alignment : BasicType → Nat
  | byte | signature => 1
  | int16 | uint16 => 2
  | boolean | int32 | uint32 | string | objectPath | unixFd => 4
  | int64 | uint64 | double => 8

def busTypeGetAlignment (c : UInt8) : Option Nat :=
  match basicTypeOf c with
  | some t => some t.alignment
  | none =>
    if c = variantCode then some 1
    else if c = arrayCode then some 4
    else if c = chr 'r' ∨ c = structBegin ∨ c = chr 'e' ∨ c = dictEntryBegin then some 8
    else none

/-- `bus_type_get_size()`, of the types that have one. -/
def BasicType.size : BasicType → Option Nat
  | byte => some 1
  | int16 | uint16 => some 2
  | boolean | int32 | uint32 | unixFd => some 4
  | int64 | uint64 | double => some 8
  | string | objectPath | signature => none

@[simp] theorem basicTypeOf_code (t : BasicType) : basicTypeOf t.code = some t := by
  cases t <;> rfl

@[simp] theorem containerTypeOf_code (t : ContainerType) : containerTypeOf t.code = some t := by
  cases t <;> rfl

@[simp] theorem busTypeIsBasic_code (t : BasicType) : busTypeIsBasic t.code = true := by
  simp [busTypeIsBasic]

theorem BasicType.alignment_pos (t : BasicType) : 0 < t.alignment := by cases t <;> decide

theorem busTypeGetAlignment_pos {c : UInt8} {a : Nat} (found : busTypeGetAlignment c = some a) : 0 < a := by
  unfold busTypeGetAlignment at found
  split at found
  · rename_i t _
    exact Option.some.inj found ▸ t.alignment_pos
  · split_ifs at found <;> exact Option.some.inj found ▸ by decide

end SystemdPort.Bus
