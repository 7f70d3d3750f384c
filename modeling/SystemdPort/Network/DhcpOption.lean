/-
# Network.DhcpOption — the options of a DHCP message

`src/libsystemd-network/dhcp-option.c`: appending an option to a message, which has up to
three areas for them, and parsing the options of a message.

An area is an array of bytes; writing outside of it is a fault, as is an assertion that
fails.  What an option points to depends on its code.
-/
import SystemdPort.Basic.Errno
import SystemdPort.Basic.StringUtil
import SystemdPort.Lib.Bytes
import SystemdPort.Lib.Exec

namespace SystemdPort.Network

open Basic Lib Lib.Exec

set_option autoImplicit false

/-! ## Codes -/

namespace DhcpCode

def pad : UInt8 := 0
def vendorSpecific : UInt8 := 43
def overload : UInt8 := 52
def messageType : UInt8 := 53
def errorMessage : UInt8 := 56
def userClass : UInt8 := 77
def relayAgentInformation : UInt8 := 82
def sipServer : UInt8 := 120
def «end» : UInt8 := 255

/-- The codes that `dhcp_option_append()` or `dhcp_option_parse()` treat in a way of their own. -/
def special : List UInt8 :=
  [pad, vendorSpecific, overload, messageType, errorMessage, userClass, relayAgentInformation,
    sipServer, «end»]

end DhcpCode

def relayAgentCircuitId : UInt8 := 1
def relayAgentRemoteId : UInt8 := 2

/-- What `optval` points to. -/
inductive OptionValue where
  | bytes (v : List UInt8)
  /-- An strv. -/
  | strings (l : List CString)
  /-- A set of options, each with its code. -/
  | options (l : List (UInt8 × List UInt8))
  /-- A server with the identifiers of a relay agent. -/
  | relay (agentCircuitId agentRemoteId : Option CString)

inductive DhcpFailure where
  | errno (e : Errno)
  | assertion
  | outOfBounds
  /-- A pointer to something else than the code says. -/
  | badCast
  deriving DecidableEq

/-! ## Areas -/

/-- An array of `n` bytes. -/
structure Area (n : Nat) where
  bytes : List UInt8
  size : bytes.length = n

def Area.write {n : Nat} (a : Area n) (pos : Nat) (new : List UInt8) (inside : pos + new.length ≤ n) : Area n :=
  ⟨overwrite 0 a.bytes pos new, (length_overwrite 0 (a.size.symm ▸ inside)).trans a.size⟩

/-- An area, and the offset that options are written at. -/
structure Cursor (n : Nat) where
  area : Area n
  offset : Nat

abbrev AreaM (n : Nat) := EStateM DhcpFailure (Cursor n)

section Append

variable {n : Nat}

def writeBytes (pos : Nat) (new : List UInt8) : AreaM n PUnit := do
  let c ← get
  if inside : pos + new.length ≤ n then set { c with area := c.area.write pos new inside }
  else throw .outOfBounds

def moveOffset (offset : Nat) : AreaM n PUnit := modify fun c => { c with offset }

/-- Writes an option at `offset`; the result is the offset behind it. -/
def dhcpOptionAppendTlv (size offset : Nat) (code : UInt8) (optval : List UInt8) : AreaM n Nat := do
  require (0 < size) .assertion
  require (optval.length ≤ 255) .assertion
  require (offset < size) .assertion
  require (offset + 2 + optval.length ≤ size) (.errno .enobufs)
  writeBytes offset [code]
  writeBytes (offset + 1) [optval.length.toUInt8]
  writeBytes (offset + 2) optval
  pure (offset + 2 + optval.length)

/-- The strings of a user class, each behind its length. -/
def appendStrings : List CString → AreaM n PUnit
  | [] => pure ⟨⟩
  | s :: l => do
      let c ← get
      writeBytes c.offset [s.length.toUInt8]
      writeBytes (c.offset + 1) s
      moveOffset (c.offset + 1 + s.length)
      appendStrings l

def appendUserClass (size : Nat) (l : List CString) : AreaM n PUnit := do
  let c ← get
  require (l ≠ []) (.errno .einval)
  require (∀ s ∈ l, s.length ≤ 255 ∧ s ≠ []) (.errno .einval)
  let total := (l.map fun s => 1 + s.length).sum
  require (c.offset + 2 + total ≤ size) (.errno .enobufs)
  writeBytes c.offset [DhcpCode.userClass]
  writeBytes (c.offset + 1) [total.toUInt8]
  moveOffset (c.offset + 2)
  appendStrings l

def appendSipServer (size : Nat) (optval : List UInt8) : AreaM n PUnit := do
  let c ← get
  require (c.offset + 3 + optval.length ≤ size) (.errno .enobufs)
  writeBytes c.offset [DhcpCode.sipServer]
  writeBytes (c.offset + 1) [(optval.length + 1).toUInt8]
  writeBytes (c.offset + 2) [1]
  writeBytes (c.offset + 3) optval
  moveOffset (c.offset + 3 + optval.length)

def appendSubOptions (size : Nat) : List (UInt8 × List UInt8) → AreaM n PUnit
  | [] => pure ⟨⟩
  | p :: l => do
      let c ← get
      let offset ← dhcpOptionAppendTlv size c.offset p.1 p.2
      moveOffset offset
      appendSubOptions size l

def appendVendorSpecific (size : Nat) (l : List (UInt8 × List UInt8)) : AreaM n PUnit := do
  let c ← get
  let length := (l.map fun p => p.2.length + 2).sum
  require (c.offset + length + 2 ≤ size) (.errno .enobufs)
  writeBytes c.offset [DhcpCode.vendorSpecific]
  writeBytes (c.offset + 1) [length.toUInt8]
  moveOffset (c.offset + 2)
  appendSubOptions size l

/-- A sub-option that there may be. -/
def appendAgentId (size offset : Nat) (code : UInt8) : Option CString → AreaM n Nat
  | none => pure offset
  | some s => dhcpOptionAppendTlv size offset code s

def appendRelayAgent (size : Nat) (agentCircuitId agentRemoteId : Option CString) : AreaM n PUnit := do
  let c ← get
  let offset ← appendAgentId size (c.offset + 2) relayAgentCircuitId agentCircuitId
  let offset ← appendAgentId size offset relayAgentRemoteId agentRemoteId
  writeBytes c.offset [DhcpCode.relayAgentInformation]
  writeBytes (c.offset + 1) [(offset - c.offset - 2).toUInt8]
  require (offset - c.offset - 2 ≤ 255) .assertion
  moveOffset offset

/-- An option without a value. -/
def appendCode (size : Nat) (code : UInt8) : AreaM n PUnit := do
  let c ← get
  require (c.offset + 1 ≤ size) (.errno .enobufs)
  writeBytes c.offset [code]
  moveOffset (c.offset + 1)

/-- `option_append()`, to an area of `n` bytes. -/
def optionAppend (code : UInt8) (optval : OptionValue) : AreaM n PUnit := do
  require (0 < n) .assertion
  -- always make sure there is space for an END option
  let size := if code = DhcpCode.end then n else n - 1
  if code = DhcpCode.pad ∨ code = DhcpCode.end then appendCode size code
  else if code = DhcpCode.userClass then
    match optval with
    | .strings l => appendUserClass size l
    | _ => throw .badCast
  else if code = DhcpCode.sipServer then
    match optval with
    | .bytes v => appendSipServer size v
    | _ => throw .badCast
  else if code = DhcpCode.vendorSpecific then
    match optval with
    | .options l => appendVendorSpecific size l
    | _ => throw .badCast
  else if code = DhcpCode.relayAgentInformation then
    match optval with
    | .relay agentCircuitId agentRemoteId => appendRelayAgent size agentCircuitId agentRemoteId
    | _ => throw .badCast
  else
    match optval with
    | .bytes v => do
        let c ← get
        let offset ← dhcpOptionAppendTlv size c.offset code v
        moveOffset offset
    | _ => throw .badCast

/-! ## Messages -/

/-- The parts of a message that options are written to. -/
structure DhcpMessage (n : Nat) where
  sname : Area 64
  file : Area 128
  options : Area n

/-- A message, and the offset, which counts through all areas in use. -/
structure Packet (n : Nat) where
  message : DhcpMessage n
  offset : Nat

abbrev DhcpM (n : Nat) := EStateM DhcpFailure (Packet n)

/-- `overload & DHCP_OVERLOAD_FILE` -/
def useFile (overload : UInt8) : Bool := overload &&& 1 ≠ 0

/-- `overload & DHCP_OVERLOAD_SNAME` -/
def useSname (overload : UInt8) : Bool := overload &&& 2 ≠ 0

/-- Calls `option_append()` on one of the areas; its error is a result. -/
def onArea {k : Nat} (area : Area k) (offset : Nat) (store : Cursor k → Packet n → Packet n) (x : AreaM k PUnit) :
    DhcpM n (Except Errno Nat) := do
  match x ⟨area, offset⟩ with
  | .ok _ c => do
      modify (store c)
      pure (.ok c.offset)
  | .error (.errno e) c => do
      modify (store c)
      pure (.error e)
  | .error e c => do
      modify (store c)
      throw e

/-- On `message->options`, with the offset of the caller. -/
def onOptions (x : AreaM n PUnit) : DhcpM n (Except Errno Nat) := do
  let p ← get
  onArea p.message.options p.offset (fun c p => ⟨{ p.message with options := c.area }, c.offset⟩) x

/-- On `message->file`, with an offset of its own. -/
def onFile (offset : Nat) (x : AreaM 128 PUnit) : DhcpM n (Except Errno Nat) := do
  let p ← get
  onArea p.message.file offset (fun c p => { p with message.file := c.area }) x

def onSname (offset : Nat) (x : AreaM 64 PUnit) : DhcpM n (Except Errno Nat) := do
  let p ← get
  onArea p.message.sname offset (fun c p => { p with message.sname := c.area }) x

def setOffset (offset : Nat) : DhcpM n PUnit := modify fun p => { p with offset }

/-- The end of the option area, as an option. -/
def endOption {k : Nat} : AreaM k PUnit := optionAppend DhcpCode.end (.bytes [])

/-- The last part of `dhcp_option_append()`; `start` is where the area starts. -/
def appendToSname (start : Nat) (code : UInt8) (optval : OptionValue) : DhcpM n (Except Errno PUnit) := do
  let p ← get
  if p.offset - start < 64 then
    match ← onSname (p.offset - start) (optionAppend code optval) with
    | .ok offset => do
        setOffset (start + offset)
        pure (.ok ⟨⟩)
    | .error e => pure (.error e)
  else pure (.error .enobufs)

/-- The part of `dhcp_option_append()` that comes behind the options area. -/
def appendToFile (overload : UInt8) (code : UInt8) (optval : OptionValue) : DhcpM n (Except Errno PUnit) := do
  let p ← get
  if p.offset - n < 128 then
    match ← onFile (p.offset - n) (optionAppend code optval) with
    | .ok offset => do
        setOffset (n + offset)
        pure (.ok ⟨⟩)
    | .error e =>
      if e = .enobufs ∧ useSname overload then do
        -- did not fit, but there is one more buffer to try
        match ← onFile (p.offset - n) endOption with
        | .error e => pure (.error e)
        | .ok _ => do
            setOffset (n + 128)
            appendToSname (n + 128) code optval
      else pure (.error e)
  else if useSname overload then appendToSname (n + 128) code optval
  else pure (.error .enobufs)

/-- What `dhcp_option_append()` does once the options area is full. -/
def appendOverloaded (overload : UInt8) (code : UInt8) (optval : OptionValue) : DhcpM n (Except Errno PUnit) :=
  if useFile overload then appendToFile overload code optval
  else if useSname overload then appendToSname n code optval
  else pure (.error .enobufs)

def dhcpOptionAppend (overload : UInt8) (code : UInt8) (optval : OptionValue) : DhcpM n (Except Errno PUnit) := do
  let p ← get
  if p.offset < n then
    match ← onOptions (optionAppend code optval) with
    | .ok _ => pure (.ok ⟨⟩)
    | .error e =>
      if e = .enobufs ∧ (useFile overload ∨ useSname overload) then do
        -- did not fit, but there are more buffers to try
        match ← onOptions endOption with
        | .error e => pure (.error e)
        | .ok _ => do
            setOffset n
            appendOverloaded overload code optval
      else pure (.error e)
  else appendOverloaded overload code optval

end Append

/-! ## Parsing -/

/-- What the pointers of `parse_options()` point to, and the calls of the callback so far. -/
structure ParseState where
  overload : UInt8 := 0
  messageType : UInt8 := 0
  errorMessage : Option CString := none
  reported : List (UInt8 × List UInt8) := []

abbrev ParseM := EStateM Errno ParseState

def asciiIsValid (s : CString) : Bool := s.all (· < 128)

section Parse

variable (memory : Bool)

/-- The error message, of which the last byte may be NUL. -/
def parseErrorMessage (option : List UInt8) : ParseM PUnit := do
  require (option ≠ []) .einval
  require (0 ∉ option.dropLast) .einval
  require (memory = true) .enomem
  let string := option.takeWhile (· ≠ 0)
  require (asciiIsValid string = true) .einval
  modify fun st => { st with errorMessage := some string }

/-- One option; `withOverload` tells whether the caller wants to know of overloading. -/
def parseOption (withOverload : Bool) (code : UInt8) (option : List UInt8) : ParseM PUnit :=
  if code = DhcpCode.messageType then do
    require (option.length = 1) .einval
    modify fun st => { st with messageType := option.headD 0 }
  else if code = DhcpCode.errorMessage then parseErrorMessage memory option
  else if code = DhcpCode.overload then do
    require (option.length = 1) .einval
    modify fun st => if withOverload then { st with overload := option.headD 0 } else st
  else modify fun st => { st with reported := st.reported ++ [(code, option)] }

/-- `parse_options()`, on what is left of the buffer; the counter bounds the rounds. -/
def parseOptionsLoop (withOverload : Bool) : Nat → List UInt8 → ParseM PUnit
  | _, [] => pure ⟨⟩
  | 0, _ :: _ => throw .einval
  | k + 1, code :: rest =>
    if code = DhcpCode.pad then parseOptionsLoop withOverload k rest
    else if code = DhcpCode.end then pure ⟨⟩
    else
      match rest with
      | [] => throw .enobufs
      | len :: rest => do
          require (len.toNat ≤ rest.length) .einval
          parseOption memory withOverload code (rest.take len.toNat)
          parseOptionsLoop withOverload k (rest.drop len.toNat)

def parseOptions (withOverload : Bool) (options : List UInt8) : ParseM PUnit :=
  parseOptionsLoop memory withOverload options.length options

/-- An area that is parsed if it is in use. -/
def parseIfUsed (used : Bool) (area : List UInt8) : ParseM PUnit :=
  if used then parseOptions memory false area else pure ⟨⟩

/-- `sizeof(DHCPMessage)` -/
def dhcpHeaderSize : Nat := 240

/-- `dhcp_option_parse()` of a message of `len` bytes; the error message is for the types
NAK and DECLINE. -/
def dhcpOptionParse {n : Nat} (message : DhcpMessage n) (len : Nat) : ParseM (UInt8 × Option CString) := do
  require (dhcpHeaderSize ≤ len) .einval
  parseOptions memory true (message.options.bytes.take (len - dhcpHeaderSize))
  let st ← get
  parseIfUsed memory (useFile st.overload) message.file.bytes
  parseIfUsed memory (useSname st.overload) message.sname.bytes
  let st ← get
  require (st.messageType ≠ 0) .enomsg
  pure (st.messageType, if st.messageType = 6 ∨ st.messageType = 4 then st.errorMessage else none)

end Parse

end SystemdPort.Network
