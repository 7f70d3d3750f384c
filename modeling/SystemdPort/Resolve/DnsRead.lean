/-
# Resolve.DnsRead — reading packets

The calls of `src/resolve/resolved-dns-packet.c` that read names, keys and resource records at the
place `rindex` of a packet.  They look at the bytes in use and at two settings of the packet, and
change only `rindex`, which a failed call leaves where it was.  Memory for what is read is always
there.
-/
import SystemdPort.Basic.Utf8
import SystemdPort.Resolve.DnsRr

namespace SystemdPort.Resolve

set_option autoImplicit false

open Basic Lib.Exec Shared.Dns

/-- What reading looks at. -/
structure DnsMessage where
  protocol : DnsProtocol
  refuseCompression : Bool := false
  /-- The bytes in use; their number is `size`. -/
  bytes : CString

def DnsPacket.message (p : DnsPacket) : DnsMessage := ⟨p.protocol, p.refuseCompression, p.bytes⟩

/-- Calls that move `rindex`. -/
abbrev ReadM := EStateM Errno Nat

/-- `REWINDER_INIT()`: a failed call does not move `rindex`. -/
def rewinding {α : Type} (x : ReadM α) : ReadM α := fun rindex =>
  match x rindex with
  | .ok a after => .ok a after
  | .error e _ => .error e rindex

theorem rewinding_eq_ok {α : Type} {x : ReadM α} {rindex after : Nat} {a : α} :
    rewinding x rindex = .ok a after ↔ x rindex = .ok a after := by
  unfold rewinding
  cases x rindex <;> simp

section Read

variable (msg : DnsMessage)

/-- `dns_packet_read()` -/
def dnsPacketRead (sz : Nat) : ReadM CString := fun rindex =>
  if sz ≤ msg.bytes.length - rindex then .ok ((msg.bytes.drop rindex).take sz) (rindex + sz)
  else .error .emsgsize rindex

variable {msg} in
theorem read_eq_ok {sz rindex after : Nat} {d : CString} (read : dnsPacketRead msg sz rindex = .ok d after) :
    after = rindex + sz ∧ d.length = sz := by
  unfold dnsPacketRead at read
  split at read
  · cases read
    rw [List.length_take, List.length_drop]
    omega
  · cases read

/-- `dns_packet_read_uint8()` -/
def dnsPacketReadUint8 : ReadM UInt8 := do
  let d ← dnsPacketRead msg 1
  return d.getD 0 0

variable {msg} in
theorem readUint8_eq_ok {rindex after : Nat} {c : UInt8} (read : dnsPacketReadUint8 msg rindex = .ok c after) :
    after = rindex + 1 ∧ rindex < msg.bytes.length := by
  obtain ⟨d, rindex₁, read, done⟩ := bind_eq_ok.mp read
  cases done
  unfold dnsPacketRead at read
  split at read
  · cases read
    omega
  · cases read

/-- Numbers in network byte order. -/
def ofBe (d : CString) : Nat := d.foldl (fun n c => n * 256 + c.toNat) 0

/-- `dns_packet_read_uint16()` -/
def dnsPacketReadUint16 : ReadM UInt16 := do
  let d ← dnsPacketRead msg 2
  return UInt16.ofNat (ofBe d)

/-- `dns_packet_read_uint32()` -/
def dnsPacketReadUint32 : ReadM UInt32 := do
  let d ← dnsPacketRead msg 4
  return UInt32.ofNat (ofBe d)

/-- `dns_packet_read_string()` -/
def dnsPacketReadString : ReadM CString :=
  rewinding do
    let c ← dnsPacketReadUint8 msg
    let d ← dnsPacketRead msg c.toNat
    require (0 ∉ d) .ebadmsg
    require (utf8IsValid d) .ebadmsg
    return d

/-- `dns_packet_read_raw_string()` -/
def dnsPacketReadRawString : ReadM CString :=
  rewinding do
    let c ← dnsPacketReadUint8 msg
    dnsPacketRead msg c.toNat

/-! ## Names -/

/-- The place that a pointer stands for. -/
def pointerTarget (c d : UInt8) : Nat := (c &&& 0x3F).toNat * 256 + d.toNat

/-- The loop of `dns_packet_read_name()`. -/
def readNameLoop (allowCompression : Bool) (jumpBarrier afterRindex : Nat) (first : Bool) (name : CString)
    (rindex : Nat) : EStateM.Result Errno Nat CString :=
  match _start : dnsPacketReadUint8 msg rindex with
  | .error e r => .error e r
  | .ok c rindex₁ =>
    -- the end of the name
    if c = 0 then .ok name (if afterRindex ≠ 0 then afterRindex else rindex₁)
    else if c ≤ 63 then
      match _literal : dnsPacketRead msg c.toNat rindex₁ with
      | .error e r => .error e r
      | .ok label rindex₂ =>
        match dnsLabelEscape label dnsLabelEscapedMax with
        | .error e => .error e rindex₂
        | .ok escaped =>
          readNameLoop allowCompression jumpBarrier afterRindex false
            (name ++ (if first then [] else [Shared.Dns.dot]) ++ escaped) rindex₂
    else if allowCompression ∧ c &&& 0xC0 = 0xC0 then
      match dnsPacketReadUint8 msg rindex₁ with
      | .error e r => .error e r
      | .ok d rindex₂ =>
        let ptr := pointerTarget c d
        if ptr < dnsPacketHeaderSize ∨ jumpBarrier ≤ ptr then .error .ebadmsg rindex₂
        else
          -- jumps are limited to a prior occurrence
          readNameLoop allowCompression ptr (if afterRindex = 0 then rindex₂ else afterRindex) first name ptr
    else .error .ebadmsg rindex₁
termination_by jumpBarrier * (msg.bytes.length + 1) + (msg.bytes.length - rindex)
decreasing_by
  · have := readUint8_eq_ok _start
    have := read_eq_ok _literal
    omega
  · have lower : pointerTarget c d + 1 ≤ jumpBarrier := by omega
    have := Nat.mul_le_mul_right (msg.bytes.length + 1) lower
    rw [Nat.add_mul] at this
    omega

/-- `dns_packet_read_name()` -/
def dnsPacketReadName (allowCompression : Bool) : ReadM CString :=
  rewinding fun rindex =>
    readNameLoop msg (allowCompression && !msg.refuseCompression) rindex 0 true [] rindex

/-- The offsets of the labels that are written out at a place, and the pointer behind them. -/
def nameLayout (rindex : Nat) : List Nat × Option Nat :=
  if inside : rindex < msg.bytes.length then
    let c := msg.bytes[rindex]
    if c = 0 then ([], none)
    else if c ≤ 63 then
      let (offsets, pointer) := nameLayout (rindex + 1 + c.toNat)
      (rindex :: offsets, pointer)
    else ([], some (pointerTarget c (msg.bytes.getD (rindex + 1) 0)))
  else ([], none)
termination_by msg.bytes.length - rindex

/-! ## Types -/

/-- `dns_type_is_pseudo()` -/
def dnsTypeIsPseudo (type : Nat) : Bool := type ∈ [0, 255, 252, 251, 41, 250, 249]

/-- The bits of one byte of a window, from the highest. -/
def readTypeBits (window bit : Nat) (b : UInt8) (types : Bitmap) : Bitmap :=
  (List.range 8).foldl (fun types k =>
    if b &&& UInt8.ofNat (2 ^ (7 - k)) ≠ 0 then
      if dnsTypeIsPseudo (window * 256 + bit + k) then types else bitmapSet (window * 256 + bit + k) types
    else types) types

/-- The loop of `dns_packet_read_type_window()`: whether the last byte has a bit, and the types. -/
def readTypeBytes (window : Nat) : CString → (bit : Nat) → (found : Bool) → Bitmap → Bool × Bitmap
  | [], _, found, types => (found, types)
  | b :: bitmap, bit, _, types =>
    if b = 0 then readTypeBytes window bitmap (bit + 8) false types
    else readTypeBytes window bitmap (bit + 8) true (readTypeBits window bit b types)

/-- `dns_packet_read_type_window()` -/
def dnsPacketReadTypeWindow (types : Option Bitmap) : ReadM (Option Bitmap) :=
  rewinding do
    let window ← dnsPacketReadUint8 msg
    let length ← dnsPacketReadUint8 msg
    require (length ≠ 0 ∧ length ≤ 32) .ebadmsg
    let bitmap ← dnsPacketRead msg length.toNat
    let (found, types) := readTypeBytes window.toNat bitmap 0 false (types.getD [])
    require found .ebadmsg
    return some types

variable {msg} in
theorem readTypeWindow_advances {types types' : Option Bitmap} {rindex after : Nat}
    (read : dnsPacketReadTypeWindow msg types rindex = .ok types' after) : rindex < after := by
  rw [dnsPacketReadTypeWindow, rewinding_eq_ok] at read
  obtain ⟨window, rindex₁, first, read⟩ := bind_eq_ok.mp read
  obtain ⟨length, rindex₂, second, read⟩ := bind_eq_ok.mp read
  obtain ⟨_, read⟩ := require_bind_eq_ok.mp read
  obtain ⟨bitmap, rindex₃, third, read⟩ := bind_eq_ok.mp read
  obtain ⟨_, read⟩ := require_bind_eq_ok.mp read
  cases read
  have := readUint8_eq_ok first
  have := readUint8_eq_ok second
  have := read_eq_ok third
  omega

/-- The loop of `dns_packet_read_type_windows()`, which began at `saved`. -/
def readTypeWindowsLoop (saved size : Nat) (types : Option Bitmap) (rindex : Nat) :
    EStateM.Result Errno Nat (Option Bitmap) :=
  if rindex - saved < size then
    match _read : dnsPacketReadTypeWindow msg types rindex with
    | .error e r => .error e r
    | .ok types after =>
      -- not past the end of the record
      if size < after - saved then .error .ebadmsg after else readTypeWindowsLoop saved size types after
  else if rindex - saved ≠ size then .error .ebadmsg rindex
  else .ok types rindex
termination_by saved + size - rindex
decreasing_by
  have := readTypeWindow_advances _read
  omega

/-- `dns_packet_read_type_windows()` -/
def dnsPacketReadTypeWindows (size : Nat) : ReadM (Option Bitmap) :=
  rewinding fun rindex => readTypeWindowsLoop msg rindex size none rindex

/-! ## Records -/

/-- `dns_packet_read_key()`; the second part of the result is `ret_cache_flush_or_qu`. -/
def dnsPacketReadKey : ReadM (DnsResourceKey × Bool) :=
  rewinding do
    let name ← dnsPacketReadName msg true
    let type ← dnsPacketReadUint16 msg
    let «class» ← dnsPacketReadUint16 msg
    if msg.protocol = .mdns ∧ type ≠ dnsTypeOpt ∧ «class» &&& mdnsRrCacheFlushOrQu ≠ 0 then
      return (⟨«class» &&& ~~~mdnsRrCacheFlushOrQu, type, name⟩, true)
    else return (⟨«class», type, name⟩, false)

/-- `loc_size_ok()` -/
def locSizeOk (size : UInt8) : Bool :=
  let m := size >>> 4
  let e := size &&& 0xF
  m ≤ 9 && e ≤ 9 && (0 < m || e == 0)

/-- `dns_class_is_valid_rr()` -/
def dnsClassIsValidRr («class» : UInt16) : Bool := «class» ≠ 255

/-- `dns_type_is_valid_rr()` -/
def dnsTypeIsValidRr (type : UInt16) : Bool := type ≠ 255 ∧ type ≠ 252 ∧ type ≠ 251

def Block.ofBytes (n : Nat) (d : CString) : Block n := if whole : d.length = n then ⟨d, whole⟩ else Block.zero n

/-- Data that must not be empty.  Where it cannot be read, its size is still 0. -/
def readNonempty (size : Nat) : ReadM CString := fun rindex =>
  match dnsPacketRead msg size rindex with
  | .error _ r => .error .ebadmsg r
  | .ok d r => if d = [] then .error .ebadmsg r else .ok d r

variable {msg} in
theorem readRawString_advances {rindex after : Nat} {d : CString}
    (read : dnsPacketReadRawString msg rindex = .ok d after) : rindex < after := by
  rw [dnsPacketReadRawString, rewinding_eq_ok] at read
  obtain ⟨c, rindex₁, first, second⟩ := bind_eq_ok.mp read
  have := readUint8_eq_ok first
  have := read_eq_ok second
  omega

/-- The items of a TXT record, which begins at `offset`. -/
def readTxtLoop (offset rdlength : Nat) (items : List CString) (rindex : Nat) :
    EStateM.Result Errno Nat (List CString) :=
  if rindex - offset < rdlength then
    match _read : dnsPacketReadRawString msg rindex with
    | .error e r => .error e r
    | .ok data after => readTxtLoop offset rdlength (items ++ [data]) after
  else .ok items rindex
termination_by offset + rdlength - rindex
decreasing_by
  have := readRawString_advances _read
  omega

/-- The rest of the data of a record, from `rindex` on. -/
def readRest {α : Type} (offset rdlength : Nat) (read : Nat → ReadM α) : ReadM α := do
  let rindex ← get
  require (rindex - offset ≤ rdlength) .ebadmsg
  read (offset + rdlength - rindex)

/-- The data of a record of a type that is not known, or that cannot be read otherwise. -/
def readGeneric (rr : DnsResourceRecord) (rdlength : Nat) : ReadM DnsResourceRecord := do
  let data ← dnsPacketRead msg rdlength
  return { rr with generic := data }

/-- The data of a LOC record of version 0, behind the version. -/
def readLoc (rr : DnsResourceRecord) : ReadM DnsResourceRecord := do
  let size ← dnsPacketReadUint8 msg
  require (locSizeOk size) .ebadmsg
  let horizPre ← dnsPacketReadUint8 msg
  require (locSizeOk horizPre) .ebadmsg
  let vertPre ← dnsPacketReadUint8 msg
  require (locSizeOk vertPre) .ebadmsg
  let latitude ← dnsPacketReadUint32 msg
  let longitude ← dnsPacketReadUint32 msg
  let altitude ← dnsPacketReadUint32 msg
  return { rr with loc := { version := 0, size, horizPre, vertPre, latitude, longitude, altitude } }

/-- The switch of `dns_packet_read_rr()`; the data has `rdlength` bytes and begins at `offset`. -/
def readRdata (rr : DnsResourceRecord) (offset rdlength : Nat) : ReadM DnsResourceRecord :=
  match rdataKind rr.key.type with
  | .srv => do
      let priority ← dnsPacketReadUint16 msg
      let weight ← dnsPacketReadUint16 msg
      let port ← dnsPacketReadUint16 msg
      let name ← dnsPacketReadName msg true
      return { rr with srv := { priority, weight, port, name } }
  | .ptr => do
      let name ← dnsPacketReadName msg true
      return { rr with ptr := name }
  | .hinfo => do
      let cpu ← dnsPacketReadString msg
      let os ← dnsPacketReadString msg
      return { rr with hinfo := { cpu, os } }
  | .txt => do
      if rdlength = 0 then return { rr with txt := [[]] }
      else
        let items ← readTxtLoop msg offset rdlength []
        return { rr with txt := items }
  | .a => do
      let addr ← dnsPacketRead msg 4
      return { rr with a := Block.ofBytes 4 addr }
  | .aaaa => do
      let addr ← dnsPacketRead msg 16
      return { rr with aaaa := Block.ofBytes 16 addr }
  | .soa => do
      let mname ← dnsPacketReadName msg true
      let rname ← dnsPacketReadName msg true
      let serial ← dnsPacketReadUint32 msg
      let refresh ← dnsPacketReadUint32 msg
      let retry ← dnsPacketReadUint32 msg
      let expire ← dnsPacketReadUint32 msg
      let minimum ← dnsPacketReadUint32 msg
      return { rr with soa := { mname, rname, serial, refresh, retry, expire, minimum } }
  | .mx => do
      let priority ← dnsPacketReadUint16 msg
      let exchange ← dnsPacketReadName msg true
      return { rr with mx := { priority, exchange } }
  | .loc => do
      let pos ← get
      let version ← dnsPacketReadUint8 msg
      if version = 0 then readLoc msg rr
      else
        set pos
        readGeneric msg { rr with unparsable := true } rdlength
  | .ds => do
      let keyTag ← dnsPacketReadUint16 msg
      let algorithm ← dnsPacketReadUint8 msg
      let digestType ← dnsPacketReadUint8 msg
      require (4 ≤ rdlength) .ebadmsg
      let digest ← dnsPacketRead msg (rdlength - 4)
      require (digest ≠ []) .ebadmsg
      return { rr with ds := { keyTag, algorithm, digestType, digest } }
  | .sshfp => do
      let algorithm ← dnsPacketReadUint8 msg
      let fptype ← dnsPacketReadUint8 msg
      require (2 ≤ rdlength) .ebadmsg
      let fingerprint ← readNonempty msg (rdlength - 2)
      return { rr with sshfp := { algorithm, fptype, fingerprint } }
  | .dnskey => do
      let flags ← dnsPacketReadUint16 msg
      let protocol ← dnsPacketReadUint8 msg
      let algorithm ← dnsPacketReadUint8 msg
      require (4 ≤ rdlength) .ebadmsg
      let key ← readNonempty msg (rdlength - 4)
      return { rr with dnskey := { flags, protocol, algorithm, key } }
  | .rrsig => do
      let typeCovered ← dnsPacketReadUint16 msg
      let algorithm ← dnsPacketReadUint8 msg
      let labels ← dnsPacketReadUint8 msg
      let originalTtl ← dnsPacketReadUint32 msg
      let expiration ← dnsPacketReadUint32 msg
      let inception ← dnsPacketReadUint32 msg
      let keyTag ← dnsPacketReadUint16 msg
      let signer ← dnsPacketReadName msg false
      let signature ← readRest offset rdlength (readNonempty msg)
      return { rr with
        rrsig := { typeCovered, algorithm, labels, originalTtl, expiration, inception, keyTag, signer, signature } }
  | .nsec => do
      -- multicast DNS compresses these names as well
      let nextDomainName ← dnsPacketReadName msg (msg.protocol = .mdns)
      let types ← readRest offset rdlength (dnsPacketReadTypeWindows msg)
      return { rr with nsec := { nextDomainName, types } }
  | .nsec3 => do
      let algorithm ← dnsPacketReadUint8 msg
      let flags ← dnsPacketReadUint8 msg
      let iterations ← dnsPacketReadUint16 msg
      let saltSize ← dnsPacketReadUint8 msg
      let salt ← dnsPacketRead msg saltSize.toNat
      let size ← dnsPacketReadUint8 msg
      require (size ≠ 0) .ebadmsg
      let nextHashedName ← dnsPacketRead msg size.toNat
      let types ← readRest offset rdlength (dnsPacketReadTypeWindows msg)
      return { rr with nsec3 := { algorithm, flags, iterations, salt, nextHashedName, types } }
  | .tlsa => do
      let certUsage ← dnsPacketReadUint8 msg
      let selector ← dnsPacketReadUint8 msg
      let matchingType ← dnsPacketReadUint8 msg
      require (3 ≤ rdlength) .ebadmsg
      let data ← readNonempty msg (rdlength - 3)
      return { rr with tlsa := { certUsage, selector, matchingType, data } }
  | .caa => do
      let flags ← dnsPacketReadUint8 msg
      let tag ← dnsPacketReadString msg
      let value ← readRest offset rdlength (dnsPacketRead msg)
      return { rr with caa := { flags, tag, value } }
  | .generic => readGeneric msg rr rdlength

/-- `dns_packet_read_rr()`; the second part of the result is `ret_cache_flush`. -/
def dnsPacketReadRr : ReadM (DnsResourceRecord × Bool) :=
  rewinding do
    let (key, cacheFlush) ← dnsPacketReadKey msg
    require (dnsClassIsValidRr key.class ∧ dnsTypeIsValidRr key.type) .ebadmsg
    let ttl ← dnsPacketReadUint32 msg
    -- a TTL with the highest bit set is one of 0, except in an OPT record
    let ttl := if key.type ≠ dnsTypeOpt ∧ ttl &&& 0x80000000 ≠ 0 then 0 else ttl
    let rdlength ← dnsPacketReadUint16 msg
    let offset ← get
    require (rdlength.toNat ≤ msg.bytes.length - offset) .ebadmsg
    let rr ← readRdata msg { key, ttl } offset rdlength.toNat
    let rindex ← get
    require (rindex - offset = rdlength.toNat) .ebadmsg
    return (rr, cacheFlush)

end Read

end SystemdPort.Resolve
