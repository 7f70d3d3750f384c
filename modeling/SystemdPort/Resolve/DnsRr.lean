/-
# Resolve.DnsRr — appending resource records

The resource records of `src/resolve/resolved-dns-rr.h` and the calls of
`src/resolve/resolved-dns-packet.c` that append them.  The union of the data of a record is one
field for each of its members, of which the type of the record says which one counts.

What `dns_packet_append_rr()` appends for each type is a list of `Piece`s, one for each call it
makes.  Names are returned with the offsets that their calls store in `start`.
-/
import SystemdPort.Resolve.DnsPacket

namespace SystemdPort.Resolve

set_option autoImplicit false

open Basic Lib.Exec Shared.Dns

structure DnsResourceKey where
  «class» : UInt16
  type : UInt16
  name : CString
  deriving DecidableEq

/-- `dns_resource_key_name()` -/
def dnsResourceKeyName (key : DnsResourceKey) : CString := if dnsNameIsRoot key.name then [dot] else key.name

/-- The numbers in a bitmap, from the smallest to the largest. -/
abbrev Bitmap := List Nat

/-- `bitmap_set()` -/
def bitmapSet (n : Nat) : Bitmap → Bitmap
  | [] => [n]
  | m :: b => if n < m then n :: m :: b else if n = m then m :: b else m :: bitmapSet n b

/-- Memory of a fixed size. -/
abbrev Block (n : Nat) := { d : CString // d.length = n }

theorem Block.length_zeros (n : Nat) : (List.replicate n (0 : UInt8)).length = n := List.length_replicate

def Block.zero (n : Nat) : Block n := ⟨List.replicate n 0, Block.length_zeros n⟩

structure SrvData where
  priority : UInt16 := 0
  weight : UInt16 := 0
  port : UInt16 := 0
  name : CString := []
  deriving DecidableEq

structure HinfoData where
  cpu : CString := []
  os : CString := []
  deriving DecidableEq

structure SoaData where
  mname : CString := []
  rname : CString := []
  serial : UInt32 := 0
  refresh : UInt32 := 0
  retry : UInt32 := 0
  expire : UInt32 := 0
  minimum : UInt32 := 0
  deriving DecidableEq

structure MxData where
  priority : UInt16 := 0
  exchange : CString := []
  deriving DecidableEq

structure LocData where
  version : UInt8 := 0
  size : UInt8 := 0
  horizPre : UInt8 := 0
  vertPre : UInt8 := 0
  latitude : UInt32 := 0
  longitude : UInt32 := 0
  altitude : UInt32 := 0
  deriving DecidableEq

structure DsData where
  keyTag : UInt16 := 0
  algorithm : UInt8 := 0
  digestType : UInt8 := 0
  digest : CString := []
  deriving DecidableEq

structure SshfpData where
  algorithm : UInt8 := 0
  fptype : UInt8 := 0
  fingerprint : CString := []
  deriving DecidableEq

structure DnskeyData where
  flags : UInt16 := 0
  protocol : UInt8 := 0
  algorithm : UInt8 := 0
  key : CString := []
  deriving DecidableEq

structure RrsigData where
  typeCovered : UInt16 := 0
  algorithm : UInt8 := 0
  labels : UInt8 := 0
  originalTtl : UInt32 := 0
  expiration : UInt32 := 0
  inception : UInt32 := 0
  keyTag : UInt16 := 0
  signer : CString := []
  signature : CString := []
  deriving DecidableEq

structure NsecData where
  nextDomainName : CString := []
  types : Option Bitmap := none
  deriving DecidableEq

structure Nsec3Data where
  algorithm : UInt8 := 0
  flags : UInt8 := 0
  iterations : UInt16 := 0
  salt : CString := []
  nextHashedName : CString := []
  types : Option Bitmap := none
  deriving DecidableEq

structure TlsaData where
  certUsage : UInt8 := 0
  selector : UInt8 := 0
  matchingType : UInt8 := 0
  data : CString := []
  deriving DecidableEq

structure CaaData where
  flags : UInt8 := 0
  tag : CString := []
  value : CString := []
  deriving DecidableEq

structure DnsResourceRecord where
  key : DnsResourceKey
  ttl : UInt32 := 0
  unparsable : Bool := false
  generic : CString := []
  srv : SrvData := {}
  /-- The name of a PTR, NS, CNAME or DNAME record. -/
  ptr : CString := []
  hinfo : HinfoData := {}
  txt : List CString := []
  a : Block 4 := Block.zero 4
  aaaa : Block 16 := Block.zero 16
  soa : SoaData := {}
  mx : MxData := {}
  loc : LocData := {}
  ds : DsData := {}
  sshfp : SshfpData := {}
  dnskey : DnskeyData := {}
  rrsig : RrsigData := {}
  nsec : NsecData := {}
  nsec3 : Nsec3Data := {}
  tlsa : TlsaData := {}
  caa : CaaData := {}
  deriving DecidableEq

/-- The cases in which the data of a record is read and written. -/
inductive RdataKind where
  | srv | ptr | hinfo | txt | a | aaaa | soa | mx | loc | ds | sshfp | dnskey | rrsig | nsec | nsec3 | tlsa | caa
  | generic
  deriving DecidableEq

def rdataKind (type : UInt16) : RdataKind :=
  match type.toNat with
  | 33 => .srv
  | 12 | 2 | 5 | 39 => .ptr
  | 13 => .hinfo
  | 99 | 16 => .txt
  | 1 => .a
  | 28 => .aaaa
  | 6 => .soa
  | 15 => .mx
  | 29 => .loc
  | 43 => .ds
  | 44 => .sshfp
  | 48 => .dnskey
  | 46 => .rrsig
  | 47 => .nsec
  | 50 => .nsec3
  | 52 => .tlsa
  | 257 => .caa
  | _ => .generic

/-- `DNS_TYPE_OPT` -/
def dnsTypeOpt : UInt16 := 41

/-- `MDNS_RR_CACHE_FLUSH_OR_QU` -/
def mdnsRrCacheFlushOrQu : UInt16 := 0x8000

/-- The flags of `DnsAnswerFlags` that matter here. -/
structure DnsAnswerFlags where
  cacheFlush : Bool := false
  goodbye : Bool := false

section Append

variable (env : Env)

/-- `dns_packet_append_key()` -/
def dnsPacketAppendKey (k : DnsResourceKey) (flags : DnsAnswerFlags) : PacketM Nat := do
  let p ← get
  orTruncate p.size do
    let _ ← dnsPacketAppendName env (dnsResourceKeyName k) true true
    let _ ← dnsPacketAppendUint16 env k.type
    let _ ← dnsPacketAppendUint16 env (if flags.cacheFlush then k.class ||| mdnsRrCacheFlushOrQu else k.class)
  return p.size

/-- `dns_packet_append_type_window()` -/
def dnsPacketAppendTypeWindow (window length : Nat) (types : CString) : PacketM PUnit := do
  let p ← get
  orTruncate p.size do
    let _ ← dnsPacketAppendUint8 env (UInt8.ofNat window)
    let _ ← dnsPacketAppendUint8 env (UInt8.ofNat length)
    let _ ← dnsPacketAppendBlob env (types.take length)

/-- A window is appended if it has a type in it. -/
def appendFilledWindow (filled : Bool) (window entry : Nat) (bitmaps : CString) : PacketM PUnit :=
  if filled then dnsPacketAppendTypeWindow env window (entry / 8 + 1) bitmaps else pure ⟨⟩

/-- The loop of `dns_packet_append_types()`, and what is done behind it. -/
def appendTypesLoop : Bitmap → (window entry : Nat) → (bitmaps : CString) → PacketM PUnit
  | [], window, entry, bitmaps => appendFilledWindow env (bitmaps.getD (entry / 8) 0 ≠ 0) window entry bitmaps
  | n :: types, window, entry, bitmaps => do
      let filled : Bool := n / 256 ≠ window ∧ bitmaps.getD (entry / 8) 0 ≠ 0
      appendFilledWindow env filled window entry bitmaps
      let bitmaps := if filled then List.replicate 32 0 else bitmaps
      appendTypesLoop types (n / 256) (n % 256)
        (bitmaps.set (n % 256 / 8) (bitmaps.getD (n % 256 / 8) 0 ||| UInt8.ofNat (2 ^ (7 - n % 8))))

/-- `dns_packet_append_types()` -/
def dnsPacketAppendTypes (types : Bitmap) : PacketM PUnit := do
  let p ← get
  orTruncate p.size (appendTypesLoop env types 0 0 (List.replicate 32 0))

/-- The calls that append the data of a record. -/
inductive Piece where
  | uint8 (v : UInt8)
  | uint16 (v : UInt16)
  | uint32 (v : UInt32)
  | blob (d : CString)
  | string (s : CString)
  | name (name : CString) (allowCompression canonicalCandidate : Bool)
  | types (types : Bitmap)

/-- One call; names are returned with their offsets. -/
def Piece.append : Piece → PacketM (List (Nat × CString))
  | .uint8 v => do
      let _ ← dnsPacketAppendUint8 env v
      return []
  | .uint16 v => do
      let _ ← dnsPacketAppendUint16 env v
      return []
  | .uint32 v => do
      let _ ← dnsPacketAppendUint32 env v
      return []
  | .blob d => do
      let _ ← dnsPacketAppendBlob env d
      return []
  | .string s => do
      let _ ← dnsPacketAppendString env s
      return []
  | .name n allowCompression canonicalCandidate => do
      let start ← dnsPacketAppendName env n allowCompression canonicalCandidate
      return [(start, n)]
  | .types b => do
      dnsPacketAppendTypes env b
      return []

def appendPieces : List Piece → PacketM (List (Nat × CString))
  | [] => return []
  | piece :: pieces => do
      let names ← piece.append env
      let more ← appendPieces pieces
      return names ++ more

/-- What `dns_packet_append_rr()` appends in each case of its switch. -/
def rdataPieces (rr : DnsResourceRecord) : List Piece :=
  match if rr.unparsable then .generic else rdataKind rr.key.type with
  | .srv => [.uint16 rr.srv.priority, .uint16 rr.srv.weight, .uint16 rr.srv.port, .name rr.srv.name false true]
  | .ptr => [.name rr.ptr true true]
  | .hinfo => [.string rr.hinfo.cpu, .string rr.hinfo.os]
  | .txt => if rr.txt = [] then [.string []] else rr.txt.map .string
  | .a => [.blob rr.a.val]
  | .aaaa => [.blob rr.aaaa.val]
  | .soa =>
    [.name rr.soa.mname true true, .name rr.soa.rname true true, .uint32 rr.soa.serial, .uint32 rr.soa.refresh,
      .uint32 rr.soa.retry, .uint32 rr.soa.expire, .uint32 rr.soa.minimum]
  | .mx => [.uint16 rr.mx.priority, .name rr.mx.exchange true true]
  | .loc =>
    [.uint8 rr.loc.version, .uint8 rr.loc.size, .uint8 rr.loc.horizPre, .uint8 rr.loc.vertPre,
      .uint32 rr.loc.latitude, .uint32 rr.loc.longitude, .uint32 rr.loc.altitude]
  | .ds => [.uint16 rr.ds.keyTag, .uint8 rr.ds.algorithm, .uint8 rr.ds.digestType, .blob rr.ds.digest]
  | .sshfp => [.uint8 rr.sshfp.algorithm, .uint8 rr.sshfp.fptype, .blob rr.sshfp.fingerprint]
  | .dnskey =>
    [.uint16 rr.dnskey.flags, .uint8 rr.dnskey.protocol, .uint8 rr.dnskey.algorithm, .blob rr.dnskey.key]
  | .rrsig =>
    [.uint16 rr.rrsig.typeCovered, .uint8 rr.rrsig.algorithm, .uint8 rr.rrsig.labels, .uint32 rr.rrsig.originalTtl,
      .uint32 rr.rrsig.expiration, .uint32 rr.rrsig.inception, .uint16 rr.rrsig.keyTag,
      .name rr.rrsig.signer false true, .blob rr.rrsig.signature]
  | .nsec => [.name rr.nsec.nextDomainName false false, .types (rr.nsec.types.getD [])]
  | .nsec3 =>
    [.uint8 rr.nsec3.algorithm, .uint8 rr.nsec3.flags, .uint16 rr.nsec3.iterations,
      .uint8 (UInt8.ofNat rr.nsec3.salt.length), .blob rr.nsec3.salt,
      .uint8 (UInt8.ofNat rr.nsec3.nextHashedName.length), .blob rr.nsec3.nextHashedName,
      .types (rr.nsec3.types.getD [])]
  | .tlsa =>
    [.uint8 rr.tlsa.certUsage, .uint8 rr.tlsa.selector, .uint8 rr.tlsa.matchingType, .blob rr.tlsa.data]
  | .caa => [.uint8 rr.caa.flags, .string rr.caa.tag, .blob rr.caa.value]
  | .generic => [.blob rr.generic]

/-- What `dns_packet_append_rr()` returns, with the names it appended and their offsets. -/
structure AppendedRr where
  start : Nat
  rdataStart : Nat
  names : List (Nat × CString)
  deriving DecidableEq

/-- The beginning of `dns_packet_append_rr()`, up to the length of the data, which is not known yet. -/
def appendRrHead (rr : DnsResourceRecord) (flags : DnsAnswerFlags) : PacketM (Nat × Nat) := do
  let start ← dnsPacketAppendKey env rr.key flags
  let _ ← dnsPacketAppendUint32 env (if flags.goodbye then 0 else rr.ttl)
  let rdlengthOffset ← dnsPacketAppendUint16 env 0
  return (start, rdlengthOffset)

/-- The end of `dns_packet_append_rr()`, where the length of the data is filled in. -/
def patchRdlength (rdlengthOffset : Nat) : PacketM PUnit := do
  let p ← get
  let rdlength := p.size - rdlengthOffset - 2
  require (rdlength ≤ 0xFFFF) .enospc
  modify fun p => { p with size := rdlengthOffset }
  let _ ← dnsPacketAppendUint16 env (UInt16.ofNat rdlength)
  modify fun q => { q with size := p.size }

/-- `dns_packet_append_rr()` -/
def dnsPacketAppendRr (rr : DnsResourceRecord) (flags : DnsAnswerFlags) : PacketM AppendedRr := do
  let p ← get
  orTruncate p.size do
    let (start, rdlengthOffset) ← appendRrHead env rr flags
    let q ← get
    let names ← appendPieces env (rdataPieces rr)
    patchRdlength env rdlengthOffset
    return ⟨p.size, q.size - p.size, (start, dnsResourceKeyName rr.key) :: names⟩

/-- The algorithms of RFC 6975 that are announced. -/
def rfc6975 (ed25519 : Bool) : CString :=
  [0, 5, 0, if ed25519 then 7 else 6, 5, 7, 8, 10, 13, 14] ++ (if ed25519 then [15] else []) ++
    [0, 6, 0, 3, 1, 2, 4, 0, 7, 0, 1, 1]

/-- The number of additional records in the header. -/
def DnsPacket.arcount (p : DnsPacket) : Nat := (p.data.getD 10 0).toNat * 256 + (p.data.getD 11 0).toNat

/-- The OPT record behind its empty name. -/
def appendOptBody (maxUdpSize : UInt16) (edns0Do includeRfc6975 ed25519 : Bool) (nsid : Option CString)
    (rcode : UInt16) : PacketM (List (Nat × CString)) := do
  let _ ← appendPieces env
    [.uint16 dnsTypeOpt, .uint16 maxUdpSize, .uint16 ((rcode &&& 0x0FF0) <<< 4),
      .uint16 (if edns0Do then 0x8000 else 0)]
  if edns0Do && includeRfc6975 then
    appendPieces env [.uint16 (UInt16.ofNat (rfc6975 ed25519).length), .blob (rfc6975 ed25519)]
  else
    match nsid with
    | some nsid =>
      require (nsid.length ≤ 0xFFFF - 4) .e2big
      appendPieces env
        [.uint16 (UInt16.ofNat (4 + nsid.length)), .uint16 3, .uint16 (UInt16.ofNat nsid.length), .blob nsid]
    | none => appendPieces env [.uint16 0]

/-- `dns_packet_append_opt()` -/
def dnsPacketAppendOpt (maxUdpSize : UInt16) (edns0Do includeRfc6975 ed25519 : Bool) (nsid : Option CString)
    (rcode : UInt16) : PacketM Nat := do
  let p ← get
  require (p.optStart = none) .ebusy
  let _ ← dnsPacketAppendUint8 env 0
  let _ ← orTruncate p.size (appendOptBody env maxUdpSize edns0Do includeRfc6975 ed25519 nsid rcode)
  modify fun q =>
    { q.store 10 (be16 (q.arcount + 1)) with optStart := some p.size, optSize := some (q.size - p.size) }
  return p.size

/-- `dns_packet_append_question()` -/
def dnsPacketAppendQuestion : List DnsResourceKey → PacketM (List (Nat × CString))
  | [] => return []
  | key :: keys => do
      let start ← dnsPacketAppendKey env key {}
      let more ← dnsPacketAppendQuestion keys
      return (start, dnsResourceKeyName key) :: more

/-- `dns_packet_append_answer()` -/
def dnsPacketAppendAnswer : List (DnsResourceRecord × DnsAnswerFlags) → PacketM (List (Nat × CString))
  | [] => return []
  | (rr, flags) :: answer => do
      let appended ← dnsPacketAppendRr env rr flags
      let more ← dnsPacketAppendAnswer answer
      return appended.names ++ more

/-- The calls that append to a packet. -/
inductive AppendCall where
  | blob (d : CString)
  | uint8 (v : UInt8)
  | uint16 (v : UInt16)
  | uint32 (v : UInt32)
  | string (s : CString)
  | rawString (s : CString)
  | label (d : CString) (canonicalCandidate : Bool)
  | name (name : CString) (allowCompression canonicalCandidate : Bool)
  | key (k : DnsResourceKey) (flags : DnsAnswerFlags)
  | rr (rr : DnsResourceRecord) (flags : DnsAnswerFlags)
  | opt (maxUdpSize : UInt16) (edns0Do includeRfc6975 ed25519 : Bool) (nsid : Option CString) (rcode : UInt16)
  | question (keys : List DnsResourceKey)
  | answer (answer : List (DnsResourceRecord × DnsAnswerFlags))

/-- One call; the names that it appends are returned with their offsets. -/
def AppendCall.run : AppendCall → PacketM (List (Nat × CString))
  | .blob d => (Piece.blob d).append env
  | .uint8 v => (Piece.uint8 v).append env
  | .uint16 v => (Piece.uint16 v).append env
  | .uint32 v => (Piece.uint32 v).append env
  | .string s => (Piece.string s).append env
  | .rawString s => do
      let _ ← dnsPacketAppendRawString env s
      return []
  | .label d canonicalCandidate => do
      let _ ← dnsPacketAppendLabel env d canonicalCandidate
      return []
  | .name n allowCompression canonicalCandidate => (Piece.name n allowCompression canonicalCandidate).append env
  | .key k flags => do
      let start ← dnsPacketAppendKey env k flags
      return [(start, dnsResourceKeyName k)]
  | .rr record flags => do
      let appended ← dnsPacketAppendRr env record flags
      return appended.names
  | .opt maxUdpSize edns0Do includeRfc6975 ed25519 nsid rcode => do
      let _ ← dnsPacketAppendOpt env maxUdpSize edns0Do includeRfc6975 ed25519 nsid rcode
      return []
  | .question keys => dnsPacketAppendQuestion env keys
  | .answer rrs => dnsPacketAppendAnswer env rrs

end Append

end SystemdPort.Resolve
