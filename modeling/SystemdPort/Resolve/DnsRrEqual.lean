/-
# Resolve.DnsRrEqual — comparing and hashing resource records

`dns_resource_record_equal()`, the comparison of the hash tables that hold records and the hash
function that goes with it, from `src/resolve/resolved-dns-rr.c`.  What is hashed is the sequence of
bytes that `siphash24_compress()` is given.

Two records are equal just if they have the same `essence`: the member of the union that counts, with
names and the texts of HINFO records without case.  Equal records are hashed alike, except that the
texts of HINFO records are hashed with their case (`hashFunc_alike`).
-/
import SystemdPort.Lib.Bytes
import SystemdPort.Resolve.DnsRoundTrip

namespace SystemdPort.Resolve

set_option autoImplicit false

open Basic Lib Lib.Exec Shared.Dns

/-! ## Keys -/

/-- `dns_resource_key_equal()` of two keys -/
def dnsResourceKeyEqual (a b : DnsResourceKey) : Except Errno Bool := do
  if !(← dnsNameEqual (dnsResourceKeyName a) (dnsResourceKeyName b)) then return false
  if a.class ≠ b.class then return false
  if a.type ≠ b.type then return false
  return true

/-- `dns_resource_key_compare_func()` -/
def dnsResourceKeyCompareFunc (x y : DnsResourceKey) : Int :=
  let r := dnsNameCompareFunc (dnsResourceKeyName x) (dnsResourceKeyName y)
  if r ≠ 0 then r
  else
    let r := cmpInt x.type.toNat y.type.toNat
    if r ≠ 0 then r else cmpInt x.class.toNat y.class.toNat

/-- Memory of a number. -/
def native8 (n : UInt8) : CString := [n]

def native16 (n : UInt16) : CString := toLittleEndian 2 n.toNat

def native32 (n : UInt32) : CString := toLittleEndian 4 n.toNat

/-- `string_hash_func()`: with the NUL at the end -/
def stringHashFunc (s : CString) : CString := s ++ [0]

/-- `dns_name_hash_func()` -/
def nameBytes (n : CString) : CString := (dnsNameHashFunc n).flatten

/-- `dns_resource_key_hash_func()` -/
def dnsResourceKeyHashFunc (k : DnsResourceKey) : CString :=
  nameBytes (dnsResourceKeyName k) ++ native16 k.class ++ native16 k.type

/-! ## Records -/

/-- `rr->unparsable ? _DNS_TYPE_INVALID : rr->key->type` -/
def payloadKind (rr : DnsResourceRecord) : RdataKind := if rr.unparsable then .generic else rdataKind rr.key.type

/-- `strcaseeq()` -/
def strcaseeq (a b : CString) : Bool := lower a = lower b

/-- `dns_txt_item_equal()` -/
def dnsTxtItemEqual : List CString → List CString → Bool
  | [], [] => true
  | [], _ :: _ => false
  | _ :: _, [] => false
  | a :: as, b :: bs => if a ≠ b then false else dnsTxtItemEqual as bs

/-- `bitmap_equal()` -/
def bitmapEqual : Option Bitmap → Option Bitmap → Bool
  | none, none => true
  | some a, some b => a = b
  | _, _ => false

/-- A result of `dns_name_equal()` that is only tested for zero. -/
def nonzero : Except Errno Bool → Bool
  | .ok r => r
  | .error _ => true

/-- `dns_resource_record_payload_equal()` -/
def dnsResourceRecordPayloadEqual (a b : DnsResourceRecord) : Except Errno Bool := do
  if a.unparsable ≠ b.unparsable then return false
  match payloadKind a with
  | .srv =>
    if !(← dnsNameEqual a.srv.name b.srv.name) then return false
    return a.srv.priority = b.srv.priority ∧ a.srv.weight = b.srv.weight ∧ a.srv.port = b.srv.port
  | .ptr => dnsNameEqual a.ptr b.ptr
  | .hinfo => return strcaseeq a.hinfo.cpu b.hinfo.cpu ∧ strcaseeq a.hinfo.os b.hinfo.os
  | .txt => return dnsTxtItemEqual a.txt b.txt
  | .a => return a.a = b.a
  | .aaaa => return a.aaaa = b.aaaa
  | .soa =>
    if !(← dnsNameEqual a.soa.mname b.soa.mname) then return false
    if !(← dnsNameEqual a.soa.rname b.soa.rname) then return false
    return a.soa.serial = b.soa.serial ∧ a.soa.refresh = b.soa.refresh ∧ a.soa.retry = b.soa.retry ∧
      a.soa.expire = b.soa.expire ∧ a.soa.minimum = b.soa.minimum
  | .mx =>
    if a.mx.priority ≠ b.mx.priority then return false
    dnsNameEqual a.mx.exchange b.mx.exchange
  | .loc =>
    -- the versions are asserted to be equal; other versions than 0 are not parsed
    return a.loc.size = b.loc.size ∧ a.loc.horizPre = b.loc.horizPre ∧ a.loc.vertPre = b.loc.vertPre ∧
      a.loc.latitude = b.loc.latitude ∧ a.loc.longitude = b.loc.longitude ∧ a.loc.altitude = b.loc.altitude
  | .ds =>
    return a.ds.keyTag = b.ds.keyTag ∧ a.ds.algorithm = b.ds.algorithm ∧ a.ds.digestType = b.ds.digestType ∧
      a.ds.digest = b.ds.digest
  | .sshfp =>
    return a.sshfp.algorithm = b.sshfp.algorithm ∧ a.sshfp.fptype = b.sshfp.fptype ∧
      a.sshfp.fingerprint = b.sshfp.fingerprint
  | .dnskey =>
    return a.dnskey.flags = b.dnskey.flags ∧ a.dnskey.protocol = b.dnskey.protocol ∧
      a.dnskey.algorithm = b.dnskey.algorithm ∧ a.dnskey.key = b.dnskey.key
  | .rrsig =>
    return a.rrsig.typeCovered = b.rrsig.typeCovered ∧ a.rrsig.algorithm = b.rrsig.algorithm ∧
      a.rrsig.labels = b.rrsig.labels ∧ a.rrsig.originalTtl = b.rrsig.originalTtl ∧
      a.rrsig.expiration = b.rrsig.expiration ∧ a.rrsig.inception = b.rrsig.inception ∧
      a.rrsig.keyTag = b.rrsig.keyTag ∧ a.rrsig.signature = b.rrsig.signature ∧
      nonzero (dnsNameEqual a.rrsig.signer b.rrsig.signer)
  | .nsec =>
    return nonzero (dnsNameEqual a.nsec.nextDomainName b.nsec.nextDomainName) ∧ bitmapEqual a.nsec.types b.nsec.types
  | .nsec3 =>
    return a.nsec3.algorithm = b.nsec3.algorithm ∧ a.nsec3.flags = b.nsec3.flags ∧
      a.nsec3.iterations = b.nsec3.iterations ∧ a.nsec3.salt = b.nsec3.salt ∧
      a.nsec3.nextHashedName = b.nsec3.nextHashedName ∧ bitmapEqual a.nsec3.types b.nsec3.types
  | .tlsa =>
    return a.tlsa.certUsage = b.tlsa.certUsage ∧ a.tlsa.selector = b.tlsa.selector ∧
      a.tlsa.matchingType = b.tlsa.matchingType ∧ a.tlsa.data = b.tlsa.data
  | .caa => return a.caa.flags = b.caa.flags ∧ a.caa.tag = b.caa.tag ∧ a.caa.value = b.caa.value
  | .generic => return a.generic = b.generic

/-- `dns_resource_record_equal()` of two records -/
def dnsResourceRecordEqual (a b : DnsResourceRecord) : Except Errno Bool := do
  if !(← dnsResourceKeyEqual a.key b.key) then return false
  dnsResourceRecordPayloadEqual a b

/-- Whether `dns_resource_record_compare_func()` returns 0 for two records. -/
def dnsResourceRecordCompareFunc (x y : DnsResourceRecord) : Bool :=
  dnsResourceKeyCompareFunc x.key y.key = 0 ∧ dnsResourceRecordPayloadEqual x y = .ok true

/-- The switch of `dns_resource_record_hash_func()`. -/
def payloadHashFunc (rr : DnsResourceRecord) : CString :=
  match payloadKind rr with
  | .srv => native16 rr.srv.priority ++ native16 rr.srv.weight ++ native16 rr.srv.port ++ nameBytes rr.srv.name
  | .ptr => nameBytes rr.ptr
  | .hinfo => stringHashFunc rr.hinfo.cpu ++ stringHashFunc rr.hinfo.os
  | .txt => rr.txt.flatMap (· ++ [0])
  | .a => rr.a.val
  | .aaaa => rr.aaaa.val
  | .soa =>
    nameBytes rr.soa.mname ++ nameBytes rr.soa.rname ++ native32 rr.soa.serial ++ native32 rr.soa.refresh ++
      native32 rr.soa.retry ++ native32 rr.soa.expire ++ native32 rr.soa.minimum
  | .mx => native16 rr.mx.priority ++ nameBytes rr.mx.exchange
  | .loc =>
    native8 rr.loc.version ++ native8 rr.loc.size ++ native8 rr.loc.horizPre ++ native8 rr.loc.vertPre ++
      native32 rr.loc.latitude ++ native32 rr.loc.longitude ++ native32 rr.loc.altitude
  | .sshfp => native8 rr.sshfp.algorithm ++ native8 rr.sshfp.fptype ++ rr.sshfp.fingerprint
  | .dnskey =>
    native16 rr.dnskey.flags ++ native8 rr.dnskey.protocol ++ native8 rr.dnskey.algorithm ++ rr.dnskey.key
  | .rrsig =>
    native16 rr.rrsig.typeCovered ++ native8 rr.rrsig.algorithm ++ native8 rr.rrsig.labels ++
      native32 rr.rrsig.originalTtl ++ native32 rr.rrsig.expiration ++ native32 rr.rrsig.inception ++
      native16 rr.rrsig.keyTag ++ nameBytes rr.rrsig.signer ++ rr.rrsig.signature
  | .nsec => nameBytes rr.nsec.nextDomainName
  | .ds => native16 rr.ds.keyTag ++ native8 rr.ds.algorithm ++ native8 rr.ds.digestType ++ rr.ds.digest
  | .nsec3 =>
    native8 rr.nsec3.algorithm ++ native8 rr.nsec3.flags ++ native16 rr.nsec3.iterations ++ rr.nsec3.salt ++
      rr.nsec3.nextHashedName
  | .tlsa =>
    native8 rr.tlsa.certUsage ++ native8 rr.tlsa.selector ++ native8 rr.tlsa.matchingType ++ rr.tlsa.data
  | .caa => native8 rr.caa.flags ++ stringHashFunc rr.caa.tag ++ rr.caa.value
  | .generic => rr.generic

/-- `dns_resource_record_hash_func()` -/
def dnsResourceRecordHashFunc (rr : DnsResourceRecord) : CString :=
  dnsResourceKeyHashFunc rr.key ++ payloadHashFunc rr

/-! ## What is compared -/

/-- A name up to case and spelling. -/
def foldName (n : CString) : CString := wire true (dnsNameLabels n)

theorem Labels.foldName_eq_iff {a b : CString} {la lb : List CString} (labelsA : Labels a la) (labelsB : Labels b lb) :
    foldName a = foldName b ↔ la.map lower = lb.map lower := by
  rw [foldName, foldName, labelsA.eq, labelsB.eq, wire_injective labelsA.bounded labelsB.bounded]

section Names

variable {a b : CString}

theorem nameEqual_eq (isA : IsName a) (isB : IsName b) : dnsNameEqual a b = .ok (decide (foldName a = foldName b)) := by
  obtain ⟨la, labelsA⟩ := isA
  obtain ⟨lb, labelsB⟩ := isB
  rw [labelsA.equal labelsB]
  simp [Labels.foldName_eq_iff labelsA labelsB]

theorem nameCompare_eq_zero (isA : IsName a) (isB : IsName b) : dnsNameCompareFunc a b = 0 ↔ foldName a = foldName b := by
  obtain ⟨la, labelsA⟩ := isA
  obtain ⟨lb, labelsB⟩ := isB
  rw [labelsA.compare_eq_zero labelsB, Labels.foldName_eq_iff labelsA labelsB]

theorem nameBytes_alike (isA : IsName a) (isB : IsName b) (same : foldName a = foldName b) :
    nameBytes a = nameBytes b := by
  obtain ⟨la, labelsA⟩ := isA
  obtain ⟨lb, labelsB⟩ := isB
  rw [nameBytes, nameBytes, labelsA.hash, labelsB.hash,
    hashFeed_congr ((Labels.foldName_eq_iff labelsA labelsB).mp same)]

end Names

/-- What counts in a comparison of records. -/
def DnsResourceRecord.essence (rr : DnsResourceRecord) : DnsResourceRecord :=
  let bare : DnsResourceRecord :=
    { key := { rr.key with name := foldName (dnsResourceKeyName rr.key) }, unparsable := rr.unparsable }
  match payloadKind rr with
  | .srv => { bare with srv := { rr.srv with name := foldName rr.srv.name } }
  | .ptr => { bare with ptr := foldName rr.ptr }
  | .hinfo => { bare with hinfo := ⟨lower rr.hinfo.cpu, lower rr.hinfo.os⟩ }
  | .txt => { bare with txt := rr.txt }
  | .a => { bare with a := rr.a }
  | .aaaa => { bare with aaaa := rr.aaaa }
  | .soa => { bare with soa := { rr.soa with mname := foldName rr.soa.mname, rname := foldName rr.soa.rname } }
  | .mx => { bare with mx := { rr.mx with exchange := foldName rr.mx.exchange } }
  | .loc => { bare with loc := { rr.loc with version := 0 } }
  | .ds => { bare with ds := rr.ds }
  | .sshfp => { bare with sshfp := rr.sshfp }
  | .dnskey => { bare with dnskey := rr.dnskey }
  | .rrsig => { bare with rrsig := { rr.rrsig with signer := foldName rr.rrsig.signer } }
  | .nsec => { bare with nsec := { rr.nsec with nextDomainName := foldName rr.nsec.nextDomainName } }
  | .nsec3 => { bare with nsec3 := rr.nsec3 }
  | .tlsa => { bare with tlsa := rr.tlsa }
  | .caa => { bare with caa := rr.caa }
  | .generic => { bare with generic := rr.generic }

/-- The names in the data of a record are names. -/
def NamesGood (rr : DnsResourceRecord) : Prop :=
  match payloadKind rr with
  | .srv => IsName rr.srv.name
  | .ptr => IsName rr.ptr
  | .soa => IsName rr.soa.mname ∧ IsName rr.soa.rname
  | .mx => IsName rr.mx.exchange
  | .rrsig => IsName rr.rrsig.signer
  | .nsec => IsName rr.nsec.nextDomainName
  | _ => True

/-- A record as it is parsed: its names are names, and LOC records have version 0. -/
structure WellFormed (rr : DnsResourceRecord) : Prop where
  owner : IsName (dnsResourceKeyName rr.key)
  names : NamesGood rr
  version : rr.loc.version = 0

theorem Decoded.wellFormed {key : DnsResourceKey} {ttl : UInt32} {rr : DnsResourceRecord} (decoded : Decoded key ttl rr)
    (isName : IsName key.name) : WellFormed rr := by
  have owner : IsName (dnsResourceKeyName key) := by
    obtain ⟨ls, labels⟩ := isName
    exact ⟨ls, labels_keyName.mpr labels⟩
  cases decoded <;> refine ⟨owner, ?_, ?_⟩ <;> simp_all [NamesGood, payloadKind]

theorem wellFormed_of_read {msg : DnsMessage} {rr : DnsResourceRecord} {cacheFlush : Bool} {o r : Nat}
    (read : dnsPacketReadRr msg o = .ok (rr, cacheFlush) r) : WellFormed rr := by
  obtain ⟨decoded, isName, _⟩ := readRr_facts read
  exact decoded.wellFormed isName

theorem dnsTxtItemEqual_iff {as bs : List CString} : dnsTxtItemEqual as bs = true ↔ as = bs := by
  induction as generalizing bs with
  | nil => cases bs <;> simp [dnsTxtItemEqual]
  | cons a as ih => cases bs <;> simp [dnsTxtItemEqual, ih]

theorem bitmapEqual_iff {a b : Option Bitmap} : bitmapEqual a b = true ↔ a = b := by
  cases a <;> cases b <;> simp [bitmapEqual]

attribute [ext] SrvData HinfoData SoaData MxData LocData DsData SshfpData DnskeyData RrsigData NsecData Nsec3Data TlsaData
  CaaData DnsResourceRecord

@[simp] theorem pure_eq_true {r : Bool} : (pure r : Except Errno Bool) = .ok true ↔ r = true := by
  change Except.ok r = .ok true ↔ _
  simp

@[simp] theorem test_eq_true {r : Bool} {rest : Except Errno Bool} :
    (do if (← Except.ok r) = false then return false else rest) = .ok true ↔ r = true ∧ rest = .ok true := by
  cases r
  · change Except.ok false = .ok true ↔ _
    simp
  · change rest = .ok true ↔ _
    simp

@[simp] theorem nonzero_ok (r : Bool) : nonzero (.ok r) = r := rfl

section Compare

variable {a b : DnsResourceRecord}

theorem essence_key (rr : DnsResourceRecord) :
    rr.essence.key = { rr.key with name := foldName (dnsResourceKeyName rr.key) } := by
  unfold DnsResourceRecord.essence
  cases payloadKind rr <;> rfl

theorem essence_unparsable (rr : DnsResourceRecord) : rr.essence.unparsable = rr.unparsable := by
  unfold DnsResourceRecord.essence
  cases payloadKind rr <;> rfl

theorem keyEqual_eq (goodA : WellFormed a) (goodB : WellFormed b) :
    dnsResourceKeyEqual a.key b.key = .ok (decide (a.essence.key = b.essence.key)) := by
  rw [dnsResourceKeyEqual, nameEqual_eq goodA.owner goodB.owner, essence_key, essence_key]
  by_cases name : foldName (dnsResourceKeyName a.key) = foldName (dnsResourceKeyName b.key)
  · by_cases klass : a.key.class = b.key.class
    · by_cases type : a.key.type = b.key.type <;> simp [name, klass, type]
    · simp [klass]
  · simp [name]
    rfl

theorem keyCompare_eq_zero (goodA : WellFormed a) (goodB : WellFormed b) :
    dnsResourceKeyCompareFunc a.key b.key = 0 ↔ a.essence.key = b.essence.key := by
  have name := nameCompare_eq_zero goodA.owner goodB.owner
  have number : ∀ m n : UInt16, cmpInt m.toNat n.toNat = 0 ↔ m = n := by
    intro m n
    unfold cmpInt
    split
    · rename_i same
      simpa [← UInt16.toNat_inj] using same
    · rename_i apart
      have : m ≠ n := by
        rintro rfl
        exact apart rfl
      split <;> simp [this]
  rw [dnsResourceKeyCompareFunc, essence_key, essence_key]
  by_cases sameName : foldName (dnsResourceKeyName a.key) = foldName (dnsResourceKeyName b.key)
  · by_cases type : a.key.type = b.key.type
    · simp [name.mpr sameName, number, sameName, type]
    · simp [name.mpr sameName, mt (number _ _).mp type, type]
  · simp [mt name.mp sameName, sameName]

theorem payloadKind_eq (key : a.essence.key = b.essence.key) (unparsable : a.unparsable = b.unparsable) :
    payloadKind b = payloadKind a := by
  have type : a.key.type = b.key.type := by simpa [essence_key] using congrArg DnsResourceKey.type key
  rw [payloadKind, payloadKind, unparsable, type]

section

variable (goodA : WellFormed a) (goodB : WellFormed b)

include goodA goodB

/-- With the same key, the same data is the same essence. -/
theorem payloadEqual_iff (key : a.essence.key = b.essence.key) :
    dnsResourceRecordPayloadEqual a b = .ok true ↔ a.essence = b.essence := by
  by_cases unparsable : a.unparsable = b.unparsable
  swap
  · have apart : a.essence ≠ b.essence := by
      intro same
      apply unparsable
      rw [← essence_unparsable a, ← essence_unparsable b, same]
    simp only [dnsResourceRecordPayloadEqual, ne_eq, unparsable, apart, iff_false]
    intro same
    cases same
  have kinds := payloadKind_eq key unparsable
  have namesA := goodA.names
  have namesB := goodB.names
  rw [essence_key, essence_key] at key
  simp only [NamesGood, kinds] at namesA namesB
  simp only [dnsResourceRecordPayloadEqual, DnsResourceRecord.essence, unparsable, key, kinds]
  cases kind : payloadKind a with
  | srv =>
    simp only [kind] at namesA namesB
    simp [nameEqual_eq namesA namesB]
    tauto
  | ptr =>
    simp only [kind] at namesA namesB
    simp [nameEqual_eq namesA namesB]
  | soa =>
    simp only [kind] at namesA namesB
    simp [nameEqual_eq namesA.1 namesB.1, nameEqual_eq namesA.2 namesB.2]
  | mx =>
    simp only [kind] at namesA namesB
    by_cases priority : a.mx.priority = b.mx.priority <;>
      simp [nameEqual_eq namesA namesB, priority]
  | rrsig =>
    simp only [kind] at namesA namesB
    simp [nameEqual_eq namesA namesB]
    tauto
  | nsec =>
    simp only [kind] at namesA namesB
    simp [nameEqual_eq namesA namesB, bitmapEqual_iff]
  | _ =>
    simp [dnsTxtItemEqual_iff, bitmapEqual_iff, strcaseeq, DsData.ext_iff, SshfpData.ext_iff, DnskeyData.ext_iff,
      Nsec3Data.ext_iff, TlsaData.ext_iff, CaaData.ext_iff]

theorem recordEqual_iff : dnsResourceRecordEqual a b = .ok true ↔ a.essence = b.essence := by
  rw [dnsResourceRecordEqual, keyEqual_eq goodA goodB]
  by_cases key : a.essence.key = b.essence.key
  · simp [key, payloadEqual_iff goodA goodB key]
  · have apart : a.essence ≠ b.essence := fun same => key (congrArg _ same)
    simp [key, apart]

/-- The comparison of the hash tables is the equality of records. -/
theorem recordCompare_iff : dnsResourceRecordCompareFunc a b = true ↔ a.essence = b.essence := by
  rw [dnsResourceRecordCompareFunc, decide_eq_true_iff, keyCompare_eq_zero goodA goodB]
  constructor
  · rintro ⟨key, payload⟩
    exact (payloadEqual_iff goodA goodB key).mp payload
  · intro same
    have key : a.essence.key = b.essence.key := congrArg _ same
    exact ⟨key, (payloadEqual_iff goodA goodB key).mpr same⟩

/-- Equal records are hashed alike, if the texts of HINFO records are spelled alike. -/
theorem hashFunc_alike (same : a.essence = b.essence) (spelling : payloadKind a = .hinfo → a.hinfo = b.hinfo) :
    dnsResourceRecordHashFunc a = dnsResourceRecordHashFunc b := by
  have key : a.essence.key = b.essence.key := congrArg _ same
  have unparsable : a.unparsable = b.unparsable := by rw [← essence_unparsable a, ← essence_unparsable b, same]
  have kinds := payloadKind_eq key unparsable
  have namesA := goodA.names
  have namesB := goodB.names
  rw [essence_key, essence_key] at key
  obtain ⟨klass, type, name⟩ := DnsResourceKey.mk.inj key
  rw [dnsResourceRecordHashFunc, dnsResourceRecordHashFunc, dnsResourceKeyHashFunc, dnsResourceKeyHashFunc,
    nameBytes_alike goodA.owner goodB.owner name, klass, type]
  simp only [NamesGood, kinds] at namesA namesB
  simp only [DnsResourceRecord.essence, kinds, DnsResourceRecord.ext_iff] at same
  simp only [payloadHashFunc, kinds]
  cases kind : payloadKind a with
  | srv =>
    simp only [kind] at namesA namesB same
    simp only [SrvData.ext_iff] at same
    simp [nameBytes_alike namesA namesB, same]
  | ptr =>
    simp only [kind] at namesA namesB same
    simp [nameBytes_alike namesA namesB, same]
  | soa =>
    simp only [kind] at namesA namesB same
    simp only [SoaData.ext_iff] at same
    simp [nameBytes_alike namesA.1 namesB.1, nameBytes_alike namesA.2 namesB.2, same]
  | mx =>
    simp only [kind] at namesA namesB same
    simp only [MxData.ext_iff] at same
    simp [nameBytes_alike namesA namesB, same]
  | rrsig =>
    simp only [kind] at namesA namesB same
    simp only [RrsigData.ext_iff] at same
    simp [nameBytes_alike namesA namesB, same]
  | nsec =>
    simp only [kind] at namesA namesB same
    simp only [NsecData.ext_iff] at same
    simp [nameBytes_alike namesA namesB, same]
  | hinfo => rw [spelling kind]
  | loc =>
    simp only [kind, LocData.ext_iff] at same
    simp [goodA.version, goodB.version, same]
  | _ =>
    simp only [kind] at same
    simp [same]

end

end Compare

end SystemdPort.Resolve
