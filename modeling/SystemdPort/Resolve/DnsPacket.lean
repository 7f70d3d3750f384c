/-
# Resolve.DnsPacket — building DNS packets

The appending half of `src/resolve/resolved-dns-packet.c`.  A packet is its buffer and the part of
it that is in use, with a table of the names in it that later names may point to.

What depends on the outside is in an `Env`: whether an allocation succeeds, the size of a page and
the buckets that the hash table of names puts its keys in.
-/
import SystemdPort.Shared.DnsDomain

namespace SystemdPort.Resolve

set_option autoImplicit false

open Basic Lib.Exec Shared.Dns

inductive DnsProtocol where
  | dns | mdns | llmnr
  deriving DecidableEq

/-- `DNS_PACKET_HEADER_SIZE` -/
def dnsPacketHeaderSize : Nat := 12

/-- `DNS_PACKET_SIZE_MAX` -/
def dnsPacketSizeMaximum : Nat := 0xFFFF

/-- `DNS_PACKET_SIZE_START` -/
def dnsPacketSizeStart : Nat := 512

structure DnsPacket where
  protocol : DnsProtocol := .dns
  /-- The buffer as far as it was written to; only the first `size` bytes of it are in use. -/
  data : CString := []
  size : Nat := 0
  allocated : Nat := 0
  maxSize : Nat := 0
  /-- The names in the packet and the offsets of their first labels. -/
  names : List (CString × Nat) := []
  optStart : Option Nat := none
  optSize : Option Nat := none
  refuseCompression : Bool := false
  canonicalForm : Bool := false
  /-- How many allocations were tried. -/
  nAllocs : Nat := 0
  deriving DecidableEq

structure Env where
  pageSize : Nat
  pageSize_pos : 0 < pageSize
  /-- `ALIGN(sizeof(DnsPacket))` -/
  structSize : Nat
  /-- Whether the n-th allocation succeeds. -/
  alloc : Nat → Bool
  /-- The bucket of a hash table that a key falls into, by what the hash is fed with. -/
  bucket : List (CString × Nat) → List CString → Nat

abbrev PacketM := EStateM Errno DnsPacket

/-- `dns_packet_size_max()` -/
def dnsPacketSizeMax (p : DnsPacket) : Nat := if p.maxSize ≠ 0 then p.maxSize else dnsPacketSizeMaximum

/-- `PAGE_ALIGN()` -/
def pageAlign (pageSize l : Nat) : Nat := (l + pageSize - 1) / pageSize * pageSize

theorem le_pageAlign {pageSize : Nat} (pos : 0 < pageSize) (l : Nat) : l ≤ pageAlign pageSize l := by
  unfold pageAlign
  have := Nat.lt_div_mul_add pos (a := l + pageSize - 1)
  omega

/-- `dns_packet_new()` -/
def dnsPacketNew (env : Env) (protocol : DnsProtocol) (minAllocDsize maxSize : Nat) : Except Errno DnsPacket :=
  let maxSize := min maxSize dnsPacketSizeMaximum
  if dnsPacketSizeMaximum < minAllocDsize then .error .efbig
  else
    let a := if minAllocDsize < dnsPacketHeaderSize then dnsPacketSizeStart else minAllocDsize
    -- up to the end of a page, but never more than useful
    let a := min (pageAlign env.pageSize (env.structSize + a) - env.structSize) maxSize
    if env.alloc 0 then
      .ok { protocol, data := List.replicate a 0, size := dnsPacketHeaderSize, allocated := a, maxSize, nAllocs := 1 }
    else .error .enomem

namespace DnsPacket

/-- The bytes in use. -/
def bytes (p : DnsPacket) : CString := p.data.take p.size

/-- Bytes put at a place of the buffer. -/
def store (p : DnsPacket) (pos : Nat) (d : CString) : DnsPacket :=
  { p with data := p.data.take pos ++ d ++ p.data.drop (pos + d.length) }

/-- Bytes put behind the part that is in use, which then includes them. -/
def push (p : DnsPacket) (d : CString) : DnsPacket := { p.store p.size d with size := p.size + d.length }

end DnsPacket

/-- `dns_packet_truncate()`, where each `hashmap_remove()` finds the entry it is called for.  Two names with a
label that cannot be read compare equal; one of them could be taken for the other if both were in one bucket. -/
def dnsPacketTruncate (sz : Nat) (p : DnsPacket) : DnsPacket :=
  if p.size ≤ sz then p else { p with names := p.names.filter (·.2 < sz), size := sz }

/-- A call that takes back what it appended when it fails: `goto fail`. -/
def orTruncate {α : Type} (savedSize : Nat) (x : PacketM α) : PacketM α := fun p =>
  match x p with
  | .ok a q => .ok a q
  | .error e q => .error e (dnsPacketTruncate savedSize q)

section Append

variable (env : Env)

def allocate : PacketM PUnit := do
  let p ← get
  modify fun p => { p with nAllocs := p.nAllocs + 1 }
  require (env.alloc p.nAllocs) .enomem

/-- The first half of `dns_packet_extend()`: the buffer gets large enough for `add` more bytes. -/
def reserve (add : Nat) : PacketM PUnit := do
  let p ← get
  if p.allocated < p.size + add then
    let a := min (pageAlign env.pageSize ((p.size + add) * 2)) (dnsPacketSizeMax p)
    require (p.size + add ≤ a) .emsgsize
    allocate env
    modify fun p => { p with allocated := a }
  else pure ⟨⟩

/-- `dns_packet_extend()` and the copying of the new bytes. -/
def dnsPacketExtend (d : CString) : PacketM Nat := do
  let p ← get
  reserve env d.length
  modify fun p => p.push d
  return p.size

theorem allocate_eq (p : DnsPacket) : allocate env p =
      if env.alloc p.nAllocs then .ok ⟨⟩ { p with nAllocs := p.nAllocs + 1 }
      else .error .enomem { p with nAllocs := p.nAllocs + 1 } := by
  show require (env.alloc p.nAllocs) Errno.enomem { p with nAllocs := p.nAllocs + 1 } = _
  unfold require
  split <;> rfl

/-- There is no room for `add` more bytes. -/
def Overflows (add : Nat) (p : DnsPacket) : Prop :=
  p.allocated < p.size + add ∧ min (pageAlign env.pageSize ((p.size + add) * 2)) (dnsPacketSizeMax p) < p.size + add

/-- One of the allocations to come fails. -/
def OutOfMemory (p : DnsPacket) : Prop := ∃ k, p.nAllocs ≤ k ∧ env.alloc k = false

/-- Making room changes nothing that is in the packet. -/
theorem reserve_cases (add : Nat) (p : DnsPacket) :
    (∃ a n, reserve env add p = .ok ⟨⟩ { p with allocated := a, nAllocs := n } ∧ p.size + add ≤ a ∧
      (a = p.allocated ∨ a ≤ dnsPacketSizeMax p) ∧ p.nAllocs ≤ n) ∨
    (∃ e n, reserve env add p = .error e { p with nAllocs := n } ∧ p.nAllocs ≤ n ∧
      (OutOfMemory env p ∨ Overflows env add p)) := by
  rw [reserve, get_bind]
  split
  · rename_i full
    by_cases fits : p.size + add ≤ min (pageAlign env.pageSize ((p.size + add) * 2)) (dnsPacketSizeMax p)
    · rw [require_of fits, bind_apply, allocate_eq]
      by_cases enough : env.alloc p.nAllocs = true
      · rw [if_pos enough]
        exact .inl ⟨_, _, rfl, fits, .inr (Nat.min_le_right _ _), Nat.le_succ _⟩
      · rw [if_neg enough]
        exact .inr ⟨_, _, rfl, Nat.le_succ _, .inl ⟨p.nAllocs, le_rfl, by simpa using enough⟩⟩
    · rw [require_not fits]
      exact .inr ⟨_, p.nAllocs, rfl, le_rfl, .inr ⟨full, Nat.lt_of_not_le fits⟩⟩
  · rename_i fits
    exact .inl ⟨p.allocated, p.nAllocs, rfl, Nat.le_of_not_lt fits, .inl rfl, le_rfl⟩

theorem extend_cases (d : CString) (p : DnsPacket) :
    (∃ a n, dnsPacketExtend env d p = .ok p.size { p.push d with allocated := a, nAllocs := n } ∧ p.size + d.length ≤ a ∧
      (a = p.allocated ∨ a ≤ dnsPacketSizeMax p) ∧ p.nAllocs ≤ n) ∨
    (∃ e n, dnsPacketExtend env d p = .error e { p with nAllocs := n } ∧ p.nAllocs ≤ n ∧
      (OutOfMemory env p ∨ Overflows env d.length p)) := by
  rw [dnsPacketExtend, get_bind, bind_apply]
  rcases reserve_cases env d.length p with ⟨a, n, run, facts⟩ | ⟨e, n, run, facts⟩
  · rw [run]
    exact .inl ⟨a, n, rfl, facts⟩
  · rw [run]
    exact .inr ⟨e, n, rfl, facts⟩

/-- `dns_packet_append_blob()` -/
def dnsPacketAppendBlob (d : CString) : PacketM Nat := dnsPacketExtend env d

/-- `dns_packet_append_uint8()` -/
def dnsPacketAppendUint8 (v : UInt8) : PacketM Nat := dnsPacketExtend env [v]

/-- Numbers in network byte order. -/
def be16 (v : Nat) : CString := [UInt8.ofNat (v / 256), UInt8.ofNat v]

def be32 (v : Nat) : CString := be16 (v / 65536) ++ be16 v

/-- `dns_packet_append_uint16()` -/
def dnsPacketAppendUint16 (v : UInt16) : PacketM Nat := dnsPacketExtend env (be16 v.toNat)

/-- `dns_packet_append_uint32()` -/
def dnsPacketAppendUint32 (v : UInt32) : PacketM Nat := dnsPacketExtend env (be32 v.toNat)

/-- `dns_packet_append_raw_string()` -/
def dnsPacketAppendRawString (s : CString) : PacketM Nat := do
  require (s.length ≤ 255) .e2big
  dnsPacketExtend env (UInt8.ofNat s.length :: s)

/-- `dns_packet_append_string()` -/
def dnsPacketAppendString (s : CString) : PacketM Nat := dnsPacketAppendRawString env s

/-- `dns_packet_append_label()` -/
def dnsPacketAppendLabel (d : CString) (canonicalCandidate : Bool) : PacketM Nat := do
  require (d.length ≤ dnsLabelMax) .e2big
  let p ← get
  dnsPacketExtend env
    (UInt8.ofNat d.length :: if p.canonicalForm && canonicalCandidate then d.map asciiTolower else d)

/-! ## Names -/

/-- `hashmap_get()` with `dns_name_hash_ops`: keys are compared if they fall into the same bucket. -/
def hashmapGet (names : List (CString × Nat)) (name : CString) : Option Nat :=
  (names.find? fun entry =>
    env.bucket names (dnsNameHashFunc entry.1) = env.bucket names (dnsNameHashFunc name) ∧
      dnsNameCompareFunc entry.1 name = 0).map (·.2)

/-- `hashmap_ensure_put()` -/
def hashmapEnsurePut (name : CString) (n : Nat) : PacketM PUnit := do
  allocate env
  let p ← get
  match hashmapGet env p.names name with
  | some m => require (m = n) .eexist
  | none => modify fun p => { p with names := p.names ++ [(name, n)] }

/-- A name is recorded if later names may point to it. -/
def record (allowCompression : Bool) (name : CString) (n : Nat) : PacketM PUnit :=
  if allowCompression then do
    -- strdup()
    allocate env
    hashmapEnsurePut env name n
  else pure ⟨⟩

theorem record_cases (allowCompression : Bool) (name : CString) (n : Nat) (p : DnsPacket) :
    (∃ k, record env allowCompression name n p = .ok ⟨⟩ { p with nAllocs := k } ∧ p.nAllocs ≤ k ∧
      (allowCompression = true → hashmapGet env p.names name = some n)) ∨
    (∃ k, record env allowCompression name n p = .ok ⟨⟩ { p with nAllocs := k, names := p.names ++ [(name, n)] } ∧
      p.nAllocs ≤ k ∧ allowCompression = true ∧ hashmapGet env p.names name = none) ∨
    (∃ e k, record env allowCompression name n p = .error e { p with nAllocs := k } ∧ p.nAllocs ≤ k) := by
  cases allowCompression with
  | false => exact .inl ⟨p.nAllocs, rfl, le_rfl, by simp⟩
  | true =>
    have run : record env true name n p = (allocate env >>= fun _ => hashmapEnsurePut env name n) p := rfl
    simp only [run, hashmapEnsurePut, bind_apply, allocate_eq]
    by_cases first : env.alloc p.nAllocs = true
    · by_cases second : env.alloc (p.nAllocs + 1) = true
      · simp only [first, second, if_true, get_apply]
        cases found : hashmapGet env p.names name with
        | none => exact .inr (.inl ⟨p.nAllocs + 1 + 1, rfl, by omega, trivial, rfl⟩)
        | some m =>
          by_cases same : m = n
          · exact .inl ⟨p.nAllocs + 1 + 1, by simp [require, same], by omega, fun _ => by rw [same]⟩
          · exact .inr (.inr ⟨.eexist, p.nAllocs + 1 + 1, by simp [require, same], by omega⟩)
      · simp only [first, second, if_true]
        exact .inr (.inr ⟨_, p.nAllocs + 1 + 1, rfl, by omega⟩)
    · rw [if_neg first]
      exact .inr (.inr ⟨_, p.nAllocs + 1, rfl, by omega⟩)

/-- The offset of a recorded name that is equal to a name, or 0. -/
def recorded (p : DnsPacket) (allowCompression : Bool) (name : CString) : Nat :=
  if allowCompression then (hashmapGet env p.names name).getD 0 else 0

theorem unescape_shorter_of_not_root {name label rest : CString} {sz : Nat} (notRoot : ¬ dnsNameIsRoot name = true)
    (read : dnsLabelUnescape name sz {} = .ok (label, rest)) : rest.length < name.length := by
  by_cases empty : label = []
  · have final := (unescape_iff.mp read).2.2.2.1 empty
    cases name with
    | nil => exact absurd rfl notRoot
    | cons c name => simp [final]
  · exact unescape_shorter read empty

/-- The loop of `dns_packet_append_name()`; true if the name ended with a pointer. -/
def appendLabels (name : CString) (allowCompression canonicalCandidate : Bool) : PacketM Bool := do
  if _isRoot : dnsNameIsRoot name then return false
  else
    let p ← get
    let n := recorded env p allowCompression name
    if 0 < n ∧ n < 0x4000 then
      let _ ← dnsPacketAppendUint16 env (0xC000 ||| UInt16.ofNat n)
      return true
    else
      match _read : dnsLabelUnescape name dnsLabelMax {} with
      | .error e => throw e
      | .ok (label, rest) =>
        let n ← dnsPacketAppendLabel env label canonicalCandidate
        record env allowCompression name n
        appendLabels rest allowCompression canonicalCandidate
termination_by name.length
decreasing_by exact unescape_shorter_of_not_root _isRoot _read

section Labels

variable {env} {name label rest : CString} {allowCompression canonicalCandidate : Bool} {p : DnsPacket}

theorem appendLabels_root (root : dnsNameIsRoot name = true) :
    appendLabels env name allowCompression canonicalCandidate p = .ok false p := by
  rw [appendLabels, dif_pos root]
  rfl

theorem appendLabels_pointer (notRoot : ¬ dnsNameIsRoot name = true)
    (found : 0 < recorded env p allowCompression name ∧ recorded env p allowCompression name < 0x4000) :
    appendLabels env name allowCompression canonicalCandidate p =
      (do
        let _ ← dnsPacketAppendUint16 env (0xC000 ||| UInt16.ofNat (recorded env p allowCompression name))
        return true : PacketM Bool) p := by
  rw [appendLabels, dif_neg notRoot, get_bind, if_pos found]

theorem appendLabels_invalid {e : Errno} (notRoot : ¬ dnsNameIsRoot name = true)
    (missing : ¬ (0 < recorded env p allowCompression name ∧ recorded env p allowCompression name < 0x4000))
    (read : dnsLabelUnescape name dnsLabelMax {} = .error e) :
    appendLabels env name allowCompression canonicalCandidate p = .error e p := by
  rw [appendLabels, dif_neg notRoot, get_bind, if_neg missing]
  refine congrFun (?_ : _ = (throw e : PacketM Bool)) p
  split
  · simp_all
  · simp_all

theorem appendLabels_label (notRoot : ¬ dnsNameIsRoot name = true)
    (missing : ¬ (0 < recorded env p allowCompression name ∧ recorded env p allowCompression name < 0x4000))
    (read : dnsLabelUnescape name dnsLabelMax {} = .ok (label, rest)) :
    appendLabels env name allowCompression canonicalCandidate p =
      (do
        let n ← dnsPacketAppendLabel env label canonicalCandidate
        record env allowCompression name n
        appendLabels env rest allowCompression canonicalCandidate : PacketM Bool) p := by
  rw [appendLabels, dif_neg notRoot, get_bind, if_neg missing]
  refine congrFun ?_ p
  split
  · simp_all
  · rename_i label' rest' again
    rw [read] at again
    cases again
    rfl

end Labels

/-- `dns_packet_append_name()` -/
def dnsPacketAppendName (name : CString) (allowCompression canonicalCandidate : Bool) : PacketM Nat := do
  let p ← get
  let ended ← orTruncate p.size (appendLabels env name (allowCompression && !p.refuseCompression) canonicalCandidate)
  match ended with
  | true => return p.size
  | false =>
    -- an error is returned here without going to fail
    let _ ← dnsPacketAppendUint8 env 0
    return p.size

end Append

end SystemdPort.Resolve
