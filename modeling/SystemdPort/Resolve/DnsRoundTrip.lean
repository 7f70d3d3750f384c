/-
# Resolve.DnsRoundTrip — records are read as they were appended

A record that `dns_packet_read_rr()` decodes has its data in the member for its type (`Decoded`).
Where `dns_packet_append_rr()` appends it, its parts are found one after the other, and the calls of
the reader find the same values again, except that names may differ in case.

A type bitmap stands for a set.  One that was never allocated and an empty one stand for the same
set, although `bitmap_equal()` tells them apart.
-/
import SystemdPort.Resolve.DnsTypes

namespace SystemdPort.Resolve

set_option autoImplicit false

open Basic Lib Lib.Cells Lib.Exec Shared.Dns List

variable {allow : Bool} {d name : CString} {key : DnsResourceKey} {rr : DnsResourceRecord} {n r : Nat}

/-! ## Equal records -/

/-- Names are compared without regard to case. -/
def SameName (a b : CString) : Prop := dnsNameEqual a b = .ok true

/-- Bitmaps are compared as sets, where none at all (NULL) is as good as an empty one; `bitmap_equal()`
tells these two apart. -/
def SameTypes (a b : Option Bitmap) : Prop := ∀ n, n ∈ a.getD [] ↔ n ∈ b.getD []

/-- No items are as good as one empty item. -/
def txtItems (items : List CString) : List CString := if items = [] then [[]] else items

/-- The names in a record. -/
def DnsResourceRecord.allNames (rr : DnsResourceRecord) : List CString :=
  [rr.key.name, rr.srv.name, rr.ptr, rr.soa.mname, rr.soa.rname, rr.mx.exchange, rr.rrsig.signer, rr.nsec.nextDomainName]

/-- What is compared literally: everything but names, texts and bitmaps. -/
def DnsResourceRecord.literal (rr : DnsResourceRecord) : DnsResourceRecord :=
  { rr with
    key := { rr.key with name := [] }
    srv := { rr.srv with name := [] }
    ptr := []
    txt := []
    soa := { rr.soa with mname := [], rname := [] }
    mx := { rr.mx with exchange := [] }
    rrsig := { rr.rrsig with signer := [] }
    nsec := { nextDomainName := [], types := none }
    nsec3 := { rr.nsec3 with types := none } }

/-- Key, TTL and data of two records are equal. -/
structure SameRr (rr rr' : DnsResourceRecord) : Prop where
  literal : rr.literal = rr'.literal
  names : List.Forall₂ SameName rr.allNames rr'.allNames
  txt : txtItems rr.txt = txtItems rr'.txt
  nsecTypes : SameTypes rr.nsec.types rr'.nsec.types
  nsec3Types : SameTypes rr.nsec3.types rr'.nsec3.types

@[simp] theorem sameName_nil : SameName [] [] := by
  unfold SameName
  decide +kernel

attribute [simp] DnsResourceRecord.allNames

@[simp] theorem sameTypes_refl (types : Option Bitmap) : SameTypes types types := fun _ => Iff.rfl

/-- Records without texts and bitmaps. -/
theorem sameRr_of_names {rr' : DnsResourceRecord} (literal : rr.literal = rr'.literal)
    (names : List.Forall₂ SameName rr.allNames rr'.allNames) (txt : txtItems rr.txt = txtItems rr'.txt := by rfl)
    (nsec : rr.nsec.types = rr'.nsec.types := by rfl) (nsec3 : rr.nsec3.types = rr'.nsec3.types := by rfl) :
    SameRr rr rr' :=
  ⟨literal, names, txt, nsec ▸ sameTypes_refl _, nsec3 ▸ sameTypes_refl _⟩

/-! ## Records that are decoded -/

/-- The records that the switch of `dns_packet_read_rr()` makes. -/
inductive Decoded (key : DnsResourceKey) (ttl : UInt32) : DnsResourceRecord → Prop
  | srv (d : SrvData) : rdataKind key.type = .srv → IsName d.name → Decoded key ttl { key, ttl, srv := d }
  | ptr (name : CString) : rdataKind key.type = .ptr → IsName name → Decoded key ttl { key, ttl, ptr := name }
  | hinfo (d : HinfoData) : rdataKind key.type = .hinfo → Decoded key ttl { key, ttl, hinfo := d }
  | txt (items : List CString) : rdataKind key.type = .txt → Decoded key ttl { key, ttl, txt := items }
  | a (d : Block 4) : rdataKind key.type = .a → Decoded key ttl { key, ttl, a := d }
  | aaaa (d : Block 16) : rdataKind key.type = .aaaa → Decoded key ttl { key, ttl, aaaa := d }
  | soa (d : SoaData) : rdataKind key.type = .soa → IsName d.mname → IsName d.rname →
      Decoded key ttl { key, ttl, soa := d }
  | mx (d : MxData) : rdataKind key.type = .mx → IsName d.exchange → Decoded key ttl { key, ttl, mx := d }
  | loc (d : LocData) : rdataKind key.type = .loc → d.version = 0 → Decoded key ttl { key, ttl, loc := d }
  | unparsable (data : CString) : rdataKind key.type = .loc → data.head? ≠ some 0 →
      Decoded key ttl { key, ttl, unparsable := true, generic := data }
  | ds (d : DsData) : rdataKind key.type = .ds → Decoded key ttl { key, ttl, ds := d }
  | sshfp (d : SshfpData) : rdataKind key.type = .sshfp → Decoded key ttl { key, ttl, sshfp := d }
  | dnskey (d : DnskeyData) : rdataKind key.type = .dnskey → Decoded key ttl { key, ttl, dnskey := d }
  | rrsig (d : RrsigData) : rdataKind key.type = .rrsig → IsName d.signer → Decoded key ttl { key, ttl, rrsig := d }
  | nsec (d : NsecData) : rdataKind key.type = .nsec → IsName d.nextDomainName → GoodTypes (d.types.getD []) →
      Decoded key ttl { key, ttl, nsec := d }
  | nsec3 (d : Nsec3Data) : rdataKind key.type = .nsec3 → d.salt.length < 256 → d.nextHashedName.length < 256 →
      GoodTypes (d.types.getD []) → Decoded key ttl { key, ttl, nsec3 := d }
  | tlsa (d : TlsaData) : rdataKind key.type = .tlsa → Decoded key ttl { key, ttl, tlsa := d }
  | caa (d : CaaData) : rdataKind key.type = .caa → Decoded key ttl { key, ttl, caa := d }
  | generic (data : CString) : rdataKind key.type = .generic → Decoded key ttl { key, ttl, generic := data }

section Decode

variable {msg : DnsMessage}

theorem read_hasAt {o : Nat} (read : dnsPacketRead msg n o = .ok d r) : HasAt (fun i => msg.bytes[i]?) o d := by
  unfold dnsPacketRead at read
  split at read
  · cases read
    intro i a cell
    rw [getElem?_take] at cell
    split at cell
    · rwa [getElem?_drop] at cell
    · cases cell
  · cases read

theorem readUint8_hasAt {o : Nat} {c : UInt8} (read : dnsPacketReadUint8 msg o = .ok c r) :
    HasAt (fun i => msg.bytes[i]?) o [c] := by
  obtain ⟨d, _, read, done⟩ := bind_eq_ok.mp read
  cases done
  obtain ⟨c, rfl⟩ := length_eq_one_iff.mp (read_eq_ok read).2
  exact read_hasAt read

theorem be16_pointer {c d : UInt8} (mark : c &&& 0xC0 = 0xC0) :
    pointerTarget c d < 0x4000 ∧ be16 (0xC000 + pointerTarget c d) = [c, d] := by
  have high : (c &&& 0x3F).toNat < 64 ∧ UInt8.ofNat (192 + (c &&& 0x3F).toNat) = c :=
    forall_byte (P := fun c => c &&& 0xC0 = 0xC0 → (c &&& 0x3F).toNat < 64 ∧ UInt8.ofNat (192 + (c &&& 0x3F).toNat) = c)
      (by decide +kernel) c mark
  have low := d.toNat_lt
  unfold pointerTarget
  refine ⟨by omega, ?_⟩
  have first : (0xC000 + ((c &&& 0x3F).toNat * 256 + d.toNat)) / 256 = 192 + (c &&& 0x3F).toNat := by omega
  have second : UInt8.ofNat (0xC000 + ((c &&& 0x3F).toNat * 256 + d.toNat)) = d := by
    rw [← UInt8.toNat_inj, byte_toNat]
    omega
  rw [be16, first, high.2, second]

theorem readNameLoop_at {first : Bool} {barrier afterRindex rindex : Nat} {found : CString}
    (read : readNameLoop msg allow barrier afterRindex first name rindex = .ok found r) :
    ∃ s ls offs ptr e, found = name ++ s ∧ Rest first s ls ∧
      NameAt (fun i => msg.bytes[i]?) barrier rindex ls offs ptr e ∧ r = if afterRindex ≠ 0 then afterRindex else e := by
  fun_induction readNameLoop msg allow barrier afterRindex first name rindex with
  | case2 barrier afterRindex first name rindex rindex₁ start =>
    cases read
    obtain ⟨rfl, _⟩ := readUint8_eq_ok start
    exact ⟨[], [], [], none, rindex + 1, by simp, .nil _, .root (readUint8_hasAt start), rfl⟩
  | case5 barrier afterRindex first name rindex c rindex₁ start nonzero small label rindex₂ literal escaped written ih =>
    obtain ⟨s, ls, offs, ptr, e, rfl, rest, at_, rfl⟩ := ih read
    obtain ⟨rfl, length⟩ := read_eq_ok literal
    obtain ⟨rfl, _⟩ := readUint8_eq_ok start
    have limit : c.toNat ≤ 63 := UInt8.le_iff_toNat_le.mp small
    have nonempty : label ≠ [] := by
      rintro rfl
      exact nonzero (UInt8.toNat_inj.mp length.symm)
    have short : label.length ≤ dnsLabelMax := length ▸ limit
    obtain ⟨t, same, text⟩ := escape_ok nonempty short
    cases written.symm.trans same
    refine ⟨(if first then [] else [Shared.Dns.dot]) ++ escaped ++ s, label :: ls, rindex :: offs, ptr, e, by simp,
      rest.label first text nonempty short, .label nonempty short ?_ (by rwa [length, ← Nat.add_assoc]), rfl⟩
    rw [length, UInt8.ofNat_toNat]
    exact hasAt_cons.mpr ⟨(hasAt_cons.mp (readUint8_hasAt start)).1, read_hasAt literal⟩
  | case8 barrier afterRindex first name rindex c rindex₁ start nonzero large pointer d rindex₂ second ptr inside ih =>
    obtain ⟨s, ls, offs, ptr', e, rfl, rest, at_, rfl⟩ := ih read
    obtain ⟨rfl, _⟩ := readUint8_eq_ok start
    obtain ⟨rfl, _⟩ := readUint8_eq_ok second
    obtain ⟨small, halves⟩ := be16_pointer (d := d) pointer.2
    refine ⟨s, ls, [], some ptr, rindex + 2, rfl, rest, .pointer (by omega) (by omega) small ?_ at_, ?_⟩
    · rw [halves]
      exact hasAt_cons.mpr ⟨(hasAt_cons.mp (readUint8_hasAt start)).1, readUint8_hasAt second⟩
    · split_ifs <;> omega
  | _ => cases read

theorem readName_isName {o : Nat} (read : dnsPacketReadName msg allow o = .ok name r) : IsName name := by
  obtain ⟨s, ls, _, _, _, rfl, rest, _⟩ := readNameLoop_at (rewinding_eq_ok.mp read)
  exact ⟨ls, rest⟩

/-- A byte that is read is the first one of the data that is read at the same place. -/
theorem head_of_read {o r' : Nat} {c : UInt8} (first : dnsPacketReadUint8 msg o = .ok c r)
    (whole : dnsPacketRead msg n o = .ok d r') (nonempty : d ≠ []) : d.head? = some c := by
  obtain ⟨one, r₁, read, done⟩ := bind_eq_ok.mp first
  cases done
  unfold dnsPacketRead at read whole
  split at read
  · cases read
    split at whole
    · cases whole
      obtain ⟨n, rfl⟩ : ∃ k, n = k + 1 := by
        cases n with
        | zero => exact absurd rfl nonempty
        | succ k => exact ⟨k, rfl⟩
      have short : o < msg.bytes.length := by omega
      rw [drop_eq_getElem_cons short]
      rfl
    · cases whole
  · cases read

theorem makes_name : Makes (dnsPacketReadName msg allow) IsName := fun _ _ _ => readName_isName

theorem makes_bytes : Makes (dnsPacketRead msg n) (fun d => d.length = n) := fun _ _ _ read => (read_eq_ok read).2

theorem makes_types {offset rdlength : Nat} :
    Makes (readRest offset rdlength (dnsPacketReadTypeWindows msg)) (fun types => GoodTypes (types.getD [])) := by
  intro o types r read
  obtain ⟨_, read⟩ := require_bind_eq_ok.mp read
  exact readTypeWindows_good read

/-- What the switch of `dns_packet_read_rr()` makes. -/
theorem decoded_of_read (key : DnsResourceKey) (ttl : UInt32) (offset rdlength : Nat) :
    Makes (readRdata msg { key, ttl } offset rdlength) (Decoded key ttl) := by
  unfold readRdata
  cases kind : rdataKind key.type with
  | srv =>
    refine Makes.any fun _ => Makes.any fun _ => Makes.any fun _ => ?_
    refine makes_name.bind fun _ name => ?_
    exact .pure (.srv _ kind name)
  | ptr => exact makes_name.bind fun _ name => .pure (.ptr _ kind name)
  | hinfo => exact Makes.any fun _ => Makes.any fun _ => .pure (.hinfo _ kind)
  | txt =>
    dsimp only
    split
    · exact .pure (.txt _ kind)
    · exact Makes.any fun _ => .pure (.txt _ kind)
  | a => exact Makes.any fun _ => .pure (.a _ kind)
  | aaaa => exact Makes.any fun _ => .pure (.aaaa _ kind)
  | soa =>
    refine makes_name.bind fun _ mname => makes_name.bind fun _ rname => ?_
    repeat refine Makes.any fun _ => ?_
    exact .pure (.soa _ kind mname rname)
  | mx => exact Makes.any fun _ => makes_name.bind fun _ name => .pure (.mx _ kind name)
  | loc =>
    intro o rr r read
    dsimp only at read
    rw [get_bind] at read
    obtain ⟨version, _, first, read⟩ := bind_eq_ok.mp read
    split at read
    · revert read
      refine Makes.any (fun _ => ?_) _ rr r
      repeat refine Makes.any fun _ => ?_
      exact .pure (.loc _ kind rfl)
    · rename_i nonzero
      obtain ⟨_, _, back, read⟩ := bind_eq_ok.mp read
      cases back
      obtain ⟨data, _, whole, read⟩ := bind_eq_ok.mp read
      cases read
      refine .unparsable _ kind ?_
      intro zero
      exact nonzero (Option.some.inj ((head_of_read first whole (by rintro rfl; cases zero)).symm.trans zero))
  | ds =>
    repeat refine Makes.any fun _ => ?_
    exact .pure (.ds _ kind)
  | sshfp =>
    repeat refine Makes.any fun _ => ?_
    exact .pure (.sshfp _ kind)
  | dnskey =>
    repeat refine Makes.any fun _ => ?_
    exact .pure (.dnskey _ kind)
  | rrsig =>
    refine Makes.any fun _ => Makes.any fun _ => Makes.any fun _ => Makes.any fun _ => ?_
    refine Makes.any fun _ => Makes.any fun _ => Makes.any fun _ => ?_
    exact makes_name.bind fun _ name => Makes.any fun _ => .pure (.rrsig _ kind name)
  | nsec => exact makes_name.bind fun _ name => makes_types.bind fun _ types => .pure (.nsec _ kind name types)
  | nsec3 =>
    refine Makes.any fun _ => Makes.any fun _ => Makes.any fun _ => Makes.any fun _ => ?_
    refine makes_bytes.bind fun _ salt => Makes.any fun _ => Makes.any fun _ => ?_
    refine makes_bytes.bind fun _ next => makes_types.bind fun _ types => ?_
    exact .pure (.nsec3 _ kind (salt ▸ UInt8.toNat_lt _) (next ▸ UInt8.toNat_lt _) types)
  | tlsa =>
    repeat refine Makes.any fun _ => ?_
    exact .pure (.tlsa _ kind)
  | caa => exact Makes.any fun _ => Makes.any fun _ => Makes.any fun _ => .pure (.caa _ kind)
  | generic => exact Makes.any fun _ => .pure (.generic _ kind)

end Decode

/-! ## Keys -/

theorem class_mask (klass : UInt16) : klass &&& ~~~mdnsRrCacheFlushOrQu &&& mdnsRrCacheFlushOrQu = 0 := by
  rw [UInt16.and_assoc, UInt16.not_and_self, UInt16.and_zero]

/-- The bit that multicast DNS puts into a class is taken out again. -/
theorem class_flush {klass : UInt16} (clear : klass &&& mdnsRrCacheFlushOrQu = 0) :
    (klass ||| mdnsRrCacheFlushOrQu) &&& ~~~mdnsRrCacheFlushOrQu = klass := by
  apply UInt16.eq_of_toBitVec_eq
  apply BitVec.eq_of_getLsbD_eq
  intro i _
  have bit := congrArg (fun x => x.toBitVec.getLsbD i) clear
  simp at bit ⊢
  grind

theorem class_flushed (klass : UInt16) : (klass ||| mdnsRrCacheFlushOrQu) &&& mdnsRrCacheFlushOrQu ≠ 0 := by
  intro zero
  have bit := congrArg (fun x => x.toBitVec.getLsbD 15) zero
  simp [mdnsRrCacheFlushOrQu] at bit

theorem labels_keyName {ls : List CString} : Labels (dnsResourceKeyName key) ls ↔ Labels key.name ls := by
  unfold dnsResourceKeyName
  split
  · rename_i root
    have none : Labels key.name [] := Labels.root_iff.mpr root
    have none' : Labels [dot] [] := Labels.nil_iff.mpr (.inr rfl)
    constructor
    · intro labels
      obtain rfl := labels.eq.symm.trans none'.eq
      exact none
    · intro labels
      obtain rfl := labels.eq.symm.trans none.eq
      exact none'
  · exact Iff.rfl

/-! ## Reading the data again -/

theorem Block.ofBytes_val (d : Block n) : Block.ofBytes n d.val = d := dif_pos d.property

section At

variable {m : Cells UInt8} {msg : DnsMessage} {o e offset rdlength : Nat} (shows : Shows m msg.bytes)

theorem Reads.rest {α : Type} {read : Nat → ReadM α} {P : α → Prop}
    (reads : Reads (read (offset + rdlength - o)) o P e) : Reads (readRest offset rdlength read) o P e := by
  apply Reads.require
  exact reads

include shows

theorem reads_nonempty (bytes : HasAt m o d) : Reads (readNonempty msg d.length) o (· = d) (o + d.length) := by
  intro a r run
  rw [readNonempty, read_at bytes shows] at run
  dsimp only at run
  split at run
  · cases run
  · cases run
    exact ⟨rfl, rfl⟩

/-- The items of a TXT record. -/
theorem reads_txt {items acc : List CString} (start : offset ≤ o) (behind : e = offset + rdlength)
    (at_ : PiecesAt m o e (items.map .string)) : Reads (readTxtLoop msg offset rdlength acc) o (· = acc ++ items) e := by
  induction items generalizing o acc with
  | nil =>
    obtain rfl : e = o := at_
    intro a r run
    rw [readTxtLoop, if_neg (by omega)] at run
    cases run
    exact ⟨(append_nil _).symm, rfl⟩
  | cons s items ih =>
    obtain ⟨next, ⟨short, bytes, rfl⟩, rest⟩ := at_
    have more := rest.le
    intro a r run
    rw [readTxtLoop, if_pos (by omega)] at run
    split at run
    · cases run
    · rename_i data after item
      obtain ⟨rfl, rfl⟩ := reads_rawString shows short bytes _ _ item
      have found := ih (by omega) rest a r run
      rwa [append_assoc] at found

theorem reads_sameName {offs : List Nat} {ptr : Option Nat} (spells : Spells m o o name offs ptr e) (allow : Bool) :
    Reads (dnsPacketReadName msg allow) o (SameName name) e :=
  (reads_name shows spells allow).imp (fun _ found => found.2)

/-- The rest of a record, which is all of what is behind. -/
theorem reads_tail (bytes : HasAt m o d) (size : n = d.length) :
    Reads (dnsPacketRead msg n) o (· = d) (o + d.length) := by
  rw [size]
  exact reads_bytes shows bytes

theorem reads_nonempty_tail (bytes : HasAt m o d) (size : n = d.length) :
    Reads (readNonempty msg n) o (· = d) (o + d.length) := by
  rw [size]
  exact reads_nonempty shows bytes

theorem reads_types_tail {types : Bitmap} (good : GoodTypes types)
    (bytes : HasAt m o (typesBytes types 0 0 (List.replicate 32 0)))
    (size : n = (typesBytes types 0 0 (List.replicate 32 0)).length) :
    Reads (dnsPacketReadTypeWindows msg n) o (fun found => ∀ n, n ∈ found.getD [] ↔ n ∈ types)
      (o + (typesBytes types 0 0 (List.replicate 32 0)).length) := by
  rw [size]
  exact reads_types shows good bytes

/-- The data of a record that was decoded is read where it was appended, at the end of a packet. -/
theorem reads_rdata {ttl : UInt32} {found : CString} (decoded : Decoded key ttl rr)
    (sameName : SameName key.name found) (at_ : PiecesAt m offset e (rdataPieces rr)) (ends : msg.bytes.length = e) :
    Reads (readRdata msg { key := { key with name := found }, ttl } offset (e - offset)) offset (SameRr rr) e := by
  unfold readRdata
  dsimp only
  have larger := at_.le
  unfold rdataPieces at at_
  cases decoded with
  | srv d kind _ =>
    rw [kind] at at_ ⊢
    obtain ⟨_, ⟨priority, rfl⟩, _, ⟨weight, rfl⟩, _, ⟨port, rfl⟩, _, ⟨_, _, name, _⟩, rfl⟩ := at_
    apply (reads_uint16 shows priority).value
    apply (reads_uint16 shows weight).value
    apply (reads_uint16 shows port).value
    apply (reads_sameName shows name true).bind
    intro target same
    exact .pure (sameRr_of_names rfl (by simp [sameName, same]))
  | ptr target kind _ =>
    rw [kind] at at_ ⊢
    obtain ⟨_, ⟨_, _, name, _⟩, rfl⟩ := at_
    apply (reads_sameName shows name true).bind
    intro target same
    exact .pure (sameRr_of_names rfl (by simp [sameName, same]))
  | hinfo d kind =>
    rw [kind] at at_ ⊢
    obtain ⟨_, ⟨short, cpu, rfl⟩, _, ⟨short', os, rfl⟩, rfl⟩ := at_
    apply (reads_string shows short cpu).value
    apply (reads_string shows short' os).value
    exact .pure (sameRr_of_names rfl (by simp [sameName]))
  | txt items kind =>
    rw [kind] at at_ ⊢
    have strings : PiecesAt m offset e ((txtItems items).map .string) := by
      unfold txtItems
      split
      · rename_i empty
        rwa [if_pos empty] at at_
      · rename_i some_
        rwa [if_neg some_] at at_
    have data : offset < e := by
      have nonempty : txtItems items ≠ [] := by
        unfold txtItems
        split
        · simp
        · assumption
      obtain ⟨s, rest, split⟩ := exists_cons_of_ne_nil nonempty
      rw [split] at strings
      obtain ⟨next, ⟨_, _, rfl⟩, behind⟩ := strings
      have := behind.le
      omega
    rw [if_neg (by omega)]
    apply (reads_txt shows le_rfl (by omega) strings).value
    apply Reads.pure
    refine ⟨rfl, by simp [sameName], ?_, sameTypes_refl _, sameTypes_refl _⟩
    unfold txtItems
    split <;> simp_all
  | a d kind | aaaa d kind =>
    rw [kind] at at_ ⊢
    obtain ⟨_, ⟨addr, rfl⟩, rfl⟩ := at_
    apply (reads_tail shows addr d.property.symm).value
    apply Reads.pure
    rw [Block.ofBytes_val]
    exact sameRr_of_names rfl (by simp [sameName])
  | soa d kind _ _ =>
    rw [kind] at at_ ⊢
    obtain ⟨_, ⟨_, _, mname, _⟩, _, ⟨_, _, rname, _⟩, _, ⟨serial, rfl⟩, _, ⟨refresh, rfl⟩, _, ⟨retry, rfl⟩, _,
      ⟨expire, rfl⟩, _, ⟨minimum, rfl⟩, rfl⟩ := at_
    apply (reads_sameName shows mname true).bind
    intro mname' same
    apply (reads_sameName shows rname true).bind
    intro rname' same'
    apply (reads_uint32 shows serial).value
    apply (reads_uint32 shows refresh).value
    apply (reads_uint32 shows retry).value
    apply (reads_uint32 shows expire).value
    apply (reads_uint32 shows minimum).value
    exact .pure (sameRr_of_names rfl (by simp [sameName, same, same']))
  | mx d kind _ =>
    rw [kind] at at_ ⊢
    obtain ⟨_, ⟨priority, rfl⟩, _, ⟨_, _, name, _⟩, rfl⟩ := at_
    apply (reads_uint16 shows priority).value
    apply (reads_sameName shows name true).bind
    intro exchange same
    exact .pure (sameRr_of_names rfl (by simp [sameName, same]))
  | loc d kind zero =>
    rw [kind] at at_ ⊢
    obtain ⟨_, ⟨version, rfl⟩, _, ⟨size, rfl⟩, _, ⟨horizPre, rfl⟩, _, ⟨vertPre, rfl⟩, _, ⟨latitude, rfl⟩, _,
      ⟨longitude, rfl⟩, _, ⟨altitude, rfl⟩, rfl⟩ := at_
    apply (reads_uint8 shows version).value
    rw [if_pos zero]
    apply (reads_uint8 shows size).value
    apply Reads.require
    apply (reads_uint8 shows horizPre).value
    apply Reads.require
    apply (reads_uint8 shows vertPre).value
    apply Reads.require
    apply (reads_uint32 shows latitude).value
    apply (reads_uint32 shows longitude).value
    apply (reads_uint32 shows altitude).value
    apply Reads.pure
    rw [← zero]
    exact sameRr_of_names rfl (by simp [sameName])
  | unparsable data kind nonzero =>
    simp only [kind] at at_ ⊢
    obtain ⟨_, ⟨bytes, rfl⟩, rfl⟩ := at_
    apply Reads.get
    cases data with
    | nil =>
      -- there is no byte to be read behind the record
      intro a r run
      obtain ⟨_, _, version, _⟩ := bind_eq_ok.mp run
      have := (readUint8_eq_ok version).2
      simp only [length_nil] at ends
      omega
    | cons c data =>
      have version := hasAt_cons.mpr ⟨(hasAt_cons.mp bytes).1, HasAt.nil⟩
      apply (reads_uint8 shows version).value
      rw [if_neg (by simpa using nonzero)]
      apply (reads_tail shows bytes (by omega)).value
      exact .pure (sameRr_of_names rfl (by simp [sameName]))
  | ds d kind =>
    rw [kind] at at_ ⊢
    obtain ⟨_, ⟨keyTag, rfl⟩, _, ⟨algorithm, rfl⟩, _, ⟨digestType, rfl⟩, _, ⟨digest, rfl⟩, rfl⟩ := at_
    apply (reads_uint16 shows keyTag).value
    apply (reads_uint8 shows algorithm).value
    apply (reads_uint8 shows digestType).value
    apply Reads.require
    apply (reads_tail shows digest (by omega)).value
    apply Reads.require
    exact .pure (sameRr_of_names rfl (by simp [sameName]))
  | sshfp d kind =>
    rw [kind] at at_ ⊢
    obtain ⟨_, ⟨algorithm, rfl⟩, _, ⟨fptype, rfl⟩, _, ⟨fingerprint, rfl⟩, rfl⟩ := at_
    apply (reads_uint8 shows algorithm).value
    apply (reads_uint8 shows fptype).value
    apply Reads.require
    apply (reads_nonempty_tail shows fingerprint (by omega)).value
    exact .pure (sameRr_of_names rfl (by simp [sameName]))
  | dnskey d kind =>
    rw [kind] at at_ ⊢
    obtain ⟨_, ⟨flags, rfl⟩, _, ⟨protocol, rfl⟩, _, ⟨algorithm, rfl⟩, _, ⟨key, rfl⟩, rfl⟩ := at_
    apply (reads_uint16 shows flags).value
    apply (reads_uint8 shows protocol).value
    apply (reads_uint8 shows algorithm).value
    apply Reads.require
    apply (reads_nonempty_tail shows key (by omega)).value
    exact .pure (sameRr_of_names rfl (by simp [sameName]))
  | rrsig d kind _ =>
    rw [kind] at at_ ⊢
    obtain ⟨_, ⟨typeCovered, rfl⟩, _, ⟨algorithm, rfl⟩, _, ⟨labels, rfl⟩, _, ⟨originalTtl, rfl⟩, _, ⟨expiration, rfl⟩, _,
      ⟨inception, rfl⟩, _, ⟨keyTag, rfl⟩, _, ⟨_, _, signer, _⟩, _, ⟨signature, rfl⟩, rfl⟩ := at_
    apply (reads_uint16 shows typeCovered).value
    apply (reads_uint8 shows algorithm).value
    apply (reads_uint8 shows labels).value
    apply (reads_uint32 shows originalTtl).value
    apply (reads_uint32 shows expiration).value
    apply (reads_uint32 shows inception).value
    apply (reads_uint16 shows keyTag).value
    apply (reads_sameName shows signer false).bind
    intro signer' same
    apply (Reads.rest (reads_nonempty_tail shows signature (by omega))).value
    exact .pure (sameRr_of_names rfl (by simp [sameName, same]))
  | nsec d kind _ good =>
    rw [kind] at at_ ⊢
    dsimp only at at_
    obtain ⟨_, ⟨_, _, name, _⟩, _, ⟨types, rfl⟩, rfl⟩ := at_
    apply (reads_sameName shows name _).bind
    intro next same
    apply (Reads.rest (reads_types_tail shows good types (by omega))).bind
    intro types' all
    apply Reads.pure
    exact ⟨rfl, by simp [sameName, same], rfl, fun n => (all n).symm, sameTypes_refl _⟩
  | nsec3 d kind shortSalt shortNext good =>
    rw [kind] at at_ ⊢
    dsimp only at at_
    obtain ⟨_, ⟨algorithm, rfl⟩, _, ⟨flags, rfl⟩, _, ⟨iterations, rfl⟩, _, ⟨saltSize, rfl⟩, _, ⟨salt, rfl⟩, _,
      ⟨size, rfl⟩, _, ⟨next, rfl⟩, _, ⟨types, rfl⟩, rfl⟩ := at_
    apply (reads_uint8 shows algorithm).value
    apply (reads_uint8 shows flags).value
    apply (reads_uint16 shows iterations).value
    apply (reads_uint8 shows saltSize).value
    apply (reads_tail shows salt (by rw [byte_toNat, Nat.mod_eq_of_lt shortSalt])).value
    apply (reads_uint8 shows size).value
    apply Reads.require
    apply (reads_tail shows next (by rw [byte_toNat, Nat.mod_eq_of_lt shortNext])).value
    apply (Reads.rest (reads_types_tail shows good types (by omega))).bind
    intro types' all
    apply Reads.pure
    exact ⟨rfl, by simp [sameName], rfl, sameTypes_refl _, fun n => (all n).symm⟩
  | tlsa d kind =>
    rw [kind] at at_ ⊢
    obtain ⟨_, ⟨certUsage, rfl⟩, _, ⟨selector, rfl⟩, _, ⟨matchingType, rfl⟩, _, ⟨data, rfl⟩, rfl⟩ := at_
    apply (reads_uint8 shows certUsage).value
    apply (reads_uint8 shows selector).value
    apply (reads_uint8 shows matchingType).value
    apply Reads.require
    apply (reads_nonempty_tail shows data (by omega)).value
    exact .pure (sameRr_of_names rfl (by simp [sameName]))
  | caa d kind =>
    rw [kind] at at_ ⊢
    obtain ⟨_, ⟨flags, rfl⟩, _, ⟨short, tag, rfl⟩, _, ⟨value, rfl⟩, rfl⟩ := at_
    apply (reads_uint8 shows flags).value
    apply (reads_string shows short tag).value
    apply (Reads.rest (reads_tail shows value (by omega))).value
    exact .pure (sameRr_of_names rfl (by simp [sameName]))
  | generic data kind =>
    rw [kind] at at_ ⊢
    obtain ⟨_, ⟨bytes, rfl⟩, rfl⟩ := at_
    apply (reads_tail shows bytes (by omega)).value
    exact .pure (sameRr_of_names rfl (by simp [sameName]))

theorem reads_key {flags : DnsAnswerFlags} (at_ : KeyAt m o e key flags)
    (clear : msg.protocol = .mdns → key.type ≠ dnsTypeOpt → key.class &&& mdnsRrCacheFlushOrQu = 0)
    (flush : flags.cacheFlush = true → msg.protocol = .mdns ∧ key.type ≠ dnsTypeOpt) : Reads (dnsPacketReadKey msg) o
      (fun result => ∃ found, result.1 = { key with name := found } ∧ SameName key.name found) e := by
  obtain ⟨offs, ptr, next, ⟨ls, ls', labels, same, name⟩, type, klass, rfl⟩ := at_
  apply Reads.rewinding
  apply (reads_sameName shows ⟨ls, ls', labels_keyName.mp labels, same, name⟩ true).bind
  intro found sameName
  apply (reads_uint16 shows type).value
  apply (reads_uint16 shows klass).value
  have value : (if msg.protocol = .mdns ∧ key.type ≠ dnsTypeOpt ∧ writtenClass key flags &&& mdnsRrCacheFlushOrQu ≠ 0 then
      writtenClass key flags &&& ~~~mdnsRrCacheFlushOrQu else writtenClass key flags) = key.class := by
    unfold writtenClass
    cases flushed : flags.cacheFlush with
    | true =>
      obtain ⟨mdns, notOpt⟩ := flush flushed
      rw [if_pos ⟨mdns, notOpt, class_flushed _⟩]
      exact class_flush (clear mdns notOpt)
    | false =>
      rw [if_neg Bool.false_ne_true, if_neg]
      rintro ⟨mdns, notOpt, marked⟩
      exact marked (clear mdns notOpt)
  split
  · rename_i masked
    rw [if_pos masked] at value
    apply Reads.pure
    exact ⟨found, by rw [value], sameName⟩
  · rename_i plain
    rw [if_neg plain] at value
    apply Reads.pure
    exact ⟨found, by rw [value], sameName⟩

/-- A record that was decoded is read where it was appended, at the end of a packet. -/
theorem reads_rr {flags : DnsAnswerFlags} (decoded : Decoded rr.key rr.ttl rr) (at_ : RrAt m o e rr flags)
    (ends : msg.bytes.length = e)
    (clear : msg.protocol = .mdns → rr.key.type ≠ dnsTypeOpt → rr.key.class &&& mdnsRrCacheFlushOrQu = 0)
    (flush : flags.cacheFlush = true → msg.protocol = .mdns ∧ rr.key.type ≠ dnsTypeOpt)
    (goodbye : flags.goodbye = false) (ttl : rr.key.type ≠ dnsTypeOpt → rr.ttl &&& 0x80000000 = 0) :
    Reads (dnsPacketReadRr msg) o (fun result => SameRr rr result.1) e := by
  obtain ⟨next, keyAt, ttlAt, lengthAt, larger, small, pieces⟩ := at_
  rw [goodbye, if_neg Bool.false_ne_true] at ttlAt
  apply Reads.rewinding
  apply (reads_key shows keyAt clear flush).bind
  rintro ⟨_, cacheFlush⟩ ⟨found, rfl, sameName⟩
  apply Reads.require
  apply (reads_uint32 shows ttlAt).value
  have kept : (if rr.key.type ≠ dnsTypeOpt ∧ rr.ttl &&& 0x80000000 ≠ 0 then 0 else rr.ttl) = rr.ttl := by
    apply if_neg
    rintro ⟨notOpt, high⟩
    exact high (ttl notOpt)
  rw [kept]
  apply (reads_nat16 shows (by omega) lengthAt).value
  have value : (UInt16.ofNat (e - (next + 6))).toNat = e - (next + 6) :=
    UInt16.toNat_ofNat_of_lt' (Nat.lt_succ_of_le small)
  rw [value]
  apply Reads.require
  apply (reads_rdata shows decoded sameName pieces ends).bind
  intro rr' same
  apply Reads.require
  exact .pure same

end At

section Decode

variable {msg : DnsMessage}

theorem readKey_facts {cacheFlush : Bool} {o : Nat} (read : dnsPacketReadKey msg o = .ok (key, cacheFlush) r) :
    IsName key.name ∧ (msg.protocol = .mdns → key.type ≠ dnsTypeOpt → key.class &&& mdnsRrCacheFlushOrQu = 0) := by
  rw [dnsPacketReadKey, rewinding_eq_ok] at read
  obtain ⟨name, _, isName, read⟩ := bind_eq_ok.mp read
  obtain ⟨type, _, _, read⟩ := bind_eq_ok.mp read
  obtain ⟨klass, _, _, read⟩ := bind_eq_ok.mp read
  split at read
  · cases read
    exact ⟨readName_isName isName, fun _ _ => class_mask klass⟩
  · rename_i plain
    cases read
    refine ⟨readName_isName isName, ?_⟩
    intro mdns notOpt
    by_contra marked
    exact plain ⟨mdns, notOpt, marked⟩

theorem readRr_facts {cacheFlush : Bool} {o : Nat} (read : dnsPacketReadRr msg o = .ok (rr, cacheFlush) r) :
    Decoded rr.key rr.ttl rr ∧ IsName rr.key.name ∧
    (msg.protocol = .mdns → rr.key.type ≠ dnsTypeOpt → rr.key.class &&& mdnsRrCacheFlushOrQu = 0) ∧
    (rr.key.type ≠ dnsTypeOpt → rr.ttl &&& 0x80000000 = 0) := by
  rw [dnsPacketReadRr, rewinding_eq_ok] at read
  obtain ⟨⟨key, flush⟩, _, readKey, read⟩ := bind_eq_ok.mp read
  obtain ⟨_, read⟩ := require_bind_eq_ok.mp read
  obtain ⟨ttl, _, _, read⟩ := bind_eq_ok.mp read
  obtain ⟨rdlength, offset, _, read⟩ := bind_eq_ok.mp read
  obtain ⟨_, read⟩ := require_bind_eq_ok.mp read
  obtain ⟨rr', _, data, read⟩ := bind_eq_ok.mp read
  obtain ⟨_, read⟩ := require_bind_eq_ok.mp read
  cases read
  have decoded := decoded_of_read _ _ _ _ _ _ _ data
  have keyed : rr.key = key ∧ rr.ttl = if key.type ≠ dnsTypeOpt ∧ ttl &&& 0x80000000 ≠ 0 then 0 else ttl := by
    cases decoded <;> exact ⟨rfl, rfl⟩
  obtain ⟨rfl, same⟩ := keyed
  rw [← same] at decoded
  obtain ⟨isName, clear⟩ := readKey_facts readKey
  refine ⟨decoded, isName, clear, ?_⟩
  intro notOpt
  rw [same]
  split
  · rfl
  · rename_i low
    by_contra high
    exact low ⟨notOpt, high⟩

theorem Decoded.names {ttl : UInt32} (decoded : Decoded key ttl rr) (isName : IsName key.name) :
    ∀ n ∈ rrNames rr, IsName n := by
  have owner : IsName (dnsResourceKeyName key) := by
    obtain ⟨ls, labels⟩ := isName
    exact ⟨ls, labels_keyName.mpr labels⟩
  cases decoded with
  | txt items kind =>
    have none : ∀ items : List CString, (items.map Piece.string).flatMap Piece.names = [] := by
      simp [Piece.names]
    intro n mem
    rcases mem_cons.mp mem with rfl | mem
    · exact owner
    · simp only [rdataPieces, kind, Bool.false_eq_true, if_false] at mem
      split at mem
      · cases mem
      · rw [none] at mem
        cases mem
  | _ => simp_all [rrNames, rdataPieces, Piece.names]

end Decode

/-- A record that `dns_packet_read_rr()` decodes is equal to what is decoded after it was appended to
a packet without recorded names, if the flags leave class and TTL alone. -/
theorem rr_round_trip (env : Env) {msg : DnsMessage} {rr rr' : DnsResourceRecord} {cacheFlush cacheFlush' : Bool}
    {o r r' : Nat} {p q : DnsPacket} {flags : DnsAnswerFlags} {appended : AppendedRr}
    (decode : dnsPacketReadRr msg o = .ok (rr, cacheFlush) r) (fresh : Fresh p)
    (protocol : p.protocol = .mdns → msg.protocol = .mdns) (goodbye : flags.goodbye = false)
    (flush : flags.cacheFlush = true → p.protocol = .mdns ∧ rr.key.type ≠ dnsTypeOpt)
    (append : dnsPacketAppendRr env rr flags p = .ok appended q)
    (again : dnsPacketReadRr q.message appended.start = .ok (rr', cacheFlush') r') : SameRr rr rr' := by
  obtain ⟨decoded, isName, clear, ttl⟩ := readRr_facts decode
  obtain ⟨start, _, m, extends_, at_⟩ := rr_tracked env (decoded.names isName) fresh.tracked append
  have shows : Shows m q.message.bytes := extends_.tracked.shows
  have same : q.message.protocol = p.protocol := by
    have bounded : Bounded p := by
      intro entry mem
      rw [fresh.names] at mem
      cases mem
    have grew := grows_rr env rr flags p bounded
    rw [append] at grew
    exact grew.toKeeps.protocol
  have reads := reads_rr shows decoded at_ (bytes_length extends_.tracked.buffer)
    (fun mdns => clear (protocol (same.symm.trans mdns))) (fun set => by rw [same]; exact flush set) goodbye ttl
  rw [start] at again
  exact (reads _ _ again).1

/-- A PTR record for "a" that says "b.a" with a pointer, as it is also appended. -/
def ptrMessage : DnsMessage where
  protocol := .dns
  bytes := List.replicate 12 0 ++ [1, 97, 0, 0, 12, 0, 1, 0, 0, 0, 5, 0, 4, 1, 98, 0xC0, 12]

theorem rr_round_trip_ptr : ∃ rr rr' q appended, returns (dnsPacketReadRr ptrMessage 12) (fun found _ => found.1 = rr) ∧
    dnsPacketAppendRr roomyEnv rr {} newPacket = .ok appended q ∧
    returns (dnsPacketReadRr q.message appended.start) (fun found _ => found.1 = rr') ∧ SameRr rr rr' := by
  obtain ⟨⟨rr, cacheFlush⟩, r, decode, facts⟩ := returns_iff.mp (by decide +kernel :
    returns (dnsPacketReadRr ptrMessage 12)
      (fun found _ => found.1 = { key := ⟨1, 12, [97]⟩, ttl := 5, ptr := [98, 46, 97] }) = true)
  obtain rfl : rr = _ := of_decide_eq_true facts
  obtain ⟨appended, q, append, facts⟩ := returns_iff.mp (by decide +kernel :
    returns (dnsPacketAppendRr roomyEnv { key := ⟨1, 12, [97]⟩, ttl := 5, ptr := [98, 46, 97] } {} newPacket)
      (fun appended q => succeeds (dnsPacketReadRr q.message appended.start)) = true)
  obtain ⟨⟨rr', cacheFlush'⟩, r', again⟩ := succeeds_iff.mp facts
  refine ⟨_, rr', q, appended, returns_iff.mpr ⟨_, _, decode, by simp⟩, append, returns_iff.mpr ⟨_, _, again, by simp⟩, ?_⟩
  exact rr_round_trip roomyEnv decode ⟨by decide, by decide +kernel, rfl⟩ (by decide) rfl (by simp) append again

/-- An NSEC record for "a" with the pseudo type OPT only. -/
def optMessage : DnsMessage where
  protocol := .dns
  bytes := List.replicate 12 0 ++ [1, 97, 0, 0, 47, 0, 1, 0, 0, 0, 5, 0, 9, 0, 0, 6, 0, 0, 0, 0, 0, 0x40]

/-- Pseudo types are ignored, which leaves an empty bitmap; it is appended without a window, and there
is no bitmap when that is read. -/
theorem rr_round_trip_opt : returns (dnsPacketReadRr optMessage 12) (fun found _ => found.1.nsec.types = some [] &&
    returns (dnsPacketAppendRr roomyEnv found.1 {} newPacket) fun appended q =>
      returns (dnsPacketReadRr q.message appended.start) fun again _ => again.1.nsec.types = none) = true := by
  decide +kernel

end SystemdPort.Resolve
