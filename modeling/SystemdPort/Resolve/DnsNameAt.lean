/-
# Resolve.DnsNameAt — names in packets

`NameAt` says which labels a reader finds at a place of a packet: those that are written out there,
and those that a pointer behind them leads to.  `dns_packet_read_name()` follows pointers only
backwards, below the place where it began or jumped to last, so the place where it may not jump to
any more (`jump_barrier`) is part of what is said.

What is known of the packet are some of its bytes, those that later calls do not change.
-/
import SystemdPort.Lib.Cells
import SystemdPort.Resolve.DnsRead
import SystemdPort.Shared.DnsDomainOrder

namespace SystemdPort.Resolve

set_option autoImplicit false

open Basic Lib Lib.Cells Lib.Exec Shared.Dns List UInt8

/-! ## The labels at a place -/

/-- At `offset` are labels; those that are written out begin at `offsets`, a pointer may follow
them, and `behind` is where the name ends. -/
inductive NameAt (m : Cells UInt8) : (barrier offset : Nat) → (labels : List CString) → (offsets : List Nat) →
    (pointer : Option Nat) → (behind : Nat) → Prop
  | root {b o : Nat} : HasAt m o [0] → NameAt m b o [] [] none (o + 1)
  | label {b o e : Nat} {l : CString} {ls : List CString} {offs : List Nat} {ptr : Option Nat} :
      l ≠ [] → l.length ≤ dnsLabelMax → HasAt m o (ofNat l.length :: l) →
      NameAt m b (o + (1 + l.length)) ls offs ptr e → NameAt m b o (l :: ls) (o :: offs) ptr e
  | pointer {b o t e : Nat} {ls : List CString} {offs : List Nat} {ptr : Option Nat} :
      dnsPacketHeaderSize ≤ t → t < b → t < 0x4000 → HasAt m o (be16 (0xC000 + t)) →
      NameAt m t t ls offs ptr e → NameAt m b o ls [] (some t) (o + 2)

namespace NameAt

variable {m m' : Cells UInt8} {b b' o e : Nat} {ls : List CString} {offs : List Nat} {ptr : Option Nat} {msg : DnsMessage}

section

variable (at_ : NameAt m b o ls offs ptr e)

include at_

theorem mono (le : Le m m') : NameAt m' b o ls offs ptr e := by
  induction at_ with
  | root zero => exact .root (zero.mono le)
  | label nonempty short bytes _ ih => exact .label nonempty short (bytes.mono le) ih
  | pointer low before small bytes _ ih => exact .pointer low before small (bytes.mono le) ih

/-- A reader that begins later may jump to more places. -/
theorem raise (later : b ≤ b') : NameAt m b' o ls offs ptr e := by
  induction at_ with
  | root zero => exact .root zero
  | label nonempty short bytes _ ih => exact .label nonempty short bytes (ih later)
  | pointer low before small bytes next _ => exact .pointer low (by omega) small bytes next

theorem behind_gt : o < e := by
  induction at_ with
  | root => omega
  | label _ _ _ _ ih => omega
  | pointer => omega

theorem pointer_lt {t : Nat} (points : ptr = some t) : t < b := by
  induction at_ with
  | root => cases points
  | label _ _ _ _ ih => exact ih points
  | pointer _ before _ _ _ _ =>
    cases points
    exact before

theorem offset_ge : ∀ n ∈ offs, o ≤ n := by
  induction at_ with
  | root => simp
  | @label b o e l ls offs ptr _ _ _ _ ih =>
    intro n mem
    rcases mem_cons.mp mem with rfl | mem
    · exact le_rfl
    · have := ih n mem
      omega
  | pointer => simp

end

end NameAt

/-! ## Reading bytes that are known -/

section At

variable {m : Cells UInt8} {o : Nat} {msg : DnsMessage}

theorem read_at {d : CString} (bytes : HasAt m o d) (shows : Shows m msg.bytes) :
    dnsPacketRead msg d.length o = .ok d (o + d.length) := by
  unfold dnsPacketRead
  have fits : d.length ≤ msg.bytes.length - o := by
    by_cases empty : d = []
    · rw [empty]
      exact Nat.zero_le _
    · have := bytes.inside shows empty
      omega
  rw [if_pos fits, bytes.read shows]

theorem readUint8_at {c : UInt8} (byte : HasAt m o [c]) (shows : Shows m msg.bytes) :
    dnsPacketReadUint8 msg o = .ok c (o + 1) := by
  have read : dnsPacketRead msg 1 o = .ok [c] (o + 1) := read_at byte shows
  rw [dnsPacketReadUint8, bind_of_ok read]
  rfl

end At

variable {l : CString} {ls : List CString} {m : Cells UInt8} {b o e : Nat} {offs : List Nat} {ptr : Option Nat}
  {msg : DnsMessage}

theorem label_length (nonempty : l ≠ []) (short : l.length ≤ dnsLabelMax) :
    ofNat l.length ≠ 0 ∧ ofNat l.length ≤ 63 ∧ (ofNat l.length).toNat = l.length := by
  have pos := length_pos_of_ne_nil nonempty
  have value : (ofNat l.length).toNat = l.length := toNat_ofNat_of_lt' (lt_of_le_of_lt short (by decide))
  refine ⟨?_, ?_, value⟩
  · intro zero
    rw [zero] at value
    have : (0 : UInt8).toNat = 0 := rfl
    omega
  · rwa [le_iff_toNat_le, value]

theorem pointer_bytes {t : Nat} (small : t < 0x4000) :
    ∃ c d, be16 (0xC000 + t) = [c, d] ∧ c ≠ 0 ∧ ¬ c ≤ 63 ∧ c &&& 0xC0 = 0xC0 ∧ pointerTarget c d = t := by
  have high : (0xC000 + t) / 256 = 192 + t / 256 := by omega
  have bits : ∀ k : Fin 64, ofNat (192 + k.val) ≠ 0 ∧ ¬ ofNat (192 + k.val) ≤ 63 ∧
      ofNat (192 + k.val) &&& 0xC0 = 0xC0 ∧ (ofNat (192 + k.val) &&& 0x3F).toNat = k.val := by
    decide
  obtain ⟨nonzero, large, mark, rest⟩ := bits ⟨t / 256, by omega⟩
  refine ⟨ofNat ((0xC000 + t) / 256), ofNat (0xC000 + t), rfl, ?_⟩
  rw [high]
  refine ⟨nonzero, large, mark, ?_⟩
  have low : (ofNat (0xC000 + t)).toNat = t % 256 := by
    rw [toNat_ofNat']
    omega
  unfold pointerTarget
  rw [rest, low]
  show t / 256 * 256 + t % 256 = t
  omega

/-! ## The name that is read -/

section Loop

variable {msg : DnsMessage} {allow first : Bool} {barrier afterRindex rindex rindex₁ rindex₂ : Nat}
  {name : CString} {c d : UInt8}

theorem readNameLoop_end (start : dnsPacketReadUint8 msg rindex = .ok 0 rindex₁) :
    readNameLoop msg allow barrier afterRindex first name rindex =
      .ok name (if afterRindex ≠ 0 then afterRindex else rindex₁) := by
  rw [readNameLoop]
  split <;> simp_all

theorem readNameLoop_label {label escaped : CString} (start : dnsPacketReadUint8 msg rindex = .ok c rindex₁)
    (nonzero : c ≠ 0) (small : c ≤ 63) (literal : dnsPacketRead msg c.toNat rindex₁ = .ok label rindex₂)
    (written : dnsLabelEscape label dnsLabelEscapedMax = .ok escaped) :
    readNameLoop msg allow barrier afterRindex first name rindex =
      readNameLoop msg allow barrier afterRindex false (name ++ (if first then [] else [Shared.Dns.dot]) ++ escaped) rindex₂ := by
  rw [readNameLoop]
  split
  · simp_all
  · rename_i c' r start'
    cases start.symm.trans start'
    rw [if_neg nonzero, if_pos small]
    split
    · simp_all
    · rename_i label' r' literal'
      cases literal.symm.trans literal'
      rw [written]

theorem readNameLoop_pointer (start : dnsPacketReadUint8 msg rindex = .ok c rindex₁)
    (nonzero : c ≠ 0) (large : ¬ c ≤ 63) (mark : c &&& 0xC0 = 0xC0)
    (second : dnsPacketReadUint8 msg rindex₁ = .ok d rindex₂) (low : dnsPacketHeaderSize ≤ pointerTarget c d)
    (before : pointerTarget c d < barrier) : readNameLoop msg true barrier afterRindex first name rindex =
      readNameLoop msg true (pointerTarget c d) (if afterRindex = 0 then rindex₂ else afterRindex) first name
        (pointerTarget c d) := by
  rw [readNameLoop]
  split
  · simp_all
  · rename_i c' r start'
    cases start.symm.trans start'
    rw [if_neg nonzero, if_neg large, if_pos ⟨rfl, mark⟩, second]
    exact if_neg (by omega)

end Loop

theorem NameAt.readLoop (at_ : NameAt m b o ls offs ptr e) (shows : Shows m msg.bytes) {allow : Bool}
    (allowed : allow = true ∨ ptr = none) (afterRindex : Nat) (first : Bool) (name : CString) :
    ∃ s, readNameLoop msg allow b afterRindex first name o =
      .ok (name ++ s) (if afterRindex ≠ 0 then afterRindex else e) ∧ Rest first s ls := by
  induction at_ generalizing afterRindex first name with
  | root zero =>
    refine ⟨[], ?_, .nil first⟩
    rw [readNameLoop_end (readUint8_at zero shows), append_nil]
  | @label b o e l ls offs ptr nonempty short bytes _ ih =>
    obtain ⟨nonzero, small, value⟩ := label_length nonempty short
    obtain ⟨head, tail⟩ := hasAt_cons.mp bytes
    obtain ⟨t, escaped, text⟩ := escape_ok nonempty short
    have start := readUint8_at (hasAt_cons.mpr ⟨head, .nil⟩) shows
    have literal := read_at tail shows
    rw [← value] at literal
    obtain ⟨s, read, rest⟩ := ih allowed afterRindex false (name ++ (if first then [] else [Shared.Dns.dot]) ++ t)
    refine ⟨(if first then [] else [Shared.Dns.dot]) ++ t ++ s, ?_, rest.label first text nonempty short⟩
    rw [readNameLoop_label start nonzero small literal escaped, value, Nat.add_assoc, read]
    simp
  | @pointer b o t e ls offs ptr low before small bytes next ih =>
    have allowed : allow = true := by simpa using allowed
    subst allowed
    obtain ⟨c, d, split, nonzero, large, mark, target⟩ := pointer_bytes small
    rw [split] at bytes
    obtain ⟨head, tail⟩ := hasAt_cons.mp bytes
    have start := readUint8_at (hasAt_cons.mpr ⟨head, .nil⟩) shows
    have second := readUint8_at tail shows
    obtain ⟨s, read, rest⟩ := ih (.inl rfl) (if afterRindex = 0 then o + 1 + 1 else afterRindex) first name
    refine ⟨s, ?_, rest⟩
    rw [readNameLoop_pointer start nonzero large mark second (by omega) (by omega), target, read]
    -- the place to go on at is the one behind the first pointer
    split_ifs <;> first | rfl | omega

/-- `dns_packet_read_name()` finds the labels, and goes on behind the name. -/
theorem NameAt.read {m : Cells UInt8} {o e : Nat} {ls : List CString} {offs : List Nat} {ptr : Option Nat}
    {msg : DnsMessage} (at_ : NameAt m o o ls offs ptr e) (shows : Shows m msg.bytes) {allow : Bool}
    (allowed : (allow && !msg.refuseCompression) = true ∨ ptr = none) :
    ∃ name, dnsPacketReadName msg allow o = .ok name e ∧ Labels name ls := by
  obtain ⟨s, read, rest⟩ := at_.readLoop shows allowed 0 true []
  exact ⟨s, rewinding_eq_ok.mpr read, rest⟩

/-- The labels and the pointer are where a look at the bytes finds them. -/
theorem NameAt.layout (at_ : NameAt m b o ls offs ptr e) (shows : Shows m msg.bytes) :
    nameLayout msg o = (offs, ptr) := by
  have byte : ∀ {o : Nat} {c : UInt8}, HasAt m o [c] → ∃ inside : o < msg.bytes.length, msg.bytes[o] = c := by
    intro o c has
    exact List.getElem?_eq_some_iff.mp (shows o c (hasAt_cons.mp has).1)
  induction at_ with
  | root zero =>
    obtain ⟨inside, zero⟩ := byte zero
    rw [nameLayout, dif_pos inside, zero]
    rfl
  | @label b o e l ls offs ptr nonempty short bytes _ ih =>
    obtain ⟨nonzero, small, value⟩ := label_length nonempty short
    obtain ⟨inside, head⟩ := byte (hasAt_cons.mpr ⟨(hasAt_cons.mp bytes).1, .nil⟩)
    rw [nameLayout, dif_pos inside]
    simp [head, if_neg nonzero, if_pos small, value, Nat.add_assoc, ih]
  | @pointer b o t e ls offs ptr low before small bytes next ih =>
    obtain ⟨c, d, split, nonzero, large, mark, target⟩ := pointer_bytes small
    rw [split] at bytes
    obtain ⟨inside, head⟩ := byte (hasAt_cons.mpr ⟨(hasAt_cons.mp bytes).1, .nil⟩)
    obtain ⟨inside', second⟩ := byte (hasAt_cons.mp bytes).2
    rw [nameLayout, dif_pos inside]
    simp only [head, if_neg nonzero, if_neg large]
    rw [getD_eq_getElem?_getD, getElem?_eq_getElem inside', second, Option.getD_some, target]

end SystemdPort.Resolve
