/-
# Resolve.DnsReads — what is read where something was written

`Reads x o P e` says of a call that reads at `o`: if it succeeds, its result has the property `P`,
and it goes on at `e`.  One rule for each of the small calls says what they find where a part of a
record is, so that the reading of a record follows its parts.
-/
import SystemdPort.Resolve.DnsRuns

namespace SystemdPort.Resolve

set_option autoImplicit false

open Basic Lib Lib.Cells Lib.Exec Shared.Dns List

/-- If `x` succeeds at `o`, its result has the property `P`, and it goes on at `e`. -/
def Reads {α : Type} (x : ReadM α) (o : Nat) (P : α → Prop) (e : Nat) : Prop :=
  ∀ a r, x o = .ok a r → P a ∧ r = e

section Rules

variable {α β : Type} {x : ReadM α} {f : α → ReadM β} {o e e' : Nat} {P Q : α → Prop} {R : β → Prop}

theorem Reads.bind (first : Reads x o P e) (second : ∀ a, P a → Reads (f a) e R e') : Reads (x >>= f) o R e' := by
  intro b r run
  obtain ⟨a, s, runX, runF⟩ := bind_eq_ok.mp run
  obtain ⟨property, rfl⟩ := first a s runX
  exact second a property b r runF

theorem Reads.value {a : α} (first : Reads x o (· = a) e) (second : Reads (f a) e R e') : Reads (x >>= f) o R e' := by
  apply first.bind
  rintro _ rfl
  exact second

theorem Reads.pure {a : α} (property : P a) : Reads (Pure.pure a) o P o := by
  intro b r run
  cases run
  exact ⟨property, rfl⟩

theorem Reads.require {c : Prop} [Decidable c] {error : Errno} {y : ReadM β} (rest : Reads y o R e) :
    Reads (require c error >>= fun _ => y) o R e := by
  intro b r run
  exact rest b r (require_bind_eq_ok.mp run).2

theorem Reads.get {f : Nat → ReadM β} (rest : Reads (f o) o R e) : Reads (get >>= f) o R e := rest

theorem Reads.rewinding (reads : Reads x o P e) : Reads (rewinding x) o P e := by
  intro a r run
  exact reads a r (rewinding_eq_ok.mp run)

/-- If `x` succeeds, wherever it reads, its result has the property `P`. -/
def Makes {α : Type} (x : ReadM α) (P : α → Prop) : Prop := ∀ o a r, x o = .ok a r → P a

theorem Makes.bind (first : Makes x P) (second : ∀ a, P a → Makes (f a) R) : Makes (x >>= f) R := by
  intro o b r run
  obtain ⟨a, s, runX, runF⟩ := bind_eq_ok.mp run
  exact second a (first o a s runX) s b r runF

theorem Makes.any (second : ∀ a, Makes (f a) R) : Makes (x >>= f) R := by
  intro o b r run
  obtain ⟨a, s, _, runF⟩ := bind_eq_ok.mp run
  exact second a s b r runF

theorem Makes.pure {a : α} (property : P a) : Makes (Pure.pure a) P := by
  intro o b r run
  cases run
  exact property

theorem Reads.imp (reads : Reads x o P e) (weaker : ∀ a, P a → Q a) : Reads x o Q e := by
  intro a r run
  obtain ⟨property, behind⟩ := reads a r run
  exact ⟨weaker a property, behind⟩

theorem reads_of_ok {a : α} (run : x o = .ok a e) : Reads x o (· = a) e := by
  intro b r run'
  cases run.symm.trans run'
  exact ⟨rfl, rfl⟩

end Rules

/-! ## Numbers -/

theorem byte_toNat (n : Nat) : (UInt8.ofNat n).toNat = n % 256 := UInt8.toNat_ofNat'

theorem ofBe_be16 {v : Nat} (small : v < 65536) : ofBe (be16 v) = v := by
  simp only [ofBe, be16, foldl_cons, foldl_nil, byte_toNat]
  omega

theorem ofBe_be32 {v : Nat} (small : v < 4294967296) : ofBe (be32 v) = v := by
  simp only [ofBe, be32, be16, cons_append, nil_append, foldl_cons, foldl_nil, byte_toNat]
  omega

section At

variable {m : Cells UInt8} {o e : Nat} {msg : DnsMessage} (shows : Shows m msg.bytes)

include shows

theorem reads_bytes {d : CString} (bytes : HasAt m o d) : Reads (dnsPacketRead msg d.length) o (· = d) (o + d.length) :=
  reads_of_ok (read_at bytes shows)

theorem reads_uint8 {v : UInt8} (bytes : HasAt m o [v]) : Reads (dnsPacketReadUint8 msg) o (· = v) (o + 1) :=
  reads_of_ok (readUint8_at bytes shows)

theorem reads_nat16 {v : Nat} (small : v < 65536) (bytes : HasAt m o (be16 v)) :
    Reads (dnsPacketReadUint16 msg) o (· = UInt16.ofNat v) (o + 2) := by
  apply (reads_bytes shows bytes).value
  apply Reads.pure
  rw [ofBe_be16 small]

theorem reads_uint16 {v : UInt16} (bytes : HasAt m o (be16 v.toNat)) :
    Reads (dnsPacketReadUint16 msg) o (· = v) (o + 2) := by
  have reads := reads_nat16 shows v.toNat_lt bytes
  rwa [UInt16.ofNat_toNat] at reads

theorem reads_uint32 {v : UInt32} (bytes : HasAt m o (be32 v.toNat)) :
    Reads (dnsPacketReadUint32 msg) o (· = v) (o + 4) := by
  apply (reads_bytes shows bytes).value
  apply Reads.pure
  rw [ofBe_be32 v.toNat_lt, UInt32.ofNat_toNat]

/-- The length of a string and its bytes, and what is done with them. -/
theorem reads_counted {β : Type} {R : β → Prop} {s : CString} {f : CString → ReadM β} (short : s.length ≤ 255)
    (bytes : HasAt m o (UInt8.ofNat s.length :: s)) (rest : Reads (f s) (o + 1 + s.length) R e) :
    Reads (rewinding (dnsPacketReadUint8 msg >>= fun c => dnsPacketRead msg c.toNat >>= f)) o R e := by
  obtain ⟨head, tail⟩ := hasAt_cons.mp bytes
  have length : (UInt8.ofNat s.length).toNat = s.length := by
    rw [byte_toNat]
    omega
  apply Reads.rewinding
  apply (reads_uint8 shows (hasAt_cons.mpr ⟨head, .nil⟩)).value
  rw [length]
  exact (reads_bytes shows tail).value rest

theorem reads_string {s : CString} (short : s.length ≤ 255) (bytes : HasAt m o (UInt8.ofNat s.length :: s)) :
    Reads (dnsPacketReadString msg) o (· = s) (o + (s.length + 1)) := by
  rw [Nat.add_comm s.length, ← Nat.add_assoc]
  exact reads_counted shows short bytes (.require (.require (.pure rfl)))

theorem reads_rawString {s : CString} (short : s.length ≤ 255) (bytes : HasAt m o (UInt8.ofNat s.length :: s)) :
    Reads (dnsPacketReadRawString msg) o (· = s) (o + (s.length + 1)) := by
  have reads := reads_counted shows short bytes (f := pure) (.pure (P := (· = s)) rfl)
  rw [Nat.add_comm s.length, ← Nat.add_assoc]
  simp only [bind_pure] at reads
  exact reads

/-- A reader that may not follow pointers fails where there is one. -/
theorem NameAt.refused {b : Nat} {ls : List CString} {offs : List Nat} {ptr : Option Nat}
    (at_ : NameAt m b o ls offs ptr e) (points : ptr ≠ none) (afterRindex : Nat) (first : Bool) (name : CString) :
    ∃ r, readNameLoop msg false b afterRindex first name o = .error .ebadmsg r := by
  induction at_ generalizing first name with
  | root => exact absurd rfl points
  | @label b o e l ls offs ptr nonempty short bytes _ ih =>
    obtain ⟨nonzero, small, value⟩ := label_length nonempty short
    obtain ⟨head, tail⟩ := hasAt_cons.mp bytes
    obtain ⟨t, escaped, _⟩ := escape_ok nonempty short
    have start := readUint8_at (hasAt_cons.mpr ⟨head, .nil⟩) shows
    have literal := read_at tail shows
    rw [← value] at literal
    rw [readNameLoop_label start nonzero small literal escaped, value, Nat.add_assoc]
    exact ih points _ _
  | @pointer b o t e ls offs ptr low before small bytes next ih =>
    obtain ⟨c, d, halves, nonzero, large, mark, target⟩ := pointer_bytes small
    rw [halves] at bytes
    obtain ⟨head, _⟩ := hasAt_cons.mp bytes
    have start := readUint8_at (hasAt_cons.mpr ⟨head, .nil⟩) shows
    refine ⟨o + 1, ?_⟩
    rw [readNameLoop]
    split
    · simp_all
    · rename_i c' r start'
      cases start.symm.trans start'
      rw [if_neg nonzero, if_neg large, if_neg (by simp)]

/-- A name that is read is equal to the one that was written. -/
theorem reads_name {name : CString} {offs : List Nat} {ptr : Option Nat} (spells : Spells m o o name offs ptr e)
    (allow : Bool) :
    Reads (dnsPacketReadName msg allow) o (fun found => IsName found ∧ dnsNameEqual name found = .ok true) e := by
  obtain ⟨ls, ls', labels, same, at_⟩ := spells
  by_cases allowed : (allow && !msg.refuseCompression) = true ∨ ptr = none
  · obtain ⟨found, read, labels'⟩ := at_.read shows allowed
    apply (reads_of_ok read).imp
    rintro _ rfl
    refine ⟨⟨ls', labels'⟩, ?_⟩
    rw [labels.equal labels', same]
    simp
  · intro a r run
    obtain ⟨refused, points⟩ := not_or.mp allowed
    obtain ⟨r', failed⟩ := at_.refused shows points 0 true []
    have run := rewinding_eq_ok.mp run
    rw [Bool.not_eq_true] at refused
    rw [refused, failed] at run
    cases run

end At

end SystemdPort.Resolve
