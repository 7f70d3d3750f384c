/-
# Bus.ReadBody — reading from a body in one part

A message that was built has its body in one part.  For such a message (`Readable`),
looking at a position finds what stands there: `peekBytes_ok` for bytes behind padding,
`peekText_ok` for a string with its length, and `peekBasic_ok` for the value whose
bytes they are.
-/
import SystemdPort.Bus.Body
import SystemdPort.Bus.MessageRead

namespace SystemdPort.Bus

open Basic Lib Lib.Exec List BasicValue

set_option autoImplicit false

/-- The only part has the bytes at the beginning of its block. -/
def Held (m : Message) (bytes : List UInt8) (block : Nat) : Prop :=
  ∃ part, m.parts = [part] ∧ part.size = bytes.length ∧ part.data = some block ∧
    (m.blocks block).take bytes.length = bytes

/-- A sealed message of this machine with the given body. -/
structure Readable (m : Message) (bytes : List UInt8) (block : Nat) : Prop where
  isSealed : m.isSealed = true
  native : m.needBswap = false
  size : m.userBodySize = bytes.length
  small : bytes.length < 2 ^ 32
  part : Held m bytes block ∨ bytes = [] ∧ m.parts = [{}]
  cached : m.cachedRindexPart = none ∨ m.cachedRindexPart = some (0, 0)

/-- The message after something was looked at. -/
def Message.looked (m : Message) : Message := { m with cachedRindexPart := some (0, 0) }

section Peek

variable {m : Message} {bytes : List UInt8} {block : Nat}

theorem Readable.looked (readable : Readable m bytes block) : Readable m.looked bytes block :=
  { readable with cached := .inr rfl }

theorem Readable.held (readable : Readable m bytes block) (some_bytes : bytes ≠ []) : Held m bytes block :=
  readable.part.resolve_right fun h => some_bytes h.1

theorem findPart_ok (readable : Readable m bytes block) {index sz : Nat} (inside : index + sz ≤ bytes.length) :
    ∃ q, findPart index sz m = .ok (some q) m.looked ∧
      (q = some ⟨block, index⟩ ∧ Held m bytes block ∨ q = none ∧ bytes = []) := by
  have start : findPartStart m index = (0, 0) := by
    rcases readable.cached with cached | cached <;> simp [findPartStart, cached]
  have whole : ∀ part : BodyPart, m.parts = [part] → part.size = bytes.length →
      busBodyPartMap part = some part →
      findPart index sz m = .ok (some (part.data.map fun block => ⟨block, index⟩)) m.looked := by
    intro part parts size mapped
    have found : findPartLoop index sz 0 0 [part] = some (0, 0, part) := by
      rw [findPartLoop, if_neg (by omega), if_pos (by omega)]
    simp only [findPart, get_bind, start, parts, drop_zero, found, mapped, modify_bind, pure_apply,
      set_cons_zero, Nat.sub_zero, Message.looked]
  rcases readable.part with held | ⟨rfl, parts⟩
  · obtain ⟨part, parts, size, data, -⟩ := id held
    refine ⟨some ⟨block, index⟩, ?_, .inl ⟨rfl, held⟩⟩
    rw [whole part parts size (by simp [busBodyPartMap, data]), data]
    rfl
  · exact ⟨none, whole _ parts rfl rfl, .inr ⟨rfl, rfl⟩⟩

variable {x : List UInt8} {rindex align width nFds : Nat} {valid : CString → Bool} {v : BasicValue} (pos : Nat)

theorem deref_ok {off : Nat} (held : Held m bytes block) (there : At bytes off x) :
    deref (some ⟨block, off⟩) x.length m = .ok x m := by
  obtain ⟨part, parts, size, data, is_body⟩ := held
  have bound := there.bound
  have inBody : m.inBody ⟨block, off⟩ x.length = true := by
    simp [Message.inBody, parts, data, size, bound]
  have load : m.load ⟨block, off⟩ x.length = x := by
    have read := there.read
    rwa [← is_body, drop_take, take_take, Nat.min_eq_left (by omega)] at read
  simp [deref, inBody, load]

theorem Readable.number (readable : Readable m bytes block) (x : List UInt8) : m.number x = ofLittleEndian x := by
  simp [Message.number, readable.native]

theorem messagePeekBody_ok (readable : Readable m bytes block) (some_align : 0 < align)
    (there : At bytes rindex (pad rindex align ++ x)) :
    ∃ q, messagePeekBody rindex align x.length m = .ok (alignTo rindex align + x.length, q) m.looked ∧
      (x ≠ [] → q = some ⟨block, alignTo rindex align⟩ ∧ deref q x.length m.looked = .ok x m.looked) := by
  have ge := alignTo_ge rindex some_align
  have bound := there.bound
  have small := readable.small
  have behind := there.right
  rw [length_pad, Nat.add_sub_cancel' ge] at behind
  rw [length_append, length_pad] at bound
  obtain ⟨q₁, found₁, points₁⟩ := findPart_ok readable
    (show rindex + (alignTo rindex align - rindex) ≤ bytes.length by omega)
  obtain ⟨q₂, found₂, points₂⟩ := findPart_ok readable.looked
    (show alignTo rindex align + x.length ≤ bytes.length by omega)
  have verified : verifyPadding q₁ (alignTo rindex align - rindex) m.looked = .ok ⟨⟩ m.looked := by
    rcases points₁ with ⟨rfl, held⟩ | ⟨rfl, -⟩
    · have read := deref_ok (m := m.looked) held there.left
      rw [length_pad] at read
      exact (bind_of_ok read).trans (check_of rfl)
    · rfl
  have points : x = [] ∨ q₂ = some ⟨block, alignTo rindex align⟩ ∧ deref q₂ x.length m.looked = .ok x m.looked := by
    rcases points₂ with ⟨rfl, held⟩ | ⟨-, rfl⟩
    · exact .inr ⟨rfl, deref_ok held behind⟩
    · rw [length_nil] at bound
      exact .inl (length_eq_zero_iff.mp (by omega))
  refine ⟨q₂, ?_, points.resolve_left⟩
  simp only [messagePeekBody, get_bind]
  rw [check_bind_of (by rw [readable.size]; omega), check_bind_of (by omega),
    check_bind_of (by rw [readable.size]; omega), bind_of_ok found₁]
  dsimp only
  rw [bind_of_ok verified, bind_of_ok found₂]
  dsimp only
  rw [check_bind_of (points.imp length_eq_zero_iff.mpr fun h => by rw [h.1]; rfl)]
  rfl

theorem peekBytes_ok (readable : Readable m bytes block) (some_align : 0 < align)
    (there : At bytes rindex (pad rindex align ++ x)) (some_bytes : x ≠ []) :
    peekBytes rindex align x.length m = .ok (alignTo rindex align + x.length, x) m.looked := by
  obtain ⟨q, peeked, points⟩ := messagePeekBody_ok readable some_align there
  exact (bind_of_ok peeked).trans (bind_of_ok (points some_bytes).2)

theorem alignTo_one : alignTo pos 1 = pos := by simp [alignTo]

theorem pad_one : pad pos 1 = [] := by simp [pad, alignTo_one]

theorem validateNul_ok (s : CText) : validateNul (s.1 ++ [0]) s.1.length = some s := by
  have nulFree : 0 ∉ (s.1 ++ [0]).take s.1.length := by
    rw [take_left]
    exact s.2
  rw [validateNul, dif_pos nulFree]
  simp

theorem peekText_ok (readable : Readable m bytes block) (s : CText) (some_width : 0 < width)
    (there : At bytes rindex (pad rindex width ++ (toLittleEndian width s.1.length ++ (s.1 ++ [0]))))
    (short : s.1.length < 256 ^ width - 1) (isValid : valid s.1 = true) :
    peekText rindex width valid m = .ok (alignTo rindex width + width + (s.1.length + 1), s) m.looked := by
  have ge := alignTo_ge rindex some_width
  rw [← append_assoc] at there
  have size := peekBytes_ok readable some_width there.left (by rw [← length_pos_iff]; simpa using some_width)
  rw [length_toLittleEndian] at size
  have value : m.looked.number (toLittleEndian width s.1.length) = s.1.length := by
    rw [readable.looked.number, ofLittleEndian_toLittleEndian, Nat.mod_eq_of_lt (by omega)]
  have behind : At bytes (alignTo rindex width + width) (pad (alignTo rindex width + width) 1 ++ (s.1 ++ [0])) := by
    have right := there.right
    rw [length_append, length_pad, length_toLittleEndian] at right
    rw [pad_one]
    have place : rindex + (alignTo rindex width - rindex + width) = alignTo rindex width + width := by omega
    rwa [place] at right
  have text := peekBytes_ok readable.looked (by decide) behind (by simp)
  rw [length_append, alignTo_one, length_singleton] at text
  unfold peekText
  rw [bind_of_ok size]
  simp only [get_bind, value]
  rw [check_bind_of (by omega), bind_of_ok text]
  simp only [validateNul_ok]
  rw [check_bind_of isValid]
  rfl

/-- What a value needs to be read back: no file descriptor, and a signature is short. -/
def BasicValue.Within (v : BasicValue) : Prop :=
  v.type ≠ .unixFd ∧ ∀ s, v = .signature s → s.1.length < 255

theorem ofNumber_payload (fds : List Nat) (nFds : Nat) {size : Nat} (fixed : v.type.size = some size)
    (within : v.Within) : (v.payload nFds).length = size ∧
      ofNumber fds (ofLittleEndian (v.payload nFds)) v.type = some v := by
  cases v with
  | unixFd fd => exact absurd rfl within.1
  | string _ | objectPath _ | signature _ => simp [type, BasicType.size] at fixed
  | byte v =>
    cases fixed
    have := v.toNat_lt
    simp only [payload, type, ofNumber, ofLittleEndian_toLittleEndian]
    simp
  | boolean v =>
    cases fixed
    refine ⟨by simp [payload], ?_⟩
    cases v <;> rfl
  | _ v =>
    cases fixed
    simp only [payload, type, ofNumber, ofLittleEndian_toLittleEndian]
    rw [Nat.mod_eq_of_lt (by omega)]
    simp

theorem peekText_payload (readable : Readable m bytes block) {s : CText}
    (stored : v.payload nFds = toLittleEndian width s.1.length ++ s.1 ++ [0]) (aligned : v.type.alignment = width)
    (isValid : valid s.1 = true) (short : s.1.length < 256 ^ width - 1)
    (there : At bytes rindex (pad rindex v.type.alignment ++ v.payload nFds)) : peekText rindex width valid m =
      .ok (alignTo rindex v.type.alignment + (v.payload nFds).length, s) m.looked := by
  have some_width : 0 < width := aligned ▸ v.type.alignment_pos
  rw [stored, aligned, append_assoc] at there
  rw [stored, aligned, peekText_ok readable s some_width there short isValid]
  simp [Nat.add_assoc]

/-- The value at a position is the one whose bytes stand there. -/
theorem peekBasic_ok (readable : Readable m bytes block) (valid : v.valid = true) (within : v.Within)
    (there : At bytes rindex (pad rindex v.type.alignment ++ v.payload nFds)) :
    peekBasic rindex v.type m = .ok (alignTo rindex v.type.alignment + (v.payload nFds).length, v) m.looked := by
  have fits : (v.payload nFds).length < 2 ^ 32 := by
    have bound := there.bound
    have small := readable.small
    rw [length_append] at bound
    omega
  cases fixed : v.type.size with
  | some size =>
    obtain ⟨length, number⟩ := ofNumber_payload m.looked.fds nFds fixed within
    have some_size : 0 < size := by
      revert fixed
      cases v.type <;> simp [BasicType.size] <;> omega
    have peeked := peekBytes_ok readable v.type.alignment_pos there
      (by rw [← length_pos_iff, length]; exact some_size)
    rw [length] at peeked ⊢
    simp only [peekBasic, fixed, peekFixed]
    rw [bind_of_ok peeked]
    simp only [get_bind, readable.looked.number, number]
    rfl
  | none =>
    cases v with
    | string s =>
      have short : s.1.length < 256 ^ 4 - 1 := by
        simp [payload] at fits
        omega
      have text : peekText rindex 4 utf8IsValid m = _ :=
        peekText_payload readable (v := .string s) rfl rfl valid short there
      exact bind_of_ok text
    | objectPath s =>
      have short : s.1.length < 256 ^ 4 - 1 := by
        simp [payload] at fits
        omega
      have text : peekText rindex 4 objectPathIsValid m = _ :=
        peekText_payload readable (v := .objectPath s) rfl rfl valid short there
      exact bind_of_ok text
    | signature s =>
      have short : s.1.length < 256 ^ 1 - 1 := within.2 s rfl
      have text : peekText rindex 1 (signatureIsValid · true) m = _ :=
        peekText_payload readable (v := .signature s) rfl rfl valid short there
      exact bind_of_ok text
    | _ => simp [type, BasicType.size] at fixed

end Peek

end SystemdPort.Bus
