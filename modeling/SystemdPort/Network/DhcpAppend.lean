/-
# Network.DhcpAppend — options over three areas

Where `dhcp_option_append()` puts options.  `Filled` says for each offset that can be reached
what is in the areas: one of them is being filled, those before it are closed with an END
option, and those behind it are as they were.  An option is appended to the first area
with room for it, and an area that had none is closed.

There is no place for this if a single byte is left in the area: then
`dhcp_option_append_tlv()` fails an assertion that it has some room for its option.
-/
import SystemdPort.Network.DhcpOption

namespace SystemdPort.Network

open Basic Lib Lib.Exec List

set_option autoImplicit false

/-! ## What is in an area -/

abbrev DhcpOption := UInt8 × List UInt8

def encode (o : DhcpOption) : List UInt8 := o.1 :: o.2.length.toUInt8 :: o.2

def encodeAll (r : List DhcpOption) : List UInt8 := r.flatMap encode

@[simp] theorem length_encode (o : DhcpOption) : (encode o).length = 2 + o.2.length := by
  simp [encode]
  omega

theorem encodeAll_append (r : List DhcpOption) (o : DhcpOption) : encodeAll (r ++ [o]) = encodeAll r ++ encode o := by
  simp [encodeAll]

/-- An option that `dhcp_option_append_tlv()` is used for. -/
structure Plain (o : DhcpOption) : Prop where
  code : o.1 ∉ [DhcpCode.pad, DhcpCode.end, DhcpCode.userClass, DhcpCode.sipServer,
    DhcpCode.vendorSpecific, DhcpCode.relayAgentInformation]
  short : o.2.length ≤ 255

section Area

variable {k : Nat}

/-- The bytes at the beginning of an area. -/
def Begins (a : Area k) (front : List UInt8) : Prop := ∃ rest, a.bytes = front ++ rest

/-- The options at the beginning of an area, up to an offset. -/
structure Holding (a : Area k) (r : List DhcpOption) (offset : Nat) : Prop where
  length : offset = (encodeAll r).length
  bytes : ∃ rest, a.bytes = encodeAll r ++ rest

/-- The options of an area, up to an END option if it has any bytes. -/
def Closed (a : Area k) (r : List DhcpOption) : Prop :=
  (∃ rest, a.bytes = encodeAll r ++ DhcpCode.end :: rest) ∨ (a.bytes = [] ∧ r = [])

theorem Holding.start (a : Area k) : Holding a [] 0 := ⟨rfl, a.bytes, rfl⟩

theorem writeBytes_ok (a : Area k) (offset : Nat) (front old behind new : List UInt8)
    (bytes : a.bytes = front ++ old ++ behind) (same : new.length = old.length) :
    ∃ a' : Area k, writeBytes front.length new ⟨a, offset⟩ = .ok ⟨⟩ ⟨a', offset⟩ ∧
      a'.bytes = front ++ new ++ behind := by
  have inside : front.length + new.length ≤ k := by
    have := a.size
    rw [bytes, length_append, length_append] at this
    omega
  refine ⟨a.write front.length new inside, ?_, ?_⟩
  · rw [writeBytes, get_bind, dif_pos inside]
    rfl
  · show overwrite 0 a.bytes front.length new = _
    rw [bytes, overwrite_append 0 front new old behind same]

theorem Begins.write {a : Area k} {front : List UInt8} (begins : Begins a front) (new : List UInt8)
    (room : front.length + new.length ≤ k) (offset : Nat) :
    ∃ a' : Area k, writeBytes front.length new ⟨a, offset⟩ = .ok ⟨⟩ ⟨a', offset⟩ ∧ Begins a' (front ++ new) := by
  obtain ⟨rest, bytes⟩ := begins
  have size := a.size
  rw [bytes, length_append] at size
  obtain ⟨a', written, bytes'⟩ := writeBytes_ok a offset front (rest.take new.length) (rest.drop new.length) new
    (by rw [bytes, append_assoc, take_append_drop]) (by rw [length_take]; omega)
  exact ⟨a', written, _, bytes'⟩

variable {a : Area k} {o : DhcpOption} {c : Cursor k} {r : List DhcpOption} {offset : Nat}

/-- The code, the length and the value are written one after another. -/
theorem Begins.appendTlv {front : List UInt8} (begins : Begins a front) (short : o.2.length ≤ 255) {size : Nat}
    (inside : size ≤ k) (room : front.length + 2 + o.2.length ≤ size) (offset : Nat) :
    ∃ a' : Area k, dhcpOptionAppendTlv size front.length o.1 o.2 ⟨a, offset⟩ =
        .ok (front.length + 2 + o.2.length) ⟨a', offset⟩ ∧ Begins a' (front ++ encode o) := by
  obtain ⟨a₁, write₁, begins₁⟩ := begins.write [o.1] (by simp; omega) offset
  obtain ⟨a₂, write₂, begins₂⟩ := begins₁.write [o.2.length.toUInt8] (by simp; omega) offset
  obtain ⟨a₃, write₃, begins₃⟩ := begins₂.write o.2 (by simp; omega) offset
  simp only [length_append, length_singleton] at write₁ write₂ write₃
  refine ⟨a₃, ?_, by simpa [encode] using begins₃⟩
  unfold dhcpOptionAppendTlv
  rw [require_of (by omega), require_of short, require_of (by omega), require_of (by omega), bind_of_ok write₁,
    bind_of_ok write₂, bind_of_ok write₃]
  rfl

theorem Holding.append {a a' : Area k} {r : List DhcpOption} {offset : Nat} (holding : Holding a r offset) {o : DhcpOption}
    (begins : Begins a' (encodeAll r ++ encode o)) : Holding a' (r ++ [o]) (offset + 2 + o.2.length) := by
  refine ⟨?_, by rw [encodeAll_append]; exact begins⟩
  rw [encodeAll_append, length_append, ← holding.length, length_encode]
  omega

theorem optionAppend_plain (plain : Plain o) :
    (optionAppend o.1 (.bytes o.2) : AreaM k PUnit) = (do
      require (0 < k) .assertion
      let c ← get
      let offset ← dhcpOptionAppendTlv (k - 1) c.offset o.1 o.2
      moveOffset offset) := by
  have code := plain.code
  simp only [mem_cons, not_mem_nil, or_false, not_or] at code
  obtain ⟨notPad, notEnd, notUserClass, notSip, notVendor, notRelay⟩ := code
  rw [optionAppend, if_neg notEnd, if_neg (not_or.mpr ⟨notPad, notEnd⟩), if_neg notUserClass, if_neg notSip,
    if_neg notVendor, if_neg notRelay]

/-- With one byte left, an assertion fails. -/
theorem optionAppend_oneLeft (plain : Plain o) (one : c.offset + 1 = k) :
    optionAppend o.1 (.bytes o.2) c = .error .assertion c := by
  rw [optionAppend_plain plain, require_of (by omega), get_bind, bind_apply]
  have failed : dhcpOptionAppendTlv (k - 1) c.offset o.1 o.2 c = .error .assertion c := by
    unfold dhcpOptionAppendTlv
    by_cases some_size : 0 < k - 1
    · rw [require_of some_size, require_of plain.short, require, if_neg (by omega)]
      rfl
    · rw [require, if_neg some_size]
      rfl
  rw [failed]

/-- Without enough room, nothing changes. -/
theorem optionAppend_full (plain : Plain o) (some_room : c.offset + 1 < k) (full : k ≤ c.offset + 2 + o.2.length) :
    optionAppend o.1 (.bytes o.2) c = .error (.errno .enobufs) c := by
  rw [optionAppend_plain plain, require_of (by omega), get_bind, bind_apply]
  have failed : dhcpOptionAppendTlv (k - 1) c.offset o.1 o.2 c = .error (.errno .enobufs) c := by
    unfold dhcpOptionAppendTlv
    rw [require_of (by omega), require_of plain.short, require_of (by omega), require, if_neg (by omega)]
    rfl
  rw [failed]

theorem optionAppend_fits (plain : Plain o) (holding : Holding a r offset) (room : offset + 2 + o.2.length < k) :
    ∃ a' : Area k, optionAppend o.1 (.bytes o.2) ⟨a, offset⟩ = .ok ⟨⟩ ⟨a', offset + 2 + o.2.length⟩ ∧
      Holding a' (r ++ [o]) (offset + 2 + o.2.length) := by
  have length := holding.length
  obtain ⟨a', tlv, begins⟩ := Begins.appendTlv holding.bytes plain.short (by omega : k - 1 ≤ k)
    (by omega : (encodeAll r).length + 2 + o.2.length ≤ k - 1) offset
  rw [← length] at tlv
  refine ⟨a', ?_, holding.append begins⟩
  rw [optionAppend_plain plain, require_of (by omega), get_bind, bind_of_ok tlv]
  rfl

/-- There is always room for the END option. -/
theorem endOption_ok (holding : Holding a r offset) (room : offset < k) :
    ∃ a' : Area k, endOption ⟨a, offset⟩ = .ok ⟨⟩ ⟨a', offset + 1⟩ ∧ Closed a' r := by
  have length := holding.length
  obtain ⟨a', write, behind, bytes⟩ := Begins.write holding.bytes [DhcpCode.end]
    (by rw [length_singleton]; omega) offset
  rw [← length] at write
  refine ⟨a', ?_, .inl ⟨behind, by rw [bytes]; simp⟩⟩
  rw [endOption, optionAppend, require_of (by omega)]
  show appendCode (if DhcpCode.end = DhcpCode.end then k else k - 1) DhcpCode.end _ = _
  rw [appendCode, get_bind, require_of (by show offset + 1 ≤ k; omega), bind_of_ok write]
  rfl

end Area

/-- What a call does to an area with the options `r`: the option `o` is there, or nothing is, or an assertion fails. -/
def Stored {k : Nat} (x : AreaM k PUnit) (c : Cursor k) (r : List DhcpOption) (offset : Nat) (o : DhcpOption)
    (crash : Prop) : Prop :=
  (∃ a', x c = .ok ⟨⟩ ⟨a', offset + 2 + o.2.length⟩ ∧ offset + 2 + o.2.length < k ∧
    Holding a' (r ++ [o]) (offset + 2 + o.2.length)) ∨
  (∃ e a', x c = .error (.errno e) ⟨a', offset⟩ ∧ Holding a' r offset) ∨ (crash ∧ ∃ c', x c = .error .assertion c')

/-- So for every area that has some bytes left; whether an assertion may fail depends on their number. -/
def Stores (code : UInt8) (value : OptionValue) (o : DhcpOption) (crash : Nat → Prop) : Prop :=
  ∀ (k : Nat) (a : Area k) (r : List DhcpOption) (offset : Nat), offset < k → Holding a r offset →
    Stored (optionAppend code value) ⟨a, offset⟩ r offset o (crash (k - offset))

theorem Plain.stores {o : DhcpOption} (plain : Plain o) : Stores o.1 (.bytes o.2) o (· = 1) := by
  intro k a r offset inside holding
  by_cases one : offset + 1 = k
  · exact .inr (.inr ⟨by omega, _, optionAppend_oneLeft (c := ⟨a, offset⟩) plain one⟩)
  by_cases room : offset + 2 + o.2.length < k
  · obtain ⟨a', done, holding'⟩ := optionAppend_fits plain holding room
    exact .inl ⟨a', done, room, holding'⟩
  · exact .inr (.inl ⟨_, a, optionAppend_full (c := ⟨a, offset⟩) plain (by show offset + 1 < k; omega) (not_lt.mp room),
      holding⟩)

/-! ## What is in a message -/

section Message

variable {n k : Nat} {overload : UInt8} {m₀ : DhcpMessage n} {first : List DhcpOption} {p p' : Packet n}

section OnArea

variable {area : Area k} {offset : Nat} {store : Cursor k → Packet n → Packet n} {x : AreaM k PUnit} {c : Cursor k}

theorem onArea_ok (done : x ⟨area, offset⟩ = .ok ⟨⟩ c) :
    onArea area offset store x p = .ok (.ok c.offset) (store c p) := by
  unfold onArea
  rw [done]
  rfl

theorem onArea_errno {e : Errno} (failed : x ⟨area, offset⟩ = .error (.errno e) c) :
    onArea area offset store x p = .ok (.error e) (store c p) := by
  unfold onArea
  rw [failed]
  rfl

theorem onArea_assertion (failed : x ⟨area, offset⟩ = .error .assertion c) :
    onArea area offset store x p = .error .assertion (store c p) := by
  unfold onArea
  rw [failed]
  rfl

end OnArea

theorem setOffset_bind {α : Type} (offset : Nat) (f : PUnit → DhcpM n α) :
    (setOffset offset >>= f) p = f ⟨⟩ { p with offset } := rfl

/-- Where `message->sname` starts, as an offset. -/
def snameStart (n : Nat) (overload : UInt8) : Nat := if useFile overload then n + 128 else n

/-- The area before `message->sname`, if it is in use, is closed. -/
def FileDone (overload : UInt8) (m₀ : DhcpMessage n) (file : Area 128) (r : List DhcpOption) : Prop :=
  if useFile overload then Closed file r else r = [] ∧ file = m₀.file

/-- The options appended so far to a message that was `m₀`, of which the first ones are in
the options area. -/
inductive Filled (overload : UInt8) (m₀ : DhcpMessage n) (first : List DhcpOption) :
    Packet n → List DhcpOption → Prop
  | options {p : Packet n} {r : List DhcpOption} (start : first <+: r) (inside : p.offset < n)
      (holding : Holding p.message.options r p.offset) (file : p.message.file = m₀.file)
      (sname : p.message.sname = m₀.sname) : Filled overload m₀ first p r
  | file {p : Packet n} {r r₁ r₂ : List DhcpOption} {offset : Nat} (used : useFile overload = true)
      (start : first <+: r₁) (closed : Closed p.message.options r₁) (inside : offset < 128)
      (holding : Holding p.message.file r₂ offset) (at_offset : p.offset = n + offset)
      (sname : p.message.sname = m₀.sname) (parts : r = r₁ ++ r₂) : Filled overload m₀ first p r
  | sname {p : Packet n} {r r₁ r₂ r₃ : List DhcpOption} {offset : Nat} (used : useSname overload = true)
      (start : first <+: r₁) (closed : Closed p.message.options r₁)
      (file : FileDone overload m₀ p.message.file r₂) (inside : offset < 64)
      (holding : Holding p.message.sname r₃ offset) (at_offset : p.offset = snameStart n overload + offset)
      (parts : r = r₁ ++ (r₂ ++ r₃)) : Filled overload m₀ first p r
  | nowhere {p : Packet n} (empty : n = 0) (noFile : useFile overload = false) (noSname : useSname overload = false)
      (start : first = []) (at_offset : p.offset = 0) (same : p.message = m₀) : Filled overload m₀ first p []

/-- The bytes left in the area that is being filled. -/
def roomLeft (overload : UInt8) (p : Packet n) : Nat :=
  if p.offset < n then n - p.offset
  else if useFile overload ∧ p.offset - n < 128 then 128 - (p.offset - n)
  else if useSname overload then 64 - (p.offset - snameStart n overload)
  else 0

theorem roomLeft_sname {offset : Nat} (used : useSname overload = true)
    (at_offset : p.offset = snameStart n overload + offset) : roomLeft overload p = 64 - offset := by
  unfold roomLeft
  by_cases useFile : useFile overload = true
  · have at_sname : snameStart n overload = n + 128 := by simp [snameStart, useFile]
    rw [if_neg (by omega), if_neg (by omega), if_pos used]
    omega
  · have at_sname : snameStart n overload = n := by simp [snameStart, useFile]
    rw [if_neg (by omega), if_neg (by simp [useFile]), if_pos used]
    omega

section Where

variable {offset : Nat} (code : UInt8) (value : OptionValue)

theorem dhcpOptionAppend_file (used : useFile overload = true) (at_offset : p.offset = n + offset) :
    dhcpOptionAppend overload code value p = appendToFile overload code value p := by
  rw [dhcpOptionAppend, get_bind, if_neg (by omega), appendOverloaded, if_pos used]

theorem dhcpOptionAppend_sname (used : useSname overload = true) (at_offset : p.offset = snameStart n overload + offset) :
    dhcpOptionAppend overload code value p = appendToSname (snameStart n overload) code value p := by
  by_cases useFile : useFile overload = true
  · have at_sname : snameStart n overload = n + 128 := by simp [snameStart, useFile]
    rw [at_sname] at at_offset ⊢
    rw [dhcpOptionAppend, get_bind, if_neg (by omega), appendOverloaded, if_pos useFile, appendToFile, get_bind,
      if_neg (by omega), if_pos used]
  · have at_sname : snameStart n overload = n := by simp [snameStart, useFile]
    rw [at_sname] at at_offset ⊢
    rw [dhcpOptionAppend, get_bind, if_neg (by omega), appendOverloaded, if_neg useFile, if_pos used]

end Where

/-- What appending an option does: it is there, or it is not, or an assertion fails. -/
def Appends (overload : UInt8) (m₀ : DhcpMessage n) (first : List DhcpOption) (crash : Prop)
    (x : DhcpM n (Except Errno PUnit)) (p : Packet n) (r : List DhcpOption) (o : DhcpOption) : Prop :=
  ∃ p', (x p = .ok (.ok ⟨⟩) p' ∧ Filled overload m₀ first p' (r ++ [o])) ∨
    (∃ e, x p = .ok (.error e) p' ∧ Filled overload m₀ first p' r) ∨ (crash ∧ x p = .error .assertion p')

theorem Appends.imp {crash crash' : Prop} {x : DhcpM n (Except Errno PUnit)} {r : List DhcpOption} {o : DhcpOption}
    (weaker : crash → crash') (appends : Appends overload m₀ first crash x p r o) :
    Appends overload m₀ first crash' x p r o := by
  obtain ⟨p', appended⟩ := appends
  exact ⟨p', appended.imp_right (Or.imp_right (And.imp_left weaker))⟩

variable {code : UInt8} {value : OptionValue} {crash : Nat → Prop} {o : DhcpOption} {r r₁ r₂ r₃ : List DhcpOption}
  {offset : Nat}

theorem appendToSname_appends (stores : Stores code value o crash) (used : useSname overload = true)
    (start : first <+: r₁) (closed : Closed p.message.options r₁) (file : FileDone overload m₀ p.message.file r₂)
    (inside : offset < 64) (holding : Holding p.message.sname r₃ offset)
    (at_offset : p.offset = snameStart n overload + offset) :
    Appends overload m₀ first (crash (64 - offset)) (appendToSname (snameStart n overload) code value) p
      (r₁ ++ (r₂ ++ r₃)) o := by
  have sub : p.offset - snameStart n overload = offset := by omega
  unfold Appends
  rw [appendToSname, get_bind, sub, if_pos inside]
  rcases stores _ _ _ _ inside holding with ⟨a, done, room, holding'⟩ | ⟨e, a, failed, holding'⟩ | ⟨crashes, c, failed⟩
  · refine ⟨⟨{ p.message with sname := a }, snameStart n overload + (offset + 2 + o.2.length)⟩, .inl ⟨?_, ?_⟩⟩
    · rw [bind_of_ok (show onSname offset _ p = _ from onArea_ok done)]
      rfl
    · exact .sname used start closed file room holding' rfl (by simp)
  · refine ⟨{ p with message.sname := a }, .inr (.inl ⟨e, ?_, .sname used start closed file inside holding' at_offset rfl⟩)⟩
    rw [bind_of_ok (show onSname offset _ p = _ from onArea_errno failed)]
    rfl
  · refine ⟨{ p with message.sname := c.area }, .inr (.inr ⟨crashes, ?_⟩)⟩
    rw [bind_apply, show onSname offset _ p = _ from onArea_assertion failed]

theorem appendToFile_appends (stores : Stores code value o crash) (used : useFile overload = true)
    (start : first <+: r₁) (closed : Closed p.message.options r₁) (inside : offset < 128)
    (holding : Holding p.message.file r₂ offset) (at_offset : p.offset = n + offset)
    (sname : p.message.sname = m₀.sname) :
    Appends overload m₀ first (crash (128 - offset) ∨ crash 64) (appendToFile overload code value) p (r₁ ++ r₂) o := by
  have sub : p.offset - n = offset := by omega
  unfold Appends
  rw [appendToFile, get_bind, sub, if_pos inside]
  rcases stores _ _ _ _ inside holding with ⟨a, done, room, holding'⟩ | ⟨e, a, failed, holding'⟩ | ⟨crashes, c, failed⟩
  · refine ⟨⟨{ p.message with file := a }, n + (offset + 2 + o.2.length)⟩, .inl ⟨?_, ?_⟩⟩
    · rw [bind_of_ok (show onFile offset _ p = _ from onArea_ok done)]
      rfl
    · exact .file used start closed room holding' rfl sname (by simp)
  · rw [bind_of_ok (show onFile offset _ p = _ from onArea_errno failed)]
    dsimp only
    by_cases more : e = .enobufs ∧ useSname overload = true
    · obtain ⟨a', done, closed'⟩ := endOption_ok holding' inside
      rw [if_pos more, bind_of_ok (show onFile offset _ _ = _ from onArea_ok done)]
      have at_sname : snameStart n overload = n + 128 := by simp [snameStart, used]
      have done : FileDone overload m₀ a' r₂ := by
        rwa [FileDone, if_pos used]
      have next : Appends overload m₀ first (crash (64 - 0)) (appendToSname (snameStart n overload) code value)
          ⟨{ p.message with file := a' }, n + 128⟩ (r₁ ++ (r₂ ++ [])) o :=
        appendToSname_appends stores more.2 start closed done (by decide) (.start _) at_sname.symm
      rw [append_nil, at_sname] at next
      dsimp only
      rw [setOffset_bind]
      exact next.imp Or.inr
    · rw [if_neg more]
      exact ⟨_, .inr (.inl ⟨e, rfl, .file used start closed inside holding' at_offset sname rfl⟩)⟩
  · refine ⟨{ p with message.file := c.area }, .inr (.inr ⟨.inl crashes, ?_⟩)⟩
    rw [bind_apply, show onFile offset _ p = _ from onArea_assertion failed]

/-- Behind the options area, which is closed. -/
theorem appendOverloaded_appends (stores : Stores code value o crash)
    (used : useFile overload = true ∨ useSname overload = true) (start : first <+: r)
    (closed : Closed p.message.options r) (at_offset : p.offset = n) (file : p.message.file = m₀.file)
    (sname : p.message.sname = m₀.sname) :
    Appends overload m₀ first (crash 128 ∨ crash 64) (appendOverloaded overload code value) p r o := by
  unfold appendOverloaded
  by_cases useFile : useFile overload = true
  · rw [if_pos useFile]
    have next : Appends overload m₀ first (crash (128 - 0) ∨ crash 64) (appendToFile overload code value) p (r ++ []) o :=
      appendToFile_appends stores useFile start closed (by decide) (.start _) at_offset sname
    rwa [append_nil] at next
  · have useSname := used.resolve_left useFile
    have at_sname : snameStart n overload = n := by simp [snameStart, useFile]
    rw [if_neg useFile, if_pos useSname]
    have done : FileDone overload m₀ p.message.file [] := by
      rw [FileDone, if_neg useFile]
      exact ⟨rfl, file⟩
    have next : Appends overload m₀ first (crash (64 - 0)) (appendToSname (snameStart n overload) code value) p
        (r ++ ([] ++ [])) o :=
      appendToSname_appends stores useSname start closed done (by decide) (.start _) (at_offset.trans at_sname.symm)
    rw [append_nil, append_nil, at_sname] at next
    exact next.imp Or.inr

/-- There is room in the options area. -/
theorem dhcpOptionAppend_fits (plain : Plain o) (holding : Holding p.message.options r p.offset)
    (fits : p.offset + 2 + o.2.length < n) : ∃ a, dhcpOptionAppend overload o.1 (.bytes o.2) p =
        .ok (.ok ⟨⟩) ⟨{ p.message with options := a }, p.offset + 2 + o.2.length⟩ ∧
      Holding a (r ++ [o]) (p.offset + 2 + o.2.length) := by
  obtain ⟨a, done, holding'⟩ := optionAppend_fits plain holding fits
  refine ⟨a, ?_, holding'⟩
  rw [dhcpOptionAppend, get_bind, if_pos (by omega), bind_of_ok (show onOptions _ p = _ from onArea_ok done)]
  rfl

/-- The area that is being filled may crash the call, or one that is tried next. -/
theorem dhcpOptionAppend_appends (stores : Stores code value o crash) (filled : Filled overload m₀ first p r) :
    Appends overload m₀ first (crash (roomLeft overload p) ∨ crash 128 ∨ crash 64)
      (dhcpOptionAppend overload code value) p r o := by
  unfold Appends
  cases filled with
  | options start inside holding file sname =>
    rw [roomLeft, if_pos inside, dhcpOptionAppend, get_bind, if_pos inside]
    rcases stores _ _ _ _ inside holding with ⟨a, done, room, holding'⟩ | ⟨e, a, failed, holding'⟩ | ⟨crashes, c, failed⟩
    · rw [bind_of_ok (show onOptions _ p = _ from onArea_ok done)]
      exact ⟨_, .inl ⟨rfl, .options (start.trans (prefix_append _ _)) room holding' file sname⟩⟩
    · rw [bind_of_ok (show onOptions _ p = _ from onArea_errno failed)]
      dsimp only
      by_cases more : e = .enobufs ∧ (useFile overload = true ∨ useSname overload = true)
      · obtain ⟨a', done, closed⟩ := endOption_ok holding' inside
        rw [if_pos more, bind_of_ok (show onOptions _ _ = _ from onArea_ok done)]
        have next : Appends overload m₀ first (crash 128 ∨ crash 64) (appendOverloaded overload code value)
            ⟨{ p.message with options := a' }, n⟩ r o :=
          appendOverloaded_appends stores more.2 start closed rfl file sname
        exact next.imp Or.inr
      · rw [if_neg more]
        exact ⟨_, .inr (.inl ⟨e, rfl, .options start inside holding' file sname⟩)⟩
    · refine ⟨⟨{ p.message with options := c.area }, c.offset⟩, .inr (.inr ⟨.inl crashes, ?_⟩)⟩
      rw [bind_apply, show onOptions _ p = _ from onArea_assertion failed]
  | @file _ _ _ offset used start closed inside holding at_offset sname parts =>
    subst parts
    have room : 128 - (p.offset - n) = 128 - offset := by omega
    rw [roomLeft, if_neg (by omega), if_pos ⟨used, by omega⟩, room, dhcpOptionAppend_file _ _ used at_offset]
    exact (appendToFile_appends stores used start closed inside holding at_offset sname).imp (Or.imp_right Or.inr)
  | sname used start closed file inside holding at_offset parts =>
    subst parts
    rw [roomLeft_sname used at_offset, dhcpOptionAppend_sname _ _ used at_offset]
    exact (appendToSname_appends stores used start closed file inside holding at_offset).imp Or.inl
  | nowhere empty noFile noSname start at_offset same =>
    rw [dhcpOptionAppend, get_bind, if_neg (by omega), appendOverloaded, noFile, noSname]
    exact ⟨p, .inr (.inl ⟨_, rfl, .nowhere empty noFile noSname start at_offset same⟩)⟩

theorem dhcpOptionAppend_oneLeft (plain : Plain o) (filled : Filled overload m₀ first p r)
    (one : roomLeft overload p = 1) : dhcpOptionAppend overload o.1 (.bytes o.2) p = .error .assertion p := by
  cases filled with
  | options start inside holding file sname =>
    rw [roomLeft, if_pos inside] at one
    have failed : onOptions _ p = _ := onArea_assertion
      (optionAppend_oneLeft (c := ⟨p.message.options, p.offset⟩) plain (by show p.offset + 1 = n; omega))
    rw [dhcpOptionAppend, get_bind, if_pos inside, bind_apply, failed]
  | @file _ _ r₂ offset used start closed inside holding at_offset sname parts =>
    rw [roomLeft, if_neg (by omega), if_pos ⟨used, by omega⟩] at one
    have sub : p.offset - n = offset := by omega
    have failed : onFile offset _ p = _ := onArea_assertion
      (optionAppend_oneLeft (c := ⟨p.message.file, offset⟩) plain (by show offset + 1 = 128; omega))
    rw [dhcpOptionAppend_file _ _ used at_offset, appendToFile, get_bind, sub, if_pos inside, bind_apply, failed]
  | @sname _ _ r₂ r₃ offset used start closed file inside holding at_offset parts =>
    rw [roomLeft_sname used at_offset] at one
    have sub : p.offset - snameStart n overload = offset := by omega
    have failed : onSname offset _ p = _ := onArea_assertion
      (optionAppend_oneLeft (c := ⟨p.message.sname, offset⟩) plain (by show offset + 1 = 64; omega))
    rw [dhcpOptionAppend_sname _ _ used at_offset, appendToSname, get_bind, sub, if_pos inside, bind_apply, failed]
  | nowhere empty noFile noSname start at_offset same =>
    rw [roomLeft, if_neg (by omega), if_neg (by simp [noFile]), if_neg (by simp [noSname])] at one
    cases one

/-! ## The end -/

/-- An area in use after the END option: it has the options `r`, or was not reached. -/
def AreaDone (used : Bool) (a₀ a : Area k) (r : List DhcpOption) : Prop :=
  (used = true ∧ Closed a r) ∨ (r = [] ∧ a = a₀)

/-- A message with the END option, from `m₀`. -/
structure Ended (overload : UInt8) (m₀ : DhcpMessage n) (first : List DhcpOption) (m : DhcpMessage n)
    (r₁ r₂ r₃ : List DhcpOption) : Prop where
  start : first <+: r₁
  options : Closed m.options r₁
  file : AreaDone (useFile overload) m₀.file m.file r₂
  sname : AreaDone (useSname overload) m₀.sname m.sname r₃

theorem areaDone_of_fileDone {file : Area 128} (done : FileDone overload m₀ file r) :
    AreaDone (useFile overload) m₀.file file r := by
  unfold FileDone at done
  split at done
  · exact .inl ⟨by assumption, done⟩
  · exact .inr done

theorem dhcpOptionAppend_end (filled : Filled overload m₀ first p r) :
    ∃ res p', dhcpOptionAppend overload DhcpCode.end (.bytes []) p = .ok res p' ∧
      ∃ r₁ r₂ r₃, r = r₁ ++ (r₂ ++ r₃) ∧ Ended overload m₀ first p'.message r₁ r₂ r₃ := by
  cases filled with
  | options start inside holding file sname =>
    obtain ⟨a, done, closed⟩ := endOption_ok holding inside
    rw [endOption] at done
    rw [dhcpOptionAppend, get_bind, if_pos inside, bind_of_ok (show onOptions _ p = _ from onArea_ok done)]
    exact ⟨_, _, rfl, r, [], [], by simp, start, closed, .inr ⟨rfl, file⟩, .inr ⟨rfl, sname⟩⟩
  | @file _ r₁ r₂ offset used start closed inside holding at_offset sname parts =>
    obtain ⟨a, done, closed'⟩ := endOption_ok holding inside
    rw [endOption] at done
    have sub : p.offset - n = offset := by omega
    rw [dhcpOptionAppend_file _ _ used at_offset, appendToFile, get_bind, sub, if_pos inside,
      bind_of_ok (show onFile offset _ p = _ from onArea_ok done)]
    exact ⟨_, _, rfl, r₁, r₂, [], by simpa using parts, start, closed, .inl ⟨used, closed'⟩, .inr ⟨rfl, sname⟩⟩
  | @sname _ r₁ r₂ r₃ offset used start closed file inside holding at_offset parts =>
    obtain ⟨a, done, closed'⟩ := endOption_ok holding inside
    rw [endOption] at done
    have sub : p.offset - snameStart n overload = offset := by omega
    rw [dhcpOptionAppend_sname _ _ used at_offset, appendToSname, get_bind, sub, if_pos inside,
      bind_of_ok (show onSname offset _ p = _ from onArea_ok done)]
    exact ⟨_, _, rfl, r₁, r₂, r₃, parts, start, closed, areaDone_of_fileDone file, .inl ⟨used, closed'⟩⟩
  | nowhere empty noFile noSname start at_offset same =>
    rw [dhcpOptionAppend, get_bind, if_neg (by omega), appendOverloaded, noFile, noSname]
    refine ⟨.error .enobufs, p, rfl, [], [], [], rfl, ?_, ?_, ?_, ?_⟩
    · simp [start]
    · exact .inr ⟨length_eq_zero_iff.mp (p.message.options.size.trans empty), rfl⟩
    · exact .inr ⟨rfl, by rw [same]⟩
    · exact .inr ⟨rfl, by rw [same]⟩

/-! ## Runs -/

/-- The options that were appended, with `o` if that was. -/
def noteAppended (o : DhcpOption) (res : Except Errno PUnit) (rest : List DhcpOption) : List DhcpOption :=
  match res with
  | .ok _ => o :: rest
  | .error _ => rest

/-- Appends options one after another; the result is those that were appended. -/
def appendEach (overload : UInt8) : List DhcpOption → DhcpM n (List DhcpOption)
  | [] => pure []
  | o :: os => do
      let res ← dhcpOptionAppend overload o.1 (.bytes o.2)
      let rest ← appendEach overload os
      pure (noteAppended o res rest)

/-- Appends options and the END option. -/
def appendAll (overload : UInt8) (os : List DhcpOption) : DhcpM n (List DhcpOption) := do
  let appended ← appendEach overload os
  let _ ← dhcpOptionAppend overload DhcpCode.end (.bytes [])
  pure appended

/-- No option is appended with a single byte left. -/
def NeverOneLeft (overload : UInt8) (os : List DhcpOption) (p : Packet n) : Prop :=
  ∀ front o back appended p', os = front ++ o :: back → appendEach overload front p = .ok appended p' →
    roomLeft overload p' ≠ 1

/-- A message to start with: the areas that options may go to are zero. -/
structure Blank (overload : UInt8) (m : DhcpMessage n) : Prop where
  file : useFile overload = true → m.file.bytes = List.replicate 128 0
  sname : useSname overload = true → m.sname.bytes = List.replicate 64 0

theorem Filled.start (overload : UInt8) (m : DhcpMessage n) : Filled overload m [] ⟨m, 0⟩ [] := by
  by_cases some_options : 0 < n
  · exact .options prefix_rfl some_options (.start _) rfl rfl
  obtain rfl : n = 0 := by omega
  have closed : Closed m.options [] := .inr ⟨length_eq_zero_iff.mp m.options.size, rfl⟩
  by_cases useFile : useFile overload = true
  · exact .file useFile prefix_rfl closed (by decide) (.start _) rfl rfl rfl
  by_cases useSname : useSname overload = true
  · have done : FileDone overload m m.file [] := by
      rw [FileDone, if_neg useFile]
      exact ⟨rfl, rfl⟩
    refine .sname useSname prefix_rfl closed done (by decide) (.start _) ?_ rfl
    simp [snameStart, useFile]
  · exact .nowhere rfl (by simpa using useFile) (by simpa using useSname) rfl rfl rfl

theorem appendEach_filled (os : List DhcpOption) (plain : ∀ o ∈ os, Plain o) (filled : Filled overload m₀ first p r) :
    (NeverOneLeft overload os p ∧ ∃ appended p', appendEach overload os p = .ok appended p' ∧
      appended.Sublist os ∧ Filled overload m₀ first p' (r ++ appended)) ∨
    (¬ NeverOneLeft overload os p ∧ ∃ p', appendEach overload os p = .error .assertion p') := by
  induction os generalizing p r with
  | nil =>
    refine .inl ⟨?_, [], p, rfl, .slnil, by simpa using filled⟩
    intro front o back _ _ cut
    simp at cut
  | cons o os ih =>
    by_cases one : roomLeft overload p = 1
    · have failed := dhcpOptionAppend_oneLeft (plain o (by simp)) filled one
      refine .inr ⟨fun never => never [] o os [] p rfl rfl one, p, ?_⟩
      rw [appendEach, bind_apply, failed]
    -- what happens behind the first call
    have behind {res : Except Errno PUnit} {p₁ : Packet n}
        (first_call : dhcpOptionAppend overload o.1 (.bytes o.2) p = .ok res p₁) :
        NeverOneLeft overload (o :: os) p ↔ NeverOneLeft overload os p₁ := by
      constructor
      · intro never front x back appended p' cut run
        refine never (o :: front) x back (noteAppended o res appended) p' (by rw [cut]; rfl) ?_
        rw [appendEach, bind_of_ok first_call, bind_of_ok run]
        rfl
      · intro never front x back appended p' cut run
        cases front with
        | nil =>
          obtain ⟨rfl, rfl⟩ := by exact run
          exact one
        | cons y front =>
          obtain ⟨rfl, behind⟩ := List.cons.inj cut
          rw [appendEach, bind_of_ok first_call] at run
          obtain ⟨rest, p₂, later, final⟩ := bind_eq_ok.mp run
          obtain ⟨-, rfl⟩ := by simpa using final
          exact never front x back rest p₂ behind later
    have rest_plain : ∀ x ∈ os, Plain x := fun x member => plain x (mem_cons_of_mem o member)
    obtain ⟨p₁, ⟨call, filled₁⟩ | ⟨e, call, filled₁⟩ | ⟨one' | large | large, -⟩⟩ :=
      dhcpOptionAppend_appends (plain o (by simp)).stores filled
    case' inr.inr.inl => exact absurd one' one
    case' inr.inr.inr.inl => cases large
    case' inr.inr.inr.inr => cases large
    all_goals
      rw [behind call, appendEach, bind_of_ok call]
      rcases ih rest_plain filled₁ with ⟨never, appended, p', run, sub, filled'⟩ | ⟨once, p', failed⟩
    · refine .inl ⟨never, o :: appended, p', by rw [bind_of_ok run]; rfl, sub.cons_cons o, ?_⟩
      simpa using filled'
    · exact .inr ⟨once, p', by rw [bind_apply, failed]⟩
    · exact .inl ⟨never, appended, p', by rw [bind_of_ok run]; rfl, sub.cons o, filled'⟩
    · exact .inr ⟨once, p', by rw [bind_apply, failed]⟩

end Message

end SystemdPort.Network
