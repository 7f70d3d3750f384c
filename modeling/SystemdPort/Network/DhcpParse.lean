/-
# Network.DhcpParse — parsing what was appended

`parse_options()` of a closed area notes its options one by one, and nothing in an area of
zeroes.  So `dhcp_option_parse()` reports the options that `dhcp_option_append()` has put
in the areas of a message, if it gets to know which areas are in use: the option that
tells has to be in the options area.
-/
import SystemdPort.Network.DhcpAppend

namespace SystemdPort.Network

open Basic Lib Lib.Exec List

set_option autoImplicit false

/-! ## One area -/

/-- An option of which the parser has nothing to say. -/
def Ordinary (o : DhcpOption) : Prop := o.1 ∉ DhcpCode.special ∧ o.2.length ≤ 255

/-- The options of a message: its type, the areas it uses, and others that are reported. -/
inductive Known (type overload : UInt8) : DhcpOption → Prop
  | type : Known type overload (DhcpCode.messageType, [type])
  | overload : Known type overload (DhcpCode.overload, [overload])
  | other {o : DhcpOption} (code : o.1 ∉ [DhcpCode.pad, DhcpCode.end, DhcpCode.overload, DhcpCode.messageType,
      DhcpCode.errorMessage]) (short : o.2.length ≤ 255) : Known type overload o

/-- What the parser notes of an option. -/
def note (withOverload : Bool) (st : ParseState) (o : DhcpOption) : ParseState :=
  if o.1 = DhcpCode.messageType then { st with messageType := o.2.headD 0 }
  else if o.1 = DhcpCode.overload then
    if withOverload then { st with overload := o.2.headD 0 } else st
  else { st with reported := st.reported ++ [o] }

variable {type overload : UInt8} {memory withOverload : Bool} {o : DhcpOption} {r : List DhcpOption} {n k : Nat}

theorem Ordinary.plain (ordinary : Ordinary o) : Plain o := by
  refine ⟨?_, ordinary.2⟩
  have special := ordinary.1
  simp only [DhcpCode.special, mem_cons, not_or] at special ⊢
  tauto

theorem Ordinary.known (ordinary : Ordinary o) : Known type overload o := by
  refine .other ?_ ordinary.2
  have special := ordinary.1
  simp only [DhcpCode.special, mem_cons, not_or] at special ⊢
  tauto

theorem messageType_plain (type : UInt8) : Plain (DhcpCode.messageType, [type]) := ⟨by simp; decide, by simp⟩

theorem overload_plain (overload : UInt8) : Plain (DhcpCode.overload, [overload]) := ⟨by simp; decide, by simp⟩

/-- What the loop looks at first. -/
theorem Known.readable (known : Known type overload o) :
    o.1 ≠ DhcpCode.pad ∧ o.1 ≠ DhcpCode.end ∧ o.2.length ≤ 255 := by
  cases known with
  | type | overload => exact ⟨by dsimp only; decide, by dsimp only; decide, by simp⟩
  | other code short =>
    simp only [mem_cons, not_or] at code
    exact ⟨code.1, code.2.1, short⟩

theorem parseOption_known (known : Known type overload o) (st : ParseState) :
    parseOption memory withOverload o.1 o.2 st = .ok ⟨⟩ (note withOverload st o) := by
  cases known with
  | type => rfl
  | overload => rfl
  | other code short =>
    simp only [mem_cons, not_mem_nil, or_false, not_or] at code
    obtain ⟨-, -, notOverload, notType, notError⟩ := code
    rw [parseOption, if_neg notType, if_neg notError, if_neg notOverload, note, if_neg notType, if_neg notOverload]
    rfl

theorem parseOptionsLoop_encode (known : Known type overload o) (rest : List UInt8) (st : ParseState) :
    parseOptionsLoop memory withOverload (k + 1) (encode o ++ rest) st =
      parseOptionsLoop memory withOverload k rest (note withOverload st o) := by
  obtain ⟨notPad, notEnd, short⟩ := known.readable
  have short : o.2.length.toUInt8.toNat = o.2.length := by
    simp
    omega
  have value : (o.2 ++ rest).take o.2.length = o.2 := by simp
  have behind : (o.2 ++ rest).drop o.2.length = rest := by simp
  rw [encode, cons_append, cons_append, parseOptionsLoop, if_neg notPad, if_neg notEnd, short, require_of (by simp), value, behind, bind_of_ok (parseOption_known known st)]

theorem parseOptionsLoop_all (known : ∀ o ∈ r, Known type overload o) (rest : List UInt8) (st : ParseState) :
    parseOptionsLoop memory withOverload (r.length + k) (encodeAll r ++ rest) st =
      parseOptionsLoop memory withOverload k rest (r.foldl (note withOverload) st) := by
  induction r generalizing st with
  | nil => simp [encodeAll]
  | cons o r ih =>
    have cut : encodeAll (o :: r) ++ rest = encode o ++ (encodeAll r ++ rest) := by simp [encodeAll]
    have rounds : (o :: r).length + k = r.length + k + 1 := by
      rw [length_cons]
      omega
    rw [cut, rounds, parseOptionsLoop_encode (known o (by simp)),
      ih fun x member => known x (mem_cons_of_mem o member)]
    rfl

theorem length_le_encodeAll (r : List DhcpOption) : r.length ≤ (encodeAll r).length := by
  induction r with
  | nil => simp
  | cons o r ih =>
    have cut : encodeAll (o :: r) = encode o ++ encodeAll r := by simp [encodeAll]
    rw [cut, length_append, length_encode, length_cons]
    omega

variable {os : List DhcpOption} {p : Packet n} (rest : List UInt8)

theorem parseOptionsLoop_end (st : ParseState) :
    parseOptionsLoop memory withOverload (k + 1) (DhcpCode.end :: rest) st = .ok ⟨⟩ st := rfl

theorem parseOptionsLoop_pad :
    parseOptionsLoop memory withOverload (k + 1) (0 :: rest) = parseOptionsLoop memory withOverload k rest := rfl

theorem parseOptions_closed {a : Area n} (closed : Closed a r) (known : ∀ o ∈ r, Known type overload o)
    (st : ParseState) : parseOptions memory withOverload a.bytes st = .ok ⟨⟩ (r.foldl (note withOverload) st) := by
  rcases closed with ⟨rest, bytes⟩ | ⟨bytes, rfl⟩
  · have long := length_le_encodeAll r
    obtain ⟨k, enough⟩ : ∃ k, a.bytes.length = r.length + (k + 1) := by
      refine ⟨a.bytes.length - r.length - 1, ?_⟩
      rw [bytes, length_append, length_cons]
      omega
    rw [parseOptions, enough, bytes, parseOptionsLoop_all known, parseOptionsLoop_end]
  · rw [bytes]
    rfl

theorem parseOptions_zeroes (m : Nat) (st : ParseState) :
    parseOptions memory withOverload (List.replicate m 0) st = .ok ⟨⟩ st := by
  have loop (k : Nat) : parseOptionsLoop memory withOverload k (List.replicate k 0) st = .ok ⟨⟩ st := by
    induction k with
    | zero => rfl
    | succ k ih =>
      rwa [replicate_succ, parseOptionsLoop_pad]
  rw [parseOptions, length_replicate]
  exact loop m

/-! ## A message -/

/-- The options that the callback is called for. -/
def reportable (r : List DhcpOption) : List DhcpOption :=
  r.filter fun o => o.1 ≠ DhcpCode.messageType ∧ o.1 ≠ DhcpCode.overload

/-- What is noted of the options of a message, one after the other. -/
theorem foldl_note (known : ∀ o ∈ r, Known type overload o) (st : ParseState) :
    r.foldl (note withOverload) st = { st with
      messageType := if (DhcpCode.messageType, [type]) ∈ r then type else st.messageType
      overload := if withOverload ∧ (DhcpCode.overload, [overload]) ∈ r then overload else st.overload
      reported := st.reported ++ reportable r } := by
  induction r generalizing st with
  | nil => simp [reportable]
  | cons o r ih =>
    rw [foldl_cons, ih fun x member => known x (mem_cons_of_mem o member)]
    have apart : DhcpCode.messageType ≠ DhcpCode.overload := by decide
    cases known o mem_cons_self with
    | type => simp [note, reportable, apart.symm]
    | overload => cases withOverload <;> simp [note, reportable, apart, apart.symm]
    | other code short =>
      simp only [mem_cons, not_or] at code
      obtain ⟨-, -, notOverload, notType, -⟩ := code
      simp [note, reportable, notOverload, notType, Prod.ext_iff, eq_comm (b := o.1)]

theorem parseIfUsed_done {used : Bool} {a₀ a : Area k} (done : AreaDone used a₀ a r)
    (blank : used = true → a₀.bytes = List.replicate k 0) (known : ∀ o ∈ r, Known type overload o) (st : ParseState) :
    parseIfUsed memory used a.bytes st = .ok ⟨⟩ (r.foldl (note false) st) := by
  unfold parseIfUsed
  rcases done with ⟨rfl, closed⟩ | ⟨rfl, rfl⟩
  · exact parseOptions_closed closed known st
  · cases used with
    | false => rfl
    | true =>
      rw [blank rfl]
      exact parseOptions_zeroes k st

variable {m₀ m : DhcpMessage n} {first r₁ r₂ r₃ : List DhcpOption}

theorem dhcpOptionParse_ended (memory : Bool) (ended : Ended overload m₀ first m r₁ r₂ r₃) (blank : Blank overload m₀)
    (known : ∀ o ∈ r₁ ++ (r₂ ++ r₃), Known type overload o)
    (announced : (useFile overload = false ∧ useSname overload = false) ∨ (DhcpCode.overload, [overload]) ∈ first) :
    ∃ st, st.reported = reportable (r₁ ++ (r₂ ++ r₃)) ∧ dhcpOptionParse memory m (dhcpHeaderSize + n) {} =
        if (DhcpCode.messageType, [type]) ∈ r₁ ++ (r₂ ++ r₃) ∧ type ≠ 0 then .ok (type, none) st
        else .error .enomsg st := by
  have known₁ : ∀ o ∈ r₁, Known type overload o := fun o member => known o (by simp [member])
  have known₂ : ∀ o ∈ r₂, Known type overload o := fun o member => known o (by simp [member])
  have known₃ : ∀ o ∈ r₃, Known type overload o := fun o member => known o (by simp [member])
  have parsed₁ : parseOptions memory true (m.options.bytes.take (dhcpHeaderSize + n - dhcpHeaderSize)) {} =
      .ok ⟨⟩ (r₁.foldl (note true) {}) := by
    rw [Nat.add_sub_cancel_left, take_of_length_le m.options.size.le]
    exact parseOptions_closed ended.options known₁ _
  have used : useFile (r₁.foldl (note true) {}).overload = useFile overload ∧
      useSname (r₁.foldl (note true) {}).overload = useSname overload := by
    rw [foldl_note known₁]
    dsimp only
    split
    · exact ⟨rfl, rfl⟩
    · rename_i missing
      obtain ⟨noFile, noSname⟩ := announced.resolve_right fun there => missing ⟨rfl, ended.start.subset there⟩
      rw [noFile, noSname]
      decide
  refine ⟨r₃.foldl (note false) (r₂.foldl (note false) (r₁.foldl (note true) {})), ?_, ?_⟩
  · rw [foldl_note known₃, foldl_note known₂, foldl_note known₁]
    simp [reportable]
  · rw [dhcpOptionParse, require_of (by omega), bind_of_ok parsed₁, get_bind, used.1, used.2,
      bind_of_ok (parseIfUsed_done ended.file blank.file known₂ _),
      bind_of_ok (parseIfUsed_done ended.sname blank.sname known₃ _), get_bind]
    have type_eq : (r₃.foldl (note false) (r₂.foldl (note false) (r₁.foldl (note true) {}))).messageType =
        if (DhcpCode.messageType, [type]) ∈ r₁ ++ (r₂ ++ r₃) then type else 0 := by
      rw [foldl_note known₃, foldl_note known₂, foldl_note known₁]
      dsimp only
      generalize (DhcpCode.messageType, [type]) = t
      by_cases in₁ : t ∈ r₁ <;> by_cases in₂ : t ∈ r₂ <;> by_cases in₃ : t ∈ r₃ <;> simp [in₂, in₃]
    have no_message : (r₃.foldl (note false) (r₂.foldl (note false) (r₁.foldl (note true) {}))).errorMessage =
        none := by
      rw [foldl_note known₃, foldl_note known₂, foldl_note known₁]
    rw [type_eq, no_message, ite_self]
    by_cases found : (DhcpCode.messageType, [type]) ∈ r₁ ++ (r₂ ++ r₃) ∧ type ≠ 0
    · rw [if_pos found, if_pos found.1, require_of found.2]
      rfl
    · rw [if_neg found]
      have no_type : ¬ (if (DhcpCode.messageType, [type]) ∈ r₁ ++ (r₂ ++ r₃) then type else 0) ≠ 0 := by
        split
        · rename_i there
          exact fun some_type => found ⟨there, some_type⟩
        · simp
      rw [require, if_neg no_type]
      rfl

/-! ## Appending and parsing -/

/-- The options of a message: its type, the areas it uses, and others. -/
def callsOf (type overload : UInt8) (os : List DhcpOption) : List DhcpOption :=
  (DhcpCode.messageType, [type]) :: (DhcpCode.overload, [overload]) :: os

theorem known_callsOf (ordinary : ∀ o ∈ os, Ordinary o) : ∀ o ∈ callsOf type overload os, Known type overload o :=
  forall_mem_cons.mpr ⟨.type, forall_mem_cons.mpr ⟨.overload, fun o member => (ordinary o member).known⟩⟩

theorem plain_callsOf (ordinary : ∀ o ∈ os, Ordinary o) : ∀ o ∈ callsOf type overload os, Plain o :=
  forall_mem_cons.mpr ⟨messageType_plain type,
    forall_mem_cons.mpr ⟨overload_plain overload, fun o member => (ordinary o member).plain⟩⟩

/-- With seven bytes, there is room for the first two options and an END option. -/
theorem append_first_two (type overload : UInt8) (m : DhcpMessage n) (room : 7 ≤ n) :
    ∃ p₁ p₂, dhcpOptionAppend overload DhcpCode.messageType (.bytes [type]) ⟨m, 0⟩ = .ok (.ok ⟨⟩) p₁ ∧
      dhcpOptionAppend overload DhcpCode.overload (.bytes [overload]) p₁ = .ok (.ok ⟨⟩) p₂ ∧
      p₂.offset = 6 ∧ Filled overload m (callsOf type overload []) p₂ (callsOf type overload []) := by
  obtain ⟨a₁, first_call, holding₁⟩ : ∃ a, dhcpOptionAppend overload DhcpCode.messageType (.bytes [type]) ⟨m, 0⟩ =
        .ok (.ok ⟨⟩) ⟨{ m with options := a }, 3⟩ ∧ Holding a [(DhcpCode.messageType, [type])] 3 :=
    dhcpOptionAppend_fits (o := (DhcpCode.messageType, [type])) (p := ⟨m, 0⟩) (r := []) (messageType_plain type) (.start _)
      (by show 3 < n; omega)
  obtain ⟨a₂, second_call, holding₂⟩ : ∃ a, dhcpOptionAppend overload DhcpCode.overload (.bytes [overload])
        ⟨{ m with options := a₁ }, 3⟩ = .ok (.ok ⟨⟩) ⟨{ m with options := a }, 6⟩ ∧
      Holding a (callsOf type overload []) 6 :=
    dhcpOptionAppend_fits (o := (DhcpCode.overload, [overload])) (p := ⟨{ m with options := a₁ }, 3⟩)
      (r := [(DhcpCode.messageType, [type])]) (overload_plain overload) holding₁ (by show 6 < n; omega)
  exact ⟨_, _, first_call, second_call, rfl, .options prefix_rfl (by show 6 < n; omega) holding₂ rfl rfl⟩

/-- The options that get appended, with the areas announced where the parser looks first. -/
theorem appendEach_callsOf (type : UInt8) (ordinary : ∀ o ∈ os, Ordinary o)
    (room : useFile overload = true ∨ useSname overload = true → 7 ≤ n) {appended : List DhcpOption}
    (run : appendEach overload (callsOf type overload os) ⟨m, 0⟩ = .ok appended p) :
    ∃ first, Filled overload m first p appended ∧ appended.Sublist (callsOf type overload os) ∧
      ((useFile overload = false ∧ useSname overload = false) ∨ (DhcpCode.overload, [overload]) ∈ first) := by
  have plain : ∀ o ∈ callsOf type overload os, Plain o := plain_callsOf ordinary
  by_cases used : useFile overload = true ∨ useSname overload = true
  · obtain ⟨p₁, p₂, first_call, second_call, -, filled⟩ := append_first_two type overload m (room used)
    have plain_os : ∀ o ∈ os, Plain o := fun o member => plain o (by simp [callsOf, member])
    rw [callsOf, appendEach, bind_of_ok first_call, bind_eq_ok] at run
    obtain ⟨rest, p', run, final⟩ := run
    rw [appendEach, bind_of_ok second_call, bind_eq_ok] at run
    obtain ⟨rest', p'', run, final'⟩ := run
    obtain ⟨rfl, rfl⟩ := by exact final
    obtain ⟨rfl, rfl⟩ := by exact final'
    rcases appendEach_filled os plain_os filled with ⟨-, rest, p'', run', sub, filled'⟩ | ⟨-, p'', failed⟩
    · rw [run'] at run
      obtain ⟨rfl, rfl⟩ := by exact run
      exact ⟨_, filled', (sub.cons_cons _).cons_cons _, .inr (by simp [callsOf])⟩
    · rw [failed] at run
      cases run
  · rcases appendEach_filled _ plain (Filled.start overload m) with
      ⟨-, rest, p', run', sub, filled⟩ | ⟨-, p', failed⟩
    · rw [run'] at run
      obtain ⟨rfl, rfl⟩ := by exact run
      refine ⟨[], filled, sub, .inl ?_⟩
      simpa using used
    · rw [failed] at run
      cases run

/-- What the END option and the parser make of the options in a message. -/
theorem Filled.parsed (memory : Bool) (blank : Blank overload m₀) (filled : Filled overload m₀ first p r)
    (announced : (useFile overload = false ∧ useSname overload = false) ∨ (DhcpCode.overload, [overload]) ∈ first) :
    ∃ res p', dhcpOptionAppend overload DhcpCode.end (.bytes []) p = .ok res p' ∧
      (useFile overload = false → p'.message.file = m₀.file) ∧
      (useSname overload = false → p'.message.sname = m₀.sname) ∧
      ∀ type, (∀ o ∈ r, Known type overload o) → ∃ st, st.reported = reportable r ∧
        dhcpOptionParse memory p'.message (dhcpHeaderSize + n) {} =
          if (DhcpCode.messageType, [type]) ∈ r ∧ type ≠ 0 then .ok (type, none) st else .error .enomsg st := by
  obtain ⟨res, p', ended, r₁, r₂, r₃, rfl, done⟩ := dhcpOptionAppend_end filled
  refine ⟨res, p', ended, ?_, ?_, fun type known => dhcpOptionParse_ended memory done blank known announced⟩
  · intro unused
    rcases done.file with ⟨used, -⟩ | ⟨-, same⟩
    · rw [unused] at used
      cases used
    · exact same
  · intro unused
    rcases done.sname with ⟨used, -⟩ | ⟨-, same⟩
    · rw [unused] at used
      cases used
    · exact same

/-- Ordinary options, appended and ended with END: that comes back exactly if none is appended with a
single byte left in its area, and the parser reports them if the option that announces
the areas is in the options area. -/
theorem appended_are_parsed (memory : Bool) (type overload : UInt8) (m : DhcpMessage n) (blank : Blank overload m)
    (os : List DhcpOption) (ordinary : ∀ o ∈ os, Ordinary o) :
    ((∃ appended p, appendAll overload (callsOf type overload os) ⟨m, 0⟩ = .ok appended p) ↔
      NeverOneLeft overload (callsOf type overload os) ⟨m, 0⟩) ∧
    ∀ appended p, appendAll overload (callsOf type overload os) ⟨m, 0⟩ = .ok appended p →
      (useFile overload = true ∨ useSname overload = true → 7 ≤ n) →
      appended.Sublist (callsOf type overload os) ∧
      (useFile overload = false → p.message.file = m.file) ∧
      (useSname overload = false → p.message.sname = m.sname) ∧
      ∃ st, st.reported = reportable appended ∧
        dhcpOptionParse memory p.message (dhcpHeaderSize + n) {} =
          if (DhcpCode.messageType, [type]) ∈ appended ∧ type ≠ 0 then .ok (type, none) st
          else .error .enomsg st := by
  have plain : ∀ o ∈ callsOf type overload os, Plain o := plain_callsOf ordinary
  refine ⟨?_, ?_⟩
  · rcases appendEach_filled _ plain (Filled.start overload m) with
      ⟨never, appended, p, run, -, filled⟩ | ⟨once, p, failed⟩
    · obtain ⟨res, p', ended, -⟩ := dhcpOptionAppend_end filled
      refine ⟨fun _ => never, fun _ => ⟨appended, p', ?_⟩⟩
      rw [appendAll, bind_of_ok run, bind_of_ok ended]
      rfl
    · refine ⟨?_, fun never => absurd never once⟩
      rintro ⟨appended, p', run⟩
      rw [appendAll, bind_apply, failed] at run
      cases run
  · intro appended p run room
    rw [appendAll, bind_eq_ok] at run
    obtain ⟨appended, p₁, run, final⟩ := run
    obtain ⟨first, filled, sub, announced⟩ := appendEach_callsOf type ordinary room run
    obtain ⟨res, p₂, ended, file, sname, parsed⟩ := filled.parsed memory blank announced
    rw [bind_of_ok ended] at final
    obtain ⟨rfl, rfl⟩ := by exact final
    exact ⟨sub, file, sname, parsed type fun o member => known_callsOf ordinary o (sub.subset member)⟩

/-- A message of zeroes. -/
def blankMessage (n : Nat) : DhcpMessage n :=
  ⟨⟨List.replicate 64 0, by simp⟩, ⟨List.replicate 128 0, by simp⟩, ⟨List.replicate n 0, by simp⟩⟩

theorem blankMessage_blank (overload : UInt8) (n : Nat) : Blank overload (blankMessage n) :=
  ⟨fun _ => rfl, fun _ => rfl⟩

theorem appended_are_parsed_hostname :
    ∃ p st, appendAll 1 (callsOf 1 1 [(12, [104, 105])]) ⟨blankMessage 20, 0⟩ =
        .ok (callsOf 1 1 [(12, [104, 105])]) p ∧
      st.reported = [(12, [104, 105])] ∧
      dhcpOptionParse true p.message (dhcpHeaderSize + 20) {} = .ok (1, none) st := by
  have done : returns (appendAll 1 (callsOf 1 1 [(12, [104, 105])]) ⟨blankMessage 20, 0⟩)
      (fun appended _ => appended = callsOf 1 1 [(12, [104, 105])]) = true := by decide +kernel
  obtain ⟨appended, p, run, all⟩ := returns_iff.mp done
  obtain rfl : appended = callsOf 1 1 [(12, [104, 105])] := by simpa using all
  have ordinary : ∀ o ∈ [((12, [104, 105]) : DhcpOption)], Ordinary o := by
    intro o member
    obtain rfl : o = (12, [104, 105]) := by simpa using member
    exact ⟨by decide, by decide⟩
  obtain ⟨-, -, -, st, reported, parsed⟩ :=
    (appended_are_parsed true 1 1 (blankMessage 20) (blankMessage_blank 1 20) _ ordinary).2 _ p run fun _ => by decide
  refine ⟨p, st, run, reported.trans (by decide), parsed.trans ?_⟩
  rw [if_pos ⟨by decide, by decide⟩]

/-- With seven bytes one is left behind two options, and the next fails an assertion.  With five,
what announces the areas in use is in one of them, and the options there are not found. -/
theorem append_oneLeft_and_unannounced :
    (∃ p, appendAll 0 (callsOf 1 0 [(12, [104, 105])]) ⟨blankMessage 7, 0⟩ = .error .assertion p) ∧
    ∃ p st, appendAll 1 (callsOf 1 1 [(12, [104, 105])]) ⟨blankMessage 5, 0⟩ =
        .ok (callsOf 1 1 [(12, [104, 105])]) p ∧
      dhcpOptionParse true p.message (dhcpHeaderSize + 5) {} = .ok (1, none) st ∧ st.reported = [] := by
  constructor
  · obtain ⟨p₁, p₂, first_call, second_call, offset, filled⟩ := append_first_two 1 0 (blankMessage 7) le_rfl
    have one : roomLeft 0 p₂ = 1 := by rw [roomLeft, offset]; rfl
    have plain : Plain (12, [104, 105]) := ⟨by decide, by decide⟩
    refine ⟨p₂, ?_⟩
    rw [appendAll, callsOf, appendEach, appendEach, appendEach, bind_apply, bind_of_ok first_call, bind_apply,
      bind_of_ok second_call, bind_apply, bind_apply, dhcpOptionAppend_oneLeft plain filled one]
  · have done : returns (appendAll 1 (callsOf 1 1 [(12, [104, 105])]) ⟨blankMessage 5, 0⟩)
        (fun appended p => appended = callsOf 1 1 [(12, [104, 105])] ∧
          returns (dhcpOptionParse true p.message (dhcpHeaderSize + 5) {})
            (fun type st => type = (1, none) ∧ st.reported = []) = true) = true := by decide +kernel
    obtain ⟨appended, p, run, all⟩ := returns_iff.mp done
    simp only [decide_eq_true_eq] at all
    obtain ⟨rfl, parsed⟩ := all
    obtain ⟨type, st, parsed, all⟩ := returns_iff.mp parsed
    simp only [decide_eq_true_eq] at all
    obtain ⟨rfl, nothing⟩ := all
    exact ⟨p, st, run, parsed, nothing⟩

end SystemdPort.Network
