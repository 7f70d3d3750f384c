/-
# Bus.Append — what the calls that append do to a message

A message that is being built stands for a `Building` (`Builds`): its body has the bytes
of the building, and each container expects what has been put into it.  A call that
succeeds makes the step of the building (`run_ok`).

Before a value is looked at, the message itself notes its type in its signature.  What
this leaves behind when the value is refused is the `leftover` of the invariant; the next
call that succeeds has used it up.
-/
import SystemdPort.Bus.Body
import SystemdPort.Bus.Building

namespace SystemdPort.Bus

open Basic Lib Lib.Exec List Message

set_option autoImplicit false

variable {b : Building} {contents leftover s : CString} {c : Container} {offs : List (Option Nat)} {align n : Nat}
  {q : Option Ptr} {p : Ptr}

variable {env : Env}

def Call.run (env : Env) : Call → BusM PUnit
  | append v => messageAppendBasic env v
  | openContainer type contents => Bus.openContainer env type contents
  | closeContainer => Bus.closeContainer

/-! ## Bytes at the end -/

section Bytes

variable {m m' : Message} {segs : List (List UInt8 × Opening)} {tail : List UInt8} (holds : Holds m segs tail)

include holds

section

variable (some_align : 0 < align)

include some_align

theorem append_bytes {bytes : List UInt8} (some_bytes : bytes ≠ [])
    (done : messageExtendBody env align bytes.length m = .ok p m') :
    Holds (m'.store p bytes) segs (tail ++ (pad (render segs tail).length align ++ bytes)) ∧
      OnlyBody m (m'.store p bytes) := by
  obtain ⟨fresh, length, extended, place, only⟩ := extendBody_ok holds some_align done
  refine ⟨?_, only.store _ _⟩
  rw [← append_nil (pad _ _ ++ fresh), append_assoc, ← append_assoc, ← append_assoc] at extended
  have stored := extended.store length.symm (by rw [← length_pos_iff, length, length_pos_iff]; exact some_bytes)
  rw [length_render_pad some_align, ← place (length_pos_iff.mpr some_bytes)] at stored
  simpa using stored

theorem append_padding (done : messageExtendBody env align 0 m = .ok p m') :
    Holds m' segs (tail ++ pad (render segs tail).length align) ∧ OnlyBody m m' := by
  obtain ⟨fresh, length, extended, -, only⟩ := extendBody_ok holds some_align done
  obtain rfl := length_eq_zero_iff.mp length
  rw [append_nil] at extended
  exact ⟨extended, only⟩

end

/-- The two extensions that open an array: the size is written to where its room is by then. -/
theorem append_size {m₁ m₂ : Message} {alignment : Nat} {a b : Ptr} (some_align : 0 < alignment)
    (first : messageExtendBody env 4 4 m = .ok a m₁) (second : messageExtendBody env alignment 0 m₁ = .ok b m₂) :
    ∃ p : Ptr, (if m₁.parts.length = m₂.parts.length then
        (adjustPointer (some a) m₁.bodyEnd.data m₁.bodyEnd.size m₂.bodyEnd.data).getD a else a) = p ∧
      p = ⟨m₂.bodyEnd.data.getD 0, alignTo (render segs tail).length 4⟩ ∧
      Holds (m₂.store p (toLittleEndian 4 0)) segs (tail ++
        (pad (render segs tail).length 4 ++ toLittleEndian 4 0 ++
          pad (alignTo (render segs tail).length 4 + 4) alignment)) ∧
      OnlyBody m (m₂.store p (toLittleEndian 4 0)) := by
  have ge := alignTo_ge (render segs tail).length (by decide : 0 < 4)
  obtain ⟨fresh, four, extended, place, only⟩ := extendBody_ok holds (by decide) first
  obtain ⟨padded, only'⟩ := append_padding extended some_align second
  have end₁ : (render segs (tail ++ (pad (render segs tail).length 4 ++ fresh))).length =
      alignTo (render segs tail).length 4 + 4 := by
    rw [length_render_append]
    simp
    omega
  obtain ⟨-, block₁, _, -, parts₁⟩ := extended.part (by omega)
  obtain ⟨-, block₂, _, -, parts₂⟩ := padded.part (by rw [length_render_append]; omega)
  refine ⟨_, ?_, rfl, ?_, (only.trans only').store _ _⟩
  · rw [place (by decide)]
    simp [parts₁, parts₂, Message.bodyEnd, adjustPointer, end₁]
  · rw [end₁, ← append_assoc] at padded
    have stored := padded.store ((length_toLittleEndian 4 0).trans four.symm) (by rw [← length_pos_iff]; omega)
    rw [length_render_pad (by decide)] at stored
    simpa only [append_assoc] using stored

end Bytes

/-! ## What a container expects -/

/-- A container, none for the message itself, and the signatures of what is in it. -/
structure Level where
  kind : Option (ContainerType × CString)
  sigs : List CString

def levelsOf : List Frame → List CString → List Level
  | [], sigs => [⟨none, sigs⟩]
  | f :: fs, sigs =>
    ⟨some (f.type, f.contents), sigs⟩ ::
      levelsOf fs (f.before.map Value.signature ++ [f.type.signature f.contents])

def Building.levels (b : Building) : List Level := levelsOf b.frames (b.done.map Value.signature)

def Level.push (s : CString) (l : Level) : Level := { l with sigs := l.sigs ++ [s] }

/-- The containers, the message itself last. -/
def Message.stack (m : Message) : List Container := m.containers ++ [m.rootContainer]

/-- The signature and the index of a container are those of a level; the message itself
may have a leftover in its signature. -/
def Fits (leftover : CString) (c : Container) : Level → Prop
  | ⟨none, sigs⟩ =>
    c.enclosing = none ∧ c.signature = sigs.flatten ++ leftover ∧ c.index = sigs.flatten.length
  | ⟨some (type, contents), sigs⟩ =>
    c.enclosing = some type ∧ c.signature = contents ∧ type.accepts contents = true ∧
      if type = .array then c.index = 0 ∧ ∀ s ∈ sigs, s = contents
      else c.index = sigs.flatten.length ∧ sigs.flatten <+: contents

def Message.plain (m : Message) : List Container := m.stack.map Container.plain

variable {l : Level} {m m₁ m' m₂ : Message} {ls : List Level} {cs : List Container} {fds : List Nat}
  {v : BasicValue} {type : ContainerType}

theorem fits_plain : Fits leftover c.plain l ↔ Fits leftover c l := by
  obtain ⟨kind, sigs⟩ := l
  cases kind <;> rfl

theorem Message.stack_modifyLast (m : Message) (f : Container → Container) :
    (m.modifyLast f).stack = f m.lastContainer :: m.stack.tail := by
  obtain ⟨⟩ := m
  rename_i containers _ _
  cases containers <;> rfl

theorem Message.stack_eq (m : Message) : m.stack = m.lastContainer :: m.stack.tail := by
  obtain ⟨⟩ := m
  rename_i containers _ _
  cases containers <;> rfl

theorem Message.plain_eq (m : Message) : m.plain = m.lastContainer.plain :: m.plain.tail := by
  rw [plain, stack_eq]
  rfl

theorem Message.plain_modifyLast (m : Message) (f : Container → Container) :
    (m.modifyLast f).plain = (f m.lastContainer).plain :: m.plain.tail := by
  rw [plain, stack_modifyLast, map_cons, plain, map_tail]

theorem forall₂_plain : List.Forall₂ (Fits leftover) m.plain (l :: ls) ↔
    Fits leftover m.lastContainer l ∧ List.Forall₂ (Fits leftover) m.plain.tail ls := by
  conv_lhs => rw [plain_eq, forall₂_cons, fits_plain]

/-- The signature of one element. -/
def IsElement (s : CString) : Prop :=
  (∃ t : BasicType, s = [t.code]) ∨ ∃ kind contents, ContainerType.accepts contents kind = true ∧
    s = kind.signature contents

theorem IsElement.ne_nil (element : IsElement s) : s ≠ [] := by
  rcases element with ⟨t, rfl⟩ | ⟨kind, contents, -, rfl⟩
  · simp
  · cases kind <;> simp [ContainerType.signature]

/-- If the contents of an array start with an element, it is all of them. -/
theorem IsElement.eq_of_prefix (element : IsElement s) (accepted : ContainerType.array.accepts contents = true)
    (start : s <+: contents) : s = contents := by
  obtain ⟨x, rfl⟩ := start
  simp only [ContainerType.accepts, signatureIsSingle, decide_eq_true_eq] at accepted
  have whole : (s ++ x).length = s.length := by
    rcases element with ⟨t, rfl⟩ | ⟨kind, contents, inside, rfl⟩
    · have one : elementLength 65 true 0 0 (t.code :: x) = some 1 :=
        elementLength_iff.mpr ⟨[_], x, rfl, rfl, .basic (busTypeIsBasic_code t)⟩
      exact Option.some.inj (accepted.symm.trans one)
    · exact container_elementLength inside accepted
  rw [length_append] at whole
  have none_left : x = [] := length_eq_zero_iff.mp (by omega)
  rw [none_left, append_nil]

theorem Fits.push (fits : Fits leftover c l) (element : IsElement s) (next : s <+: c.signature.drop c.index)
    (exact_leftover : c.enclosing = none → s = leftover) : Fits [] (c.moveTo (c.index + s.length)) (l.push s) := by
  obtain ⟨kind, sigs⟩ := l
  cases kind with
  | none =>
    obtain ⟨enclosing, signature, index⟩ := fits
    have moved : c.moveTo (c.index + s.length) = { c with index := c.index + s.length } := by
      simp [Container.moveTo, enclosing]
    rw [moved, exact_leftover enclosing]
    simp [Fits, Level.push, enclosing, signature, index]
  | some kind =>
    obtain ⟨type, contents⟩ := kind
    obtain ⟨enclosing, signature, accepted, inside⟩ := fits
    rw [signature] at next
    by_cases isArray : type = .array
    · subst isArray
      rw [inside.1] at next
      have same : s = contents := element.eq_of_prefix accepted next
      have stays : c.moveTo (c.index + s.length) = c := by simp [Container.moveTo, enclosing]
      rw [stays]
      refine ⟨enclosing, signature, accepted, ?_⟩
      refine ⟨inside.1, fun t ht => ?_⟩
      rcases mem_append.mp ht with before | last
      · exact inside.2 t before
      · rw [mem_singleton.mp last, same]
    · rw [if_neg isArray] at inside
      obtain ⟨index, start⟩ := inside
      have moved : c.moveTo (c.index + s.length) = { c with index := c.index + s.length } := by
        simp [Container.moveTo, enclosing, isArray]
      rw [moved]
      refine ⟨enclosing, signature, accepted, ?_⟩
      rw [if_neg isArray]
      obtain ⟨rest, rfl⟩ := start
      rw [index, drop_left] at next
      simp only [flatten_append, flatten_cons, flatten_nil, append_nil, length_append, index, true_and]
      exact prefix_append_right_inj _ |>.mpr next

@[simp] theorem Message.lastContainer_modifyLast (m : Message) (f : Container → Container) :
    (m.modifyLast f).lastContainer = f m.lastContainer := by
  obtain ⟨⟩ := m
  rename_i containers _ _
  cases containers <;> rfl

theorem Message.stack_tail_modifyLast (m : Message) (f : Container → Container) :
    (m.modifyLast f).stack.tail = m.stack.tail := by
  rw [stack_modifyLast, tail_cons]

/-- The last container takes an element, and the message itself notes it if it is new. -/
theorem expectSignature_ok (fits : Fits leftover m.lastContainer l) (small : leftover.length ≤ 1)
    (element : IsElement s) (done : expectSignature env s m = .ok n m₁) :
    n = m₁.lastContainer.index + s.length ∧ Fits [] (m₁.lastContainer.moveTo n) (l.push s) ∧
      (m₁ = m ∧ m.lastContainer.index < m.lastContainer.signature.length ∨ l.kind = none ∧ leftover = [] ∧
          m₁ = { m with nAllocs := m.nAllocs + 1 }.modifyLast fun c =>
            { c with signature := c.signature ++ s }) := by
  simp only [expectSignature, get_bind] at done
  by_cases more : m.lastContainer.index < m.lastContainer.signature.length
  · rw [if_pos more, check_bind_eq_ok] at done
    obtain ⟨next, done⟩ := done
    cases done
    refine ⟨rfl, fits.push element next fun outermost => ?_, .inl ⟨rfl, more⟩⟩
    obtain ⟨kind, sigs⟩ := l
    cases kind with
    | some kind => simp [fits.1] at outermost
    | none =>
      obtain ⟨-, signature, index⟩ := fits
      rw [signature, index, drop_left] at next
      have := next.length_le
      have := length_pos_iff.mpr element.ne_nil
      exact next.eq_of_length (by omega)
  · rw [if_neg more, check_bind_eq_ok] at done
    obtain ⟨outermost, done⟩ := done
    obtain ⟨a, -, done⟩ := allocate_bind_eq_ok.mp done
    obtain ⟨rfl, rfl⟩ := done
    obtain ⟨kind, sigs⟩ := l
    cases kind with
    | some kind => simp [fits.1] at outermost
    | none =>
      obtain ⟨-, signature, index⟩ := fits
      obtain rfl : leftover = [] := by
        rw [← length_eq_zero_iff]
        rw [signature, length_append] at more
        omega
      rw [append_nil] at signature
      have extended : Fits s { m.lastContainer with signature := m.lastContainer.signature ++ s }
          ⟨none, sigs⟩ := ⟨outermost, by rw [signature], index⟩
      rw [lastContainer_modifyLast]
      have same : m.lastContainer.signature.length + s.length = m.lastContainer.index + s.length := by
        rw [signature, index]
      refine ⟨same, ?_, .inr ⟨rfl, rfl, rfl⟩⟩
      rw [same]
      refine extended.push element ?_ fun _ => rfl
      rw [signature, index, drop_left]

/-! ## Messages that are being built -/

/-- The body is that of the building, every container expects what it has, and nothing
has been read. -/
structure Builds (m : Message) (b : Building) (leftover : CString) : Prop where
  usable : m.poisoned = false
  unsealed : m.isSealed = false
  levels : List.Forall₂ (Fits leftover) m.plain b.levels
  holds : Holds m (segments b.frames) b.tail
  fds : m.fds.length = b.nFds
  alone : leftover = [] ∨ b.frames = [] ∧ ∃ t : BasicType, leftover = [t.code]
  sound : AllSound (enclosing b.frames) b.done ∧ FramesSound b.frames
  unread : m.rindex = 0 ∧ m.cachedRindexPart = none ∧ m.needBswap = false

theorem Holds.modifyLast {segs : List (List UInt8 × Opening)} {tail : List UInt8} (holds : Holds m segs tail)
    {f : Container → Container} (same : ∀ c, (f c).arraySize = c.arraySize) : Holds (m.modifyLast f) segs tail := by
  have points := holds.points
  unfold Message.modifyLast
  split
  · exact { holds with }
  · rename_i found
    exact { holds with points := by simpa [Message.bodyEnd, found, same] using points }

theorem moveTo_arraySize (n : Nat) (c : Container) : (c.moveTo n).arraySize = c.arraySize := by
  unfold Container.moveTo
  split <;> rfl

theorem OnlyBody.plain (only : OnlyBody m m') : m'.plain = m.plain := by
  obtain ⟨_, _, _, _, _, containers, rfl, same⟩ := only
  simp [Message.plain, stack, same]

theorem OnlyBody.last (only : OnlyBody m m') : m'.lastContainer.plain = m.lastContainer.plain := by
  have same := only.plain
  rw [m'.plain_eq, m.plain_eq] at same
  exact (List.cons.inj same).1

/-- Moving the index does not depend on the pointers. -/
theorem OnlyBody.plain_moveTo (only : OnlyBody m m') (n : Nat) :
    (m'.modifyLast (Container.moveTo n)).plain = (m.modifyLast (Container.moveTo n)).plain := by
  have moves : ∀ c : Container, (c.moveTo n).plain = c.plain.moveTo n := fun c => by
    by_cases isArray : c.enclosing = some .array <;> simp [Container.moveTo, Container.plain, isArray]
  rw [plain_modifyLast, plain_modifyLast, moves, moves, only.last, only.plain]

/-- What building a message leaves alone, but for file descriptors that are appended. -/
def Message.settings (m : Message) : Message :=
  { poisoned := m.poisoned, isSealed := m.isSealed, allowFds := m.allowFds, fds := m.fds, rindex := m.rindex,
    cachedRindexPart := m.cachedRindexPart, needBswap := m.needBswap }

theorem Message.settings_modifyLast (m : Message) (f : Container → Container) :
    (m.modifyLast f).settings = m.settings := by
  unfold modifyLast
  split <;> rfl

theorem OnlyBody.settings (only : OnlyBody m m') : m'.settings = m.settings := by
  obtain ⟨_, _, _, _, _, _, rfl, -⟩ := only
  rfl

/-- After a call, the fields that no call but one for file descriptors changes are the same. -/
theorem Builds.next {b' : Building} {left : CString} (builds : Builds m b leftover)
    (settings : m'.settings = { m with fds := fds }.settings) (count : fds.length = b'.nFds)
    (levels : List.Forall₂ (Fits left) m'.plain b'.levels) (holds : Holds m' (segments b'.frames) b'.tail)
    (alone : left = [] ∨ b'.frames = [] ∧ ∃ t : BasicType, left = [t.code])
    (sound : AllSound (enclosing b'.frames) b'.done ∧ FramesSound b'.frames) :
    Builds m' b' left ∧ m'.allowFds = m.allowFds := by
  refine ⟨⟨?_, ?_, levels, holds, ?_, alone, sound, ?_, ?_, ?_⟩, ?_⟩
  · exact (congrArg Message.poisoned settings).trans builds.usable
  · exact (congrArg Message.isSealed settings).trans builds.unsealed
  · exact (congrArg (fun m => m.fds.length) settings).trans count
  · exact (congrArg Message.rindex settings).trans builds.unread.1
  · exact (congrArg Message.cachedRindexPart settings).trans builds.unread.2.1
  · exact (congrArg Message.needBswap settings).trans builds.unread.2.2
  · exact congrArg (·.allowFds) settings

/-- The levels of a building differ in the signatures of the first only. -/
theorem levelsOf_eq (frames : List Frame) : ∃ kind ls, (∀ sigs, levelsOf frames sigs = ⟨kind, sigs⟩ :: ls) ∧
    (kind = none → frames = []) ∧ (frames = [] → ls = []) := by
  cases frames with
  | nil => exact ⟨none, [], fun _ => rfl, fun _ => rfl, fun _ => rfl⟩
  | cons f fs => exact ⟨some (f.type, f.contents), _, fun _ => rfl, by simp, by simp⟩

theorem Builds.small (builds : Builds m b leftover) : leftover.length ≤ 1 := by
  rcases builds.alone with rfl | ⟨-, t, rfl⟩ <;> simp

/-- Only the first level can have a leftover. -/
theorem Builds.level (builds : Builds m b leftover) : ∃ kind ls,
    (∀ sigs, levelsOf b.frames sigs = ⟨kind, sigs⟩ :: ls) ∧ (kind = none → b.frames = []) ∧
      Fits leftover m.lastContainer ⟨kind, b.done.map Value.signature⟩ ∧ List.Forall₂ (Fits []) m.plain.tail ls := by
  obtain ⟨kind, ls, levelsEq, outermost, single⟩ := levelsOf_eq b.frames
  have levels := builds.levels
  rw [Building.levels, levelsEq, forall₂_plain] at levels
  refine ⟨kind, ls, levelsEq, outermost, levels.1, ?_⟩
  rcases builds.alone with rfl | ⟨top, -⟩
  · exact levels.2
  · have below := levels.2
    rw [single top] at below ⊢
    rw [forall₂_nil_right_iff.mp below]
    exact .nil

/-- What is known once the last container has agreed to an element. -/
theorem Builds.expect (builds : Builds m b leftover) (element : IsElement s)
    (done : expectSignature env s m = .ok n m₁) :
    Holds m₁ (segments b.frames) b.tail ∧ m₁.settings = m.settings ∧ n = m₁.lastContainer.index + s.length ∧
      List.Forall₂ (Fits []) (m₁.modifyLast (Container.moveTo n)).plain
        (levelsOf b.frames (b.done.map Value.signature ++ [s])) := by
  obtain ⟨kind, ls, levelsEq, -, before, rest⟩ := builds.level
  obtain ⟨index, fits, change⟩ := expectSignature_ok before builds.small element done
  rw [levelsEq, plain_modifyLast]
  rcases change with ⟨rfl, -⟩ | ⟨-, -, rfl⟩
  · exact ⟨builds.holds, rfl, index, .cons (fits_plain.mpr fits) rest⟩
  · refine ⟨?_, settings_modifyLast _ _, index, .cons (fits_plain.mpr fits) ?_⟩
    · have later : Holds { m with nAllocs := m.nAllocs + 1 } (segments b.frames) b.tail := { builds.holds with }
      exact later.modifyLast fun _ => rfl
    · rw [plain_modifyLast]
      exact rest

/-! ## Appending a value -/

theorem pushValueFd_ok (done : pushValueFd env v m = .ok fds m') :
    fds.length = (if v.type = .unixFd then 1 else 0) ∧ ∃ nAllocs, m' = { m with nAllocs } := by
  cases v with
  | unixFd fd =>
    simp only [pushValueFd, messagePushFd] at done
    obtain ⟨copy, m₁, pushed, done⟩ := bind_eq_ok.mp done
    cases done
    simp only [get_bind, check_bind_eq_ok] at pushed
    obtain ⟨-, pushed⟩ := pushed
    cases dup : env.dupFd fd with
    | error e => simp [dup] at pushed
    | ok copy' =>
      simp only [dup] at pushed
      obtain ⟨a, -, pushed⟩ := allocate_bind_eq_ok.mp pushed
      cases pushed
      exact ⟨rfl, _, rfl⟩
  | _ =>
    obtain ⟨rfl, rfl⟩ := done
    exact ⟨rfl, _, rfl⟩

theorem append_ok (builds : Builds m b leftover) (done : messageAppendBasic env v m = .ok ⟨⟩ m') :
    Builds m' (b.step (.append v)) [] ∧ m'.allowFds = m.allowFds := by
  simp only [messageAppendBasic, get_bind, check_bind_eq_ok] at done
  obtain ⟨-, -, done⟩ := done
  obtain ⟨n, m₁, expects, done⟩ := bind_eq_ok.mp done
  simp only [check_bind_eq_ok] at done
  obtain ⟨valid, done⟩ := done
  obtain ⟨fds, m₂, pushed, done⟩ := bind_eq_ok.mp done
  obtain ⟨a, m₃, extended, result⟩ := bind_eq_ok.mp done
  simp only [modify_bind, modify_apply, EStateM.Result.ok.injEq, true_and] at result
  obtain ⟨holds₁, settings₁, index, levels⟩ := builds.expect (.inl ⟨v.type, rfl⟩) expects
  obtain ⟨fdsLength, nAllocs, rfl⟩ := pushValueFd_ok pushed
  rw [builds.fds] at extended result
  obtain ⟨written, only⟩ := append_bytes (m := { m₁ with nAllocs }) { holds₁ with } v.type.alignment_pos
    (v.payload_ne_nil _) extended
  generalize m₃.store a (v.payload b.nFds) = m₄ at written only result
  have only : OnlyBody m₁ m₄ := .trans ⟨_, _, _, _, _, _, rfl, rfl⟩ only
  have settings : m₄.settings = m.settings := only.settings.trans settings₁
  have later : Holds { m₄ with fds := m₄.fds ++ fds } _ _ := { written with }
  subst result
  refine builds.next ?_ (show (m.fds ++ fds).length = _ from ?_) ?_ ?_ (.inl rfl) ⟨?_, builds.sound.2⟩
  · rw [Message.settings_modifyLast]
    exact congrArg (fun s : Message => { s with fds := s.fds ++ fds }) settings
  · rw [length_append, fdsLength, builds.fds]
    rfl
  -- the index is that of the container when the type was checked
  · have position : m₄.lastContainer.index + 1 = n := index ▸ congrArg (·.index + 1) only.last
    have moved : List.Forall₂ (Fits []) ((m₄.lastContainer.moveTo (m₄.lastContainer.index + 1)).plain :: m₄.plain.tail)
        (levelsOf b.frames (b.done.map Value.signature ++ [[v.type.code]])) := by
      rw [position, ← plain_modifyLast, only.plain_moveTo]
      exact levels
    rw [plain_modifyLast, Building.levels, Building.step, map_append]
    exact moved
  · rw [Building.tail_append]
    exact later.modifyLast fun c => moveTo_arraySize _ c
  · exact allSound_append.mpr ⟨builds.sound.1, valid, trivial⟩

/-! ## Opening a container -/

/-- What has happened before the new container is put on the stack. -/
structure Opened (m m' : Message) (b : Building) (type : ContainerType) (contents : CString)
    (arraySize : Option Ptr) : Prop where
  accepted : type.accepts contents = true
  inArray : type = .dictEntry → enclosing b.frames = some .array
  levels : List.Forall₂ (Fits []) m'.plain
    (levelsOf b.frames (b.done.map Value.signature ++ [type.signature contents]))
  holds : Holds m' (segments b.frames) (b.tail ++ (type.opening contents b.body.length).bytes 0)
  settings : m'.settings = m.settings
  place : arraySize = if (type.opening contents b.body.length).sized then
    some ⟨m'.bodyEnd.data.getD 0, b.body.length + (type.opening contents b.body.length).pre.length⟩ else none

theorem Message.bodyEnd_modifyLast (m : Message) (f : Container → Container) :
    (m.modifyLast f).bodyEnd = m.bodyEnd := by
  unfold modifyLast
  split <;> rfl

/-- The last container agrees to the new one, and what it opens with is written. -/
theorem Builds.opened (builds : Builds m b leftover) (accepted : type.accepts contents = true)
    (apart : type ≠ .dictEntry) (expects : expectSignature env (type.signature contents) m = .ok n m₁)
    (only : OnlyBody m₁ m₂)
    (holds : Holds m₂ (segments b.frames) (b.tail ++ (type.opening contents b.body.length).bytes 0))
    (place : q = if (type.opening contents b.body.length).sized then
      some ⟨m₂.bodyEnd.data.getD 0, b.body.length + (type.opening contents b.body.length).pre.length⟩ else none) :
    Opened m (m₂.modifyLast (Container.moveTo n)) b type contents q := by
  obtain ⟨-, settings, -, levels⟩ := builds.expect (.inr ⟨type, contents, accepted, rfl⟩) expects
  refine ⟨accepted, (absurd · apart), only.plain_moveTo n ▸ levels, holds.modifyLast fun c => moveTo_arraySize _ c,
    ?_, ?_⟩
  · exact (settings_modifyLast _ _).trans (only.settings.trans settings)
  · rw [bodyEnd_modifyLast, place]

theorem busMessageOpenArray_ok (builds : Builds m b leftover) (done : busMessageOpenArray env contents m = .ok q m') :
    Opened m m' b .array contents q := by
  simp only [busMessageOpenArray, check_bind_eq_ok] at done
  obtain ⟨accepted, done⟩ := done
  obtain ⟨n, m₁, expects, done⟩ := bind_eq_ok.mp done
  obtain ⟨holds₁, -⟩ := builds.expect (.inr ⟨.array, contents, accepted, rfl⟩) expects
  cases aligned : contents.head?.bind busTypeGetAlignment with
  | none => simp [aligned] at done
  | some alignment =>
    simp only [aligned] at done
    obtain ⟨a, m₂, first, done⟩ := bind_eq_ok.mp done
    simp only [get_bind] at done
    obtain ⟨a', m₃, second, done⟩ := bind_eq_ok.mp done
    simp only [get_bind] at done
    have some_align : 0 < alignment := by
      obtain ⟨c, -, found⟩ := Option.bind_eq_some_iff.mp aligned
      exact busTypeGetAlignment_pos found
    obtain ⟨p, moved, place, written, only⟩ := append_size holds₁ some_align first second
    rw [moved] at done
    obtain ⟨rfl, rfl⟩ := done
    have opening : (ContainerType.array.opening contents b.body.length).bytes 0 =
        pad b.body.length 4 ++ toLittleEndian 4 0 ++ pad (alignTo b.body.length 4 + 4) alignment := by
      simp [ContainerType.opening, Opening.bytes, elementAlignment, aligned]
    have ge := alignTo_ge b.body.length (by decide : 0 < 4)
    refine builds.opened accepted (by decide) expects only (by rwa [opening]) ?_
    · rw [place]
      have offset : alignTo b.body.length 4 = b.body.length + (pad b.body.length 4).length := by
        simp
        omega
      show some (Ptr.mk _ (alignTo b.body.length 4)) = some (Ptr.mk _ (b.body.length + (pad _ _).length))
      rw [offset]
      rfl

theorem busMessageOpenVariant_ok (builds : Builds m b leftover)
    (done : busMessageOpenVariant env contents m = .ok q m') : Opened m m' b .variant contents q := by
  simp only [busMessageOpenVariant, check_bind_eq_ok] at done
  obtain ⟨accepted, done⟩ := done
  obtain ⟨n, m₁, expects, done⟩ := bind_eq_ok.mp done
  obtain ⟨holds₁, -⟩ := builds.expect (.inr ⟨.variant, contents, accepted, rfl⟩) expects
  obtain ⟨a, m₂, extended, done⟩ := bind_eq_ok.mp done
  obtain ⟨rfl, rfl⟩ := done
  obtain ⟨written, only⟩ := append_bytes holds₁ (by decide) (by simp) extended
  have no_pad : pad b.body.length 1 = [] := by simp [pad, alignTo]
  change Holds _ _ (_ ++ (pad b.body.length 1 ++ _)) at written
  rw [no_pad] at written
  have opening : (ContainerType.variant.opening contents b.body.length).bytes 0 =
      toLittleEndian 1 contents.length ++ contents ++ [0] := by
    simp [ContainerType.opening, Opening.bytes]
  exact builds.opened accepted (by decide) expects only (by rwa [opening]) rfl

theorem opening_struct (contents : CString) (pos : Nat) :
    (ContainerType.struct.opening contents pos).bytes 0 = pad pos 8 ∧
      (ContainerType.dictEntry.opening contents pos).bytes 0 = pad pos 8 := by
  simp [ContainerType.opening, Opening.bytes]

theorem busMessageOpenStruct_ok (builds : Builds m b leftover) (done : busMessageOpenStruct env contents m = .ok q m') :
    Opened m m' b .struct contents q := by
  simp only [busMessageOpenStruct, check_bind_eq_ok] at done
  obtain ⟨accepted, done⟩ := done
  obtain ⟨n, m₁, expects, done⟩ := bind_eq_ok.mp done
  obtain ⟨holds₁, -⟩ := builds.expect (.inr ⟨.struct, contents, accepted, rfl⟩) expects
  obtain ⟨a, m₂, extended, done⟩ := bind_eq_ok.mp done
  obtain ⟨rfl, rfl⟩ := done
  obtain ⟨padded, only⟩ := append_padding holds₁ (by decide) extended
  exact builds.opened accepted (by decide) expects only (by rwa [(opening_struct contents _).1]) rfl

theorem busMessageOpenDictEntry_ok (builds : Builds m b leftover)
    (done : busMessageOpenDictEntry env contents m = .ok q m') : Opened m m' b .dictEntry contents q := by
  simp only [busMessageOpenDictEntry, check_bind_eq_ok, get_bind] at done
  obtain ⟨accepted, inArray, next, done⟩ := done
  obtain ⟨a, _, extended, done⟩ := bind_eq_ok.mp done
  cases done
  obtain ⟨padded, only⟩ := append_padding builds.holds (by decide) extended
  obtain ⟨kind, ls, levelsEq, -, fits, rest⟩ := builds.level
  have pushed := fits.push (.inr ⟨.dictEntry, contents, accepted, rfl⟩) next (by simp [inArray])
  have stays : ∀ k, Container.moveTo k m.lastContainer = m.lastContainer := fun k => by
    simp [Container.moveTo, inArray]
  refine ⟨accepted, fun _ => ?_, ?_, ?_, only.settings, rfl⟩
  · have levels := builds.levels
    unfold Building.levels at levels
    cases frames : b.frames with
    | nil | cons f fs =>
      rw [frames] at levels
      exact (forall₂_plain.mp levels).1.1.symm.trans inArray
  · rw [only.plain, levelsEq, forall₂_plain]
    exact ⟨stays _ ▸ pushed, rest⟩
  · rwa [(opening_struct contents _).2]

theorem messageOpen_ok (builds : Builds m b leftover) (done : messageOpen env type contents m = .ok q m') :
    Opened m m' b type contents q := by
  cases type with
  | array => exact busMessageOpenArray_ok builds done
  | variant => exact busMessageOpenVariant_ok builds done
  | struct => exact busMessageOpenStruct_ok builds done
  | dictEntry => exact busMessageOpenDictEntry_ok builds done

/-- The size of the new container, if it has one, is now counted with the others. -/
theorem Holds.push {segs : List (List UInt8 × Opening)} {tail : List UInt8} {o : Opening}
    (holds : Holds m segs (tail ++ o.bytes 0)) (points : c.arraySize = if o.sized then
      some ⟨m.bodyEnd.data.getD 0, (render segs tail).length + o.pre.length⟩ else none) :
    Holds { m with containers := c :: m.containers } (segs ++ [(tail, o)]) [] := by
  have body : render (segs ++ [(tail, o)]) [] = render segs (tail ++ o.bytes 0) := by
    simp [render_snoc]
  refine ⟨body ▸ holds.size, body ▸ holds.place, ?_, body ▸ holds.small⟩
  rw [reverse_cons, map_append, holds.points, holes_snoc]
  simp only [pointers, map_append, map_cons, points, Nat.zero_add]
  split <;> rfl

/-- Nothing depends on how often memory was asked for, or on what was saved. -/
theorem Builds.saveIndex (builds : Builds m b leftover) :
    Builds ({ m with nAllocs := n }.modifyLast fun c => { c with savedIndex := c.index }) b leftover ∧
      ({ m with nAllocs := n }.modifyLast fun c => { c with savedIndex := c.index }).allowFds = m.allowFds := by
  have holds : Holds { m with nAllocs := n } (segments b.frames) b.tail := { builds.holds with }
  refine builds.next (settings_modifyLast _ _) builds.fds ?_ (holds.modifyLast fun _ => rfl) builds.alone builds.sound
  rw [plain_modifyLast]
  exact m.plain_eq ▸ builds.levels

theorem open_ok (builds : Builds m b leftover) (done : openContainer env type contents m = .ok ⟨⟩ m') :
    Builds m' (b.step (.openContainer type contents)) [] ∧ m'.allowFds = m.allowFds := by
  simp only [openContainer, get_bind, check_bind_eq_ok, allocate_bind_eq_ok, modify_bind] at done
  obtain ⟨-, -, a, -, a', -, done⟩ := done
  obtain ⟨q, m₃, opens, done⟩ := bind_eq_ok.mp done
  cases done
  have opened := messageOpen_ok (builds.saveIndex (n := m.nAllocs + 1 + 1)).1 opens
  have settings := opened.settings.trans (settings_modifyLast _ _)
  refine builds.next settings builds.fds ?_ ?_ (.inl rfl)
    ⟨trivial, builds.sound.1, opened.accepted, opened.inArray, builds.sound.2⟩
  · refine .cons ⟨rfl, rfl, opened.accepted, ?_⟩ opened.levels
    split <;> simp [Building.step, Container.plain]
  · rw [Building.segments_open]
    have points := opened.place
    exact opened.holds.push points

/-! ## Closing a container -/

theorem Holds.pop {segs : List (List UInt8 × Opening)} {before tail : List UInt8} {o : Opening}
    (containers : m.containers = c :: cs) (holds : Holds m (segs ++ [(before, o)]) tail) :
    Holds { m with containers := cs } segs (before ++ o.bytes tail.length ++ tail) := by
  have points := holds.points
  rw [containers, reverse_cons, map_append, holes_snoc, pointers, map_append] at points
  exact ⟨render_snoc segs before tail o ▸ holds.size, render_snoc segs before tail o ▸ holds.place,
    append_inj_left' points (by simp), render_snoc segs before tail o ▸ holds.small⟩

theorem close_ok (builds : Builds m b leftover) (done : closeContainer m = .ok ⟨⟩ m') :
    b.frames ≠ [] ∧ Builds m' (b.step .closeContainer) [] ∧ m'.allowFds = m.allowFds := by
  simp only [closeContainer, get_bind, check_bind_eq_ok, modify_apply, EStateM.Result.ok.injEq, true_and] at done
  obtain ⟨-, some_open, -, complete, rfl⟩ := done
  obtain ⟨frames, values, nFds⟩ := b
  have levels := builds.levels
  cases frames with
  | nil =>
    have lengths := levels.length_eq
    simp only [Message.plain, stack, Building.levels, levelsOf, length_map, length_append, length_cons,
      length_nil, Nat.add_eq_right, length_eq_zero_iff] at lengths
    exact absurd lengths some_open
  | cons f fs =>
    obtain ⟨c, cs, containers⟩ : ∃ c cs, m.containers = c :: cs := exists_cons_of_ne_nil some_open
    obtain rfl : leftover = [] := builds.alone.resolve_right fun h => by simp at h
    obtain ⟨⟨kind, signature, accepted, inside⟩, below⟩ := forall₂_plain.mp levels
    have suits : f.type.suits f.contents (values.map Value.signature) := by
      unfold ContainerType.suits
      by_cases isArray : f.type = .array
      · rw [if_pos isArray] at inside ⊢
        exact inside.2
      · rw [if_neg isArray] at inside ⊢
        rcases complete with array | all
        · rw [kind] at array
          exact absurd (Option.some.inj array) isArray
        · rw [signature, inside.1] at all
          exact inside.2.eq_of_length_le all
    obtain ⟨soundInside, soundBefore, -, inArray, soundBelow⟩ := builds.sound
    refine ⟨by simp, ⟨builds.usable, builds.unsealed, ?_, ?_, builds.fds, .inl rfl, ⟨?_, soundBelow⟩,
      builds.unread⟩, rfl⟩
    · rw [Message.plain, stack, containers] at below
      simp only [Building.levels, Building.step, Message.plain, stack, containers]
      rw [map_append (f := Value.signature)]
      exact below
    · rw [Building.tail_close, containers]
      exact builds.holds.pop containers
    · exact allSound_append.mpr ⟨soundBefore, ⟨accepted, inArray, suits, soundInside⟩, trivial⟩

/-- A call that succeeds makes the step of the building. -/
theorem run_ok {call : Call} (builds : Builds m b leftover) (done : call.run env m = .ok ⟨⟩ m') :
    Builds m' (b.step call) [] ∧ m'.allowFds = m.allowFds ∧ (b.step call).calls = b.calls ++ [call] := by
  cases call with
  | append v =>
    obtain ⟨appended, allowFds⟩ := append_ok builds done
    exact ⟨appended, allowFds, Building.calls_step (by simp)⟩
  | openContainer type contents =>
    obtain ⟨opened, allowFds⟩ := open_ok builds done
    exact ⟨opened, allowFds, Building.calls_step (by simp)⟩
  | closeContainer =>
    obtain ⟨some_open, closed, allowFds⟩ := close_ok builds done
    exact ⟨closed, allowFds, Building.calls_step fun _ => some_open⟩

/-! ## Whole messages -/

/-- Makes one call after the other, all of which have to succeed. -/
def runAll (env : Env) : List Call → BusM PUnit
  | [] => pure ⟨⟩
  | call :: calls => do
      call.run env
      runAll env calls

/-- The values that calls put into a message. -/
def valuesOf (calls : List Call) : List Value := (calls.foldl Building.step {}).done

theorem new_builds (allowFds isMethodReturn : Bool) (enforced : Option CString) :
    Builds (new allowFds isMethodReturn enforced) {} [] where
  usable := rfl
  unsealed := rfl
  levels := .cons ⟨rfl, rfl, rfl⟩ .nil
  holds := ⟨rfl, ⟨none, [], ⟨rfl, rfl⟩, by simp [new]⟩, rfl, by decide⟩
  fds := rfl
  alone := .inl rfl
  sound := ⟨trivial, trivial⟩
  unread := ⟨rfl, rfl, rfl⟩

theorem runAll_builds {calls : List Call} (builds : Builds m b []) (done : runAll env calls m = .ok ⟨⟩ m') :
    Builds m' (calls.foldl Building.step b) [] ∧ (calls.foldl Building.step b).calls = b.calls ++ calls := by
  induction calls generalizing m b with
  | nil =>
    simp only [runAll, pure_apply, EStateM.Result.ok.injEq, true_and] at done
    subst done
    exact ⟨builds, by simp⟩
  | cons call calls ih =>
    obtain ⟨u, m₁, first, rest⟩ := bind_eq_ok.mp done
    obtain ⟨next, -, nextCalls⟩ := run_ok builds first
    obtain ⟨last, lastCalls⟩ := ih next rest
    rw [foldl_cons]
    exact ⟨last, by rw [lastCalls, nextCalls, append_assoc]; rfl⟩

theorem messageSeal_ok {cookie : Nat} (done : messageSeal env cookie m = .ok ⟨⟩ m') :
    m.containers = [] ∧ m.poisoned = false ∧
      ∃ n, m' = { m with
        nAllocs := n
        userBodySize := m.bodySize
        rootContainer := { m.rootContainer with index := 0 }
        isSealed := true } := by
  simp only [messageSeal, get_bind, check_bind_eq_ok] at done
  obtain ⟨-, closed, usable, -, -, done⟩ := done
  -- the fields of the header take an allocation each
  have rest : ∀ {fds : List Nat} {f : Message → Message} {m m' : Message}, (if fds ≠ [] then do
        let _ ← allocate env poison
        modify f
      else modify f : BusM PUnit) m = .ok ⟨⟩ m' → ∃ n, m' = f { m with nAllocs := n } := by
    intro fds f m m' done
    split at done
    · obtain ⟨a, -, done⟩ := allocate_bind_eq_ok.mp done
      cases done
      exact ⟨_, rfl⟩
    · cases done
      exact ⟨_, rfl⟩
  split at done
  · simp only [check_bind_eq_ok, allocate_bind_eq_ok] at done
    obtain ⟨-, a, -, done⟩ := done
    exact ⟨closed, usable, rest done⟩
  · exact ⟨closed, usable, rest done⟩

/-- With no container open, the values are complete. -/
theorem Builds.complete (builds : Builds m b leftover) (top : b.frames = []) : m.body = encodeAll 0 b.done ∧
      m.rootContainer.enclosing = none ∧ m.rootContainer.signature = signatures b.done ++ leftover := by
  have levels := builds.levels
  rw [Building.levels, top, levelsOf] at levels
  have closed : m.containers = [] := by
    have lengths := levels.length_eq
    simpa [Message.plain, stack] using lengths
  rw [forall₂_plain, lastContainer, closed] at levels
  obtain ⟨⟨enclosing, signature, -⟩, -⟩ := levels
  have body := builds.holds.body_eq
  rw [Building.tail, top] at body
  exact ⟨body, enclosing, signature⟩

/-- A message that can be sealed has no container open. -/
theorem Builds.top_of_closed (builds : Builds m b leftover) (closed : m.containers = []) : b.frames = [] := by
  have lengths := builds.levels.length_eq
  rw [Message.plain, stack, closed, Building.levels] at lengths
  cases frames : b.frames with
  | nil => rfl
  | cons f fs =>
    obtain ⟨kind, ls, levelsEq, -⟩ := levelsOf_eq fs
    simp [frames, levelsOf, levelsEq] at lengths

end SystemdPort.Bus
