/-
# Bus.ReadSafe — reading a body that nobody vouches for

A sealed message whose body is any bytes at all, in any number of parts.  `Safe` is the
invariant of every call that reads it: the read index is in the body, and the size of
each array that has been entered is in the body too.  `Calm` says that a call keeps it,
ends with a result or an error number, and neither faults nor runs out of its counter.

The signature plays no part in this: every piece of it is checked again where it is used.
The one call that is not calm is `sd_bus_message_enter_container()` without contents when
the next element is of a basic type, which copies the contents that are not there.
-/
import SystemdPort.Bus.Skip

namespace SystemdPort.Bus

open Basic Lib Lib.Exec List Message

set_option autoImplicit false

variable {contents : CString} {kind : ContainerType} {l place : Nat}

variable {env : Env} {m m' m₁ m₂ : Message} {size : Nat} {α : Type}

/-! ## Safe messages -/

/-- What holds between any two calls that read a message with a body of `size` bytes. -/
structure Safe (size : Nat) (m : Message) : Prop where
  isSealed : m.isSealed = true
  bodySize : m.userBodySize = size
  position : m.rindex ≤ size
  arrays : ∀ c ∈ m.stack, c.enclosing = some .array →
    ∃ p, c.arraySize = some p ∧ m.inBody p 4 = true
  depth : m.containers.length ≤ 128
  signatures : ∀ c ∈ m.stack, c.signature.length ≤ 255

/-- Looking at bytes maps parts and allocates memory, and changes nothing else. -/
structure Looks (m m' : Message) : Prop where
  same : ∃ nAllocs parts cached, m' =
    { m with nAllocs := nAllocs, parts := parts, cachedRindexPart := cached }
  bytes : ∀ p n, m.inBody p n = true → m'.inBody p n = true

/-- A call that leaves the containers as they are, and does not go back. -/
structure Onward (m m' : Message) : Prop where
  kinds : m'.stack.map Container.enclosing = m.stack.map Container.enclosing
  ge : m.rindex ≤ m'.rindex

def Calm (size : Nat) (x : BusM α) (m : Message) (post : α → Message → Prop) : Prop :=
  wp x post (fun e m' => (∃ errno, e = .errno errno) ∧ Safe size m') m

theorem Looks.refl (m : Message) : Looks m m := ⟨⟨_, _, _, rfl⟩, fun _ _ => id⟩

theorem Looks.trans (first : Looks m m₁) (second : Looks m₁ m₂) : Looks m m₂ := by
  obtain ⟨⟨a, parts, cached, rfl⟩, bytes⟩ := first
  obtain ⟨⟨a', parts', cached', rfl⟩, bytes'⟩ := second
  exact ⟨⟨a', parts', cached', rfl⟩, fun p n inside => bytes' p n (bytes p n inside)⟩

theorem Looks.allocated (m : Message) : Looks m { m with nAllocs := m.nAllocs + 1 } :=
  ⟨⟨_, _, _, rfl⟩, fun _ _ => id⟩

theorem Looks.lastContainer (looks : Looks m m') : m'.lastContainer = m.lastContainer := by
  obtain ⟨⟨_, _, _, rfl⟩, -⟩ := looks
  rfl

theorem Looks.stack (looks : Looks m m') : m'.stack = m.stack := by
  obtain ⟨⟨_, _, _, rfl⟩, -⟩ := looks
  rfl

theorem Looks.rindex (looks : Looks m m') : m'.rindex = m.rindex := by
  obtain ⟨⟨_, _, _, rfl⟩, -⟩ := looks
  rfl

theorem Safe.looks (safe : Safe size m) (looks : Looks m m') : Safe size m' := by
  obtain ⟨⟨_, _, _, rfl⟩, bytes⟩ := looks
  refine { safe with arrays := ?_ }
  intro c member isArray
  obtain ⟨p, pointer, inside⟩ := safe.arrays c member isArray
  exact ⟨p, pointer, bytes p 4 inside⟩

theorem Onward.refl (m : Message) : Onward m m := ⟨rfl, le_rfl⟩

theorem Onward.trans (first : Onward m m₁) (second : Onward m₁ m₂) : Onward m m₂ :=
  ⟨second.kinds.trans first.kinds, first.ge.trans second.ge⟩

theorem Looks.onward (looks : Looks m m') : Onward m m' :=
  ⟨by rw [looks.stack], by rw [looks.rindex]⟩

theorem Onward.length (onward : Onward m m') : m'.containers.length = m.containers.length := by
  have := congrArg List.length onward.kinds
  simpa [stack] using this

theorem Message.lastContainer_mem (m : Message) : m.lastContainer ∈ m.stack := by
  rw [stack_eq]
  exact mem_cons_self

theorem Message.inBody_modifyLast (m : Message) (f : Container → Container) : (m.modifyLast f).inBody = m.inBody := by
  unfold modifyLast
  split <;> rfl

theorem Message.containers_length_modifyLast (m : Message) (f : Container → Container) :
    (m.modifyLast f).containers.length = m.containers.length := by
  unfold modifyLast
  split <;> simp [*]

variable {f : Container → Container} {part : BodyPart} {parts : List BodyPart} {p : Ptr} {q : Option Ptr}
  {align nbytes width : Nat} {bytes : List UInt8} {code : UInt8} {s types : CString} (n : Nat) (c : Container)

/-- Noting something in the last container that is neither its type nor its size. -/
theorem Safe.modifyLast (safe : Safe size m) (kept : (f m.lastContainer).enclosing = m.lastContainer.enclosing)
    (pointer : (f m.lastContainer).arraySize = m.lastContainer.arraySize)
    (types : (f m.lastContainer).signature = m.lastContainer.signature) : Safe size (m.modifyLast f) where
  isSealed := by
    unfold Message.modifyLast
    split <;> exact safe.isSealed
  bodySize := by
    unfold Message.modifyLast
    split <;> exact safe.bodySize
  position := by
    rw [Message.rindex_modifyLast]
    exact safe.position
  depth := by
    rw [Message.containers_length_modifyLast]
    exact safe.depth
  arrays := by
    rw [Message.stack_modifyLast, Message.inBody_modifyLast]
    refine forall_mem_cons.mpr ⟨?_, fun c below => safe.arrays c (mem_of_mem_tail below)⟩
    rw [kept, pointer]
    exact safe.arrays _ m.lastContainer_mem
  signatures := by
    rw [Message.stack_modifyLast]
    refine forall_mem_cons.mpr ⟨?_, fun c below => safe.signatures c (mem_of_mem_tail below)⟩
    rw [types]
    exact safe.signatures _ m.lastContainer_mem

theorem Onward.modifyLast (kept : (f m.lastContainer).enclosing = m.lastContainer.enclosing) :
    Onward m (m.modifyLast f) := by
  refine ⟨?_, (rindex_modifyLast m f).ge⟩
  rw [stack_modifyLast, map_cons, kept]
  conv_rhs => rw [stack_eq]
  rfl

/-! ## Calm calls -/

section Calm

variable {β : Type} {post : α → Message → Prop}

theorem Calm.bind {x : BusM β} {f : β → BusM α} {mid : β → Message → Prop} (first : Calm size x m mid)
    (next : ∀ b m', mid b m' → Calm size (f b) m' post) : Calm size (x >>= f) m post :=
  wp_bind.mpr (wp_mono first next fun _ _ => id)

theorem Calm.mono {x : BusM α} {post' : α → Message → Prop} (calm : Calm size x m post)
    (weaker : ∀ a m', post a m' → post' a m') : Calm size x m post' :=
  wp_mono calm weaker fun _ _ => id

theorem Calm.get {f : Message → BusM α} (next : Calm size (f m) m post) : Calm size (get >>= f) m post := next

theorem Calm.check {p : Prop} [Decidable p] {e : Errno} {f : PUnit → BusM α} (safe : Safe size m)
    (next : p → Calm size (f ⟨⟩) m post) : Calm size (check p e >>= f) m post :=
  wp_require_bind (fun _ => ⟨⟨e, rfl⟩, safe⟩) next

theorem Calm.fail {e : Errno} (safe : Safe size m) : Calm size (fail e : BusM α) m post :=
  ⟨⟨e, rfl⟩, safe⟩

theorem Calm.allocate {f : Allocation → BusM α} (safe : Safe size m) (next : ∀ a, env.alloc m.nAllocs = some a →
      Calm size (f a) { m with nAllocs := m.nAllocs + 1 } post) :
    Calm size (allocate env id >>= f) m post := by
  have allocated : Calm size (Bus.allocate env id) m
      fun a m' => env.alloc m.nAllocs = some a ∧ m' = { m with nAllocs := m.nAllocs + 1 } := by
    refine wp_get_bind.mpr (wp_modify_bind.mpr ?_)
    split
    · rename_i a memory
      exact ⟨memory, rfl⟩
    · exact ⟨⟨_, rfl⟩, safe.looks (.allocated m)⟩
  refine allocated.bind ?_
  rintro a _ ⟨memory, rfl⟩
  exact next a memory

end Calm

/-! ## Bytes -/

theorem busBodyPartMap_spec {part' : BodyPart} (mapped : busBodyPartMap part = some part') :
    part' = part ∨ (part.data = none ∧ part'.size = part.size) := by
  unfold busBodyPartMap at mapped
  split at mapped
  · exact .inl (Option.some.inj mapped).symm
  · rename_i unmapped
    split at mapped
    · cases mapped
      exact .inr ⟨by simpa using fun h => unmapped (.inl h), rfl⟩
    · simp at mapped

theorem findPartLoop_spec {index sz begin : Nat} {found : Nat × Nat × BodyPart}
    (looked : findPartLoop index sz place begin parts = some found) :
    place ≤ found.1 ∧ parts[found.1 - place]? = some found.2.2 ∧ found.2.1 ≤ index ∧
      index + sz ≤ found.2.1 + found.2.2.size := by
  induction parts generalizing place begin with
  | nil => simp [findPartLoop] at looked
  | cons part rest ih =>
    rw [findPartLoop] at looked
    split at looked
    · simp at looked
    split at looked
    · cases looked
      exact ⟨le_rfl, by simp, by simpa using ‹¬ index < begin›, by assumption⟩
    · obtain ⟨later, there, after, fits⟩ := ih looked
      refine ⟨by omega, ?_, after, fits⟩
      rwa [show found.1 - place = found.1 - (place + 1) + 1 by omega, getElem?_cons_succ]

theorem Message.inBody_iff {n : Nat} : m.inBody p n = true ↔
      ∃ (place : Nat) (part : BodyPart), m.parts[place]? = some part ∧ part.data = some p.block ∧
        p.offset + n ≤ part.size := by
  simp only [inBody, any_eq_true, Bool.and_eq_true, decide_eq_true_eq, mem_iff_getElem?]
  constructor
  · rintro ⟨part, ⟨place, there⟩, block, fits⟩
    exact ⟨place, part, there, block, fits⟩
  · rintro ⟨place, part, there, block, fits⟩
    exact ⟨part, ⟨place, there⟩, block, fits⟩

theorem getElem?_set_of_getElem? (part' : BodyPart) (there : parts[place]? = some part) :
    (parts.set place part')[place]? = some part' := by
  rw [getElem?_set_self (List.getElem?_eq_some_iff.mp there).1]

/-- The part found gets mapped, which takes no bytes out of the body. -/
theorem Looks.mapped {part part' : BodyPart} (there : m.parts[place]? = some part)
    (mapped : part' = part ∨ part.data = none) (cached : Option (Nat × Nat)) :
    Looks m { m with parts := m.parts.set place part', cachedRindexPart := cached } := by
  refine ⟨⟨_, _, _, rfl⟩, ?_⟩
  intro p n inside
  rw [inBody_iff] at inside ⊢
  obtain ⟨place', q, there', block, fits⟩ := inside
  by_cases same : place = place'
  · subst same
    obtain rfl : part = q := by simpa [there] using there'
    rcases mapped with rfl | unmapped
    · exact ⟨place, _, getElem?_set_of_getElem? _ there, block, fits⟩
    · rw [unmapped] at block
      cases block
  · refine ⟨place', q, ?_, block, fits⟩
    rw [getElem?_set_ne same, there']

/-- A pointer that `find_part()` gives has its bytes in the body. -/
theorem findPart_calm (index sz : Nat) : Calm size (findPart index sz) m fun found m' =>
    Looks m m' ∧ ∀ p, found = some (some p) → m'.inBody p sz = true := by
  refine wp_get_bind.mpr ?_
  dsimp only
  split
  · exact ⟨.refl m, by simp⟩
  · rename_i place begin part looked
    obtain ⟨later, there, after, fits⟩ := findPartLoop_spec looked
    dsimp only at later there after fits
    rw [getElem?_drop, Nat.add_sub_cancel' later] at there
    split
    · exact ⟨.refl m, by simp⟩
    · rename_i part' mapped
      have known := busBodyPartMap_spec mapped
      refine ⟨.mapped there (known.imp_right And.left) _, ?_⟩
      intro p pointer
      obtain ⟨block, data, rfl⟩ := Option.map_eq_some_iff.mp (Option.some.inj pointer)
      have same_size : part'.size = part.size := by
        rcases known with rfl | ⟨-, same⟩
        · rfl
        · exact same
      refine inBody_iff.mpr ⟨place, part', getElem?_set_of_getElem? _ there, data, ?_⟩
      show index - begin + sz ≤ part'.size
      omega

theorem deref_calm {n : Nat} (inside : m.inBody p n = true) :
    Calm size (deref (some p) n) m fun bytes m' => m' = m ∧ bytes = m.load p n := by
  show Calm size (if m.inBody p n then Pure.pure (m.load p n) else fault) m _
  rw [if_pos inside]
  exact ⟨rfl, rfl⟩

theorem verifyPadding_calm {n : Nat} (safe : Safe size m) (inside : ∀ p, q = some p → m.inBody p n = true) :
    Calm size (verifyPadding q n) m fun _ m' => m' = m := by
  cases q with
  | none => exact rfl
  | some p =>
    refine (deref_calm (inside p rfl)).bind ?_
    rintro bytes _ ⟨rfl, -⟩
    rw [← bind_pure (check _ _)]
    exact Calm.check safe fun _ => rfl

/-- What `message_peek_body()` gives: the position behind the bytes, in the body, and a
pointer to them. -/
structure Peeked (m : Message) (rindex align nbytes : Nat) (peeked : Nat × Option Ptr) (m' : Message) : Prop where
  looks : Looks m m'
  position : peeked.1 = alignTo rindex align + nbytes
  inside : peeked.1 ≤ m.userBodySize
  pointer : ∀ p, peeked.2 = some p → m'.inBody p nbytes = true
  isSome : 0 < nbytes → peeked.2.isSome = true

theorem messagePeekBody_calm (safe : Safe size m) (rindex align nbytes : Nat) :
    Calm size (messagePeekBody rindex align nbytes) m (Peeked m rindex align nbytes) := by
  refine .get (.check safe fun _ => .check safe fun _ => .check safe fun fits => ?_)
  refine (findPart_calm _ _).bind ?_
  rintro padding m₁ ⟨looks₁, inside₁⟩
  have safe₁ := safe.looks looks₁
  cases padding with
  | none => exact .fail safe₁
  | some q =>
    refine (verifyPadding_calm safe₁ fun p same => inside₁ p (by rw [same])).bind ?_
    rintro _ _ rfl
    refine (findPart_calm _ _).bind ?_
    rintro found m₂ ⟨looks₂, inside₂⟩
    cases found with
    | none => exact .fail (safe₁.looks looks₂)
    | some q =>
      refine .check (safe₁.looks looks₂) fun there => ?_
      exact ⟨looks₁.trans looks₂, rfl, fits, fun p same => inside₂ p (by rw [← same]),
        fun pos => there.resolve_left (by omega)⟩

theorem Peeked.deref {rindex : Nat} {peeked : Nat × Option Ptr} (result : Peeked m rindex align nbytes peeked m')
    (pos : 0 < nbytes) : ∃ p, peeked.2 = some p ∧ m'.inBody p nbytes = true := by
  obtain ⟨p, same⟩ := Option.isSome_iff_exists.mp (result.isSome pos)
  exact ⟨p, same, result.pointer p same⟩

theorem peekBytes_calm (safe : Safe size m) {rindex : Nat} (some_bytes : 0 < nbytes) :
    Calm size (peekBytes rindex align nbytes) m fun r m' =>
      Looks m m' ∧ r.1 = alignTo rindex align + nbytes ∧ r.1 ≤ size ∧ r.2.length ≤ nbytes := by
  refine (messagePeekBody_calm safe rindex align nbytes).bind ?_
  rintro ⟨position, q⟩ m₁ peeked
  obtain ⟨p, rfl, inside⟩ := peeked.deref some_bytes
  refine (deref_calm inside).bind ?_
  rintro bytes _ ⟨rfl, rfl⟩
  refine ⟨peeked.looks, peeked.position, safe.bodySize ▸ peeked.inside, ?_⟩
  simp [load]

theorem Message.number_lt (m : Message) (short : bytes.length ≤ width) : m.number bytes < 256 ^ width := by
  have bound : m.number bytes < 256 ^ bytes.length := by
    unfold number
    split
    · simpa using ofLittleEndian_lt bytes.reverse
    · exact ofLittleEndian_lt bytes
  exact bound.trans_le (Nat.pow_le_pow_right (by decide) short)

theorem validateNul_length {s : CText} (valid : validateNul bytes l = some s) : s.1.length ≤ l := by
  unfold validateNul at valid
  split at valid
  · split at valid
    · cases valid
      simp
    · simp at valid
  · simp at valid

theorem peekText_calm (safe : Safe size m) {rindex : Nat} {valid : CString → Bool} (some_width : 0 < width) :
    Calm size (peekText rindex width valid) m fun r m' =>
      Looks m m' ∧ rindex < r.1 ∧ r.1 ≤ size ∧ r.2.1.length < 256 ^ width := by
  refine (peekBytes_calm safe some_width).bind ?_
  rintro ⟨position, bytes⟩ m₁ ⟨looks₁, at_size, -, short⟩
  have safe₁ := safe.looks looks₁
  refine .get (.check safe₁ fun _ => ?_)
  refine (peekBytes_calm safe₁ (Nat.succ_pos _)).bind ?_
  rintro ⟨position', bytes'⟩ m₂ ⟨looks₂, at_text, fits, -⟩
  have safe₂ := safe₁.looks looks₂
  dsimp only at at_size short at_text fits ⊢
  split
  · exact .fail safe₂
  · rename_i s nul
    refine .check safe₂ fun _ => ?_
    have ge := alignTo_ge rindex some_width
    have ge' := alignTo_ge position (by decide : 0 < 1)
    refine ⟨looks₁.trans looks₂, ?_, fits, ?_⟩
    · omega
    · exact (validateNul_length nul).trans_lt (m₁.number_lt short)

theorem peekBasic_calm (safe : Safe size m) (rindex : Nat) (type : BasicType) :
    Calm size (peekBasic rindex type) m fun r m' => Looks m m' ∧ rindex < r.1 ∧ r.1 ≤ size := by
  have text {width : Nat} {valid : CString → Bool} {make : CText → BasicValue} (some_width : 0 < width) :
      Calm size (do
        let text ← peekText rindex width valid
        Pure.pure (text.1, make text.2)) m fun r m' => Looks m m' ∧ rindex < r.1 ∧ r.1 ≤ size := by
    refine (peekText_calm safe some_width).bind ?_
    rintro r m₁ ⟨looks, after, fits, -⟩
    exact ⟨looks, after, fits⟩
  unfold peekBasic
  split
  · rename_i width fixed
    have some_width : 0 < width := by cases type <;> simp [BasicType.size] at fixed <;> omega
    refine (peekBytes_calm safe some_width).bind ?_
    rintro ⟨position, bytes⟩ m₁ ⟨looks, after, fits, -⟩
    have ge := alignTo_ge rindex type.alignment_pos
    refine wp_get_bind.mpr ?_
    split
    · exact Calm.fail (safe.looks looks)
    · exact ⟨looks, by dsimp only at after ⊢; omega, fits⟩
  · split
    · exact text (by decide)
    · exact text (by decide)
    · exact text (by decide)

/-! ## The end of an array -/

/-- Whether the last container is an array of which everything has been read. -/
def Message.arrayOver (m : Message) : Bool :=
  match m.lastContainer.enclosing, m.lastContainer.arraySize with
  | some .array, some p => m.lastContainer.begin + m.number (m.load p 4) ≤ m.rindex
  | _, _ => false

theorem Safe.arrayLength (safe : Safe size m) (isArray : m.lastContainer.enclosing = some .array) :
    ∃ p, m.lastContainer.arraySize = some p ∧ arrayLength m.lastContainer m = .ok (m.number (m.load p 4)) m := by
  obtain ⟨p, pointer, inside⟩ := safe.arrays _ m.lastContainer_mem isArray
  refine ⟨p, pointer, ?_⟩
  have read : deref (some p) 4 m = .ok (m.load p 4) m := by
    show (if m.inBody p 4 then Pure.pure (m.load p 4) else fault : BusM _) m = _
    rw [if_pos inside]
    rfl
  rw [Bus.arrayLength, pointer, bind_of_ok read]
  rfl

theorem Safe.endOfArray (safe : Safe size m) : endOfArray m.rindex m = .ok m.arrayOver m := by
  show (if m.lastContainer.enclosing = some .array then _ else _ : BusM Bool) m = _
  split
  · rename_i isArray
    obtain ⟨p, pointer, length⟩ := safe.arrayLength isArray
    rw [bind_of_ok length]
    simp only [arrayOver, isArray, pointer]
    rfl
  · have : m.arrayOver = false := by
      unfold arrayOver
      split
      · contradiction
      · rfl
    rw [this]
    rfl

theorem isArray_of_arrayOver (ended : m.arrayOver = true) : m.lastContainer.enclosing = some .array := by
  unfold arrayOver at ended
  split at ended
  · assumption
  · cases ended

theorem arrayOver_allocated (m : Message) : arrayOver { m with nAllocs := m.nAllocs + 1 } = m.arrayOver := rfl

theorem Calm.endOfArray {f : Bool → BusM α} {post : α → Message → Prop} (safe : Safe size m)
    (next : Calm size (f m.arrayOver) m post) : Calm size (endOfArray m.rindex >>= f) m post := by
  rwa [Calm, wp, bind_of_ok safe.endOfArray]

/-! ## Values and types -/

theorem Container.enclosing_moveTo : (c.moveTo n).enclosing = c.enclosing := by
  unfold Container.moveTo
  split <;> rfl

theorem Container.signature_moveTo : (c.moveTo n).signature = c.signature := by
  unfold Container.moveTo
  split <;> rfl

/-- The last container can have nothing more in it. -/
def Message.NoMore (m : Message) : Prop :=
  m.lastContainer.enclosing = some .array ∨ m.endOfSignature = true

/-- What a call does that reads or skips something, or nothing if `idle`. -/
structure Took (size : Nat) (m : Message) (idle : Prop) (took : Bool) (m' : Message) : Prop where
  safe : Safe size m'
  onward : Onward m m'
  progress : took = true → m.rindex < m'.rindex
  nothing : took = false → idle

theorem Safe.moveRindex (safe : Safe size m) {rindex : Nat} (fits : rindex ≤ size) : Safe size { m with rindex } :=
  { safe with position := fits }

theorem advance_rindex (m : Message) (rindex count : Nat) : (m.advance rindex count).rindex = rindex :=
  rindex_modifyLast _ _

theorem Safe.advance (safe : Safe size m) {rindex : Nat} (count : Nat) (fits : rindex ≤ size) :
    Safe size (m.advance rindex count) :=
  (safe.moveRindex fits).modifyLast (Container.enclosing_moveTo _ _) (moveTo_arraySize _ _)
    (Container.signature_moveTo _ _)

theorem Onward.advance {rindex : Nat} (count : Nat) (ge : m.rindex ≤ rindex) : Onward m (m.advance rindex count) :=
  Onward.trans (⟨rfl, ge⟩ : Onward m { m with rindex })
    (.modifyLast (Container.enclosing_moveTo _ _))

theorem readBasic_calm (safe : Safe size m) (type : BasicType) :
    Calm size (readBasic type) m fun v m' => Took size m m.NoMore v.isSome m' := by
  refine .get (.check safe fun _ => .check safe fun _ => .endOfArray safe ?_)
  split
  · rename_i ended
    exact ⟨safe, .refl m, by simp, fun _ => .inl (isArray_of_arrayOver ended)⟩
  · refine .check safe fun _ => ?_
    refine (peekBasic_calm safe m.rindex type).bind ?_
    rintro ⟨position, v⟩ m₁ ⟨looks, after, fits⟩
    show Took size m m.NoMore true (m₁.advance position 1)
    have ge : m₁.rindex ≤ position := by
      rw [looks.rindex]
      exact after.le
    refine ⟨(safe.looks looks).advance 1 fits, looks.onward.trans (.advance 1 ge), fun _ => ?_, by simp⟩
    rwa [advance_rindex]

/-- The next type is this basic one. -/
structure NextBasic (m : Message) (code : UInt8) : Prop where
  next : m.lastContainer.signature[m.lastContainer.index]? = some code
  isBasic : busTypeIsBasic code = true
  there : m.arrayOver = false

theorem NextBasic.endOfSignature (basic : NextBasic m code) : m.endOfSignature = false := by
  simpa [Message.endOfSignature] using (List.getElem?_eq_some_iff.mp basic.next).1

theorem signatureElementLength_pos (found : signatureElementLength s = some l) : 1 ≤ l ∧ l ≤ s.length := by
  obtain ⟨e, x, rfl, rfl, single⟩ := elementLength_sound found
  exact ⟨List.length_pos_iff.mpr single.ne_nil, by simp⟩

/-- Structs and dictionary entries have something inside. -/
theorem signatureElementLength_bracket {rest : CString} (bracket : code = structBegin ∨ code = dictEntryBegin)
    (found : signatureElementLength (code :: rest) = some l) : 3 ≤ l := by
  obtain ⟨e, x, whole, rfl, single⟩ := elementLength_sound found
  cases single with
  | basic isBasic =>
    obtain ⟨rfl, -⟩ := List.cons.inj whole
    rcases bracket with rfl | rfl <;> exact absurd isBasic (by decide)
  | variant | array =>
    obtain ⟨rfl, -⟩ := List.cons.inj whole
    exact absurd bracket (by decide)
  | struct _ some_field fields =>
    have := (List.length_pos_iff.mpr some_field).trans_le (Single.length_le fields)
    simp only [List.length_cons, List.length_append, List.length_flatten]
    omega
  | dictEntry _ _ value => simp

/-- What `sd_bus_message_peek_type()` tells about a message. -/
structure Tells (m : Message) (found : Option (UInt8 × Option CString)) (m' : Message) : Prop where
  looks : Looks m m'
  atEnd : found = none → m' = m ∧ (m.endOfSignature = true ∨ m.arrayOver = true)
  basic : ∀ code, found = some (code, none) → m' = m ∧ NextBasic m code

theorem Tells.container (looks : Looks m m') : Tells m (some (code, some contents)) m' := ⟨looks, by simp, by simp⟩

theorem peekType_calm (safe : Safe size m) : Calm size (peekType env) m (Tells m) := by
  refine .get (.check safe fun _ => ?_)
  split
  · rename_i ended
    exact ⟨.refl m, fun _ => ⟨rfl, .inl ended⟩, by simp⟩
  refine .endOfArray safe ?_
  split
  · rename_i ended
    exact ⟨.refl m, fun _ => ⟨rfl, .inr ended⟩, by simp⟩
  rename_i more
  split
  · exact .fail safe
  rename_i code rest next
  split
  · rename_i isBasic
    refine ⟨.refl m, by simp, ?_⟩
    intro code' same
    obtain rfl : code = code' := by simpa using same
    refine ⟨rfl, ?_, isBasic, by simpa using more⟩
    rw [← head?_drop, next]
    rfl
  split
  · split
    · exact .fail safe
    · rename_i l found
      rw [if_neg (by have := signatureElementLength_pos found; omega)]
      exact .allocate safe fun _ _ => .container (.allocated m)
  split
  · rename_i bracket
    split
    · exact .fail safe
    · rename_i l found
      rw [if_neg (by have := signatureElementLength_bracket bracket found; omega)]
      exact .allocate safe fun _ _ => .container (.allocated m)
  split
  · refine (peekText_calm safe (by decide)).bind ?_
    rintro text m₁ ⟨looks, -⟩
    exact .container looks
  · exact .fail safe

/-! ## Containers -/

/-- What entering a container has done before the container is put on the stack. -/
structure Begun (size : Nat) (m : Message) (kind : ContainerType) (contents : CString) (q : Option Ptr)
    (m' : Message) : Prop where
  safe : Safe size m'
  onward : Onward m m'
  accepted : kind.accepts contents = true
  counted : kind = .array ∨ kind = .variant → m.rindex < m'.rindex
  short : contents.length ≤ 255
  pointer : kind = .array → ∃ p, q = some p ∧ m'.inBody p 4 = true

theorem short_of_next {i : Nat} (notVariant : kind ≠ .variant) (next : kind.signature contents <+: s.drop i)
    (short : s.length ≤ 255) : contents.length ≤ 255 := by
  have le := next.length_le
  have : contents.length ≤ (kind.signature contents).length := by
    cases kind with
    | variant => exact absurd rfl notVariant
    | array => simp [ContainerType.signature]
    | struct | dictEntry =>
      simp only [ContainerType.signature, length_cons, length_append]
      omega
  rw [length_drop] at le
  omega

theorem messageEnter_calm (safe : Safe size m) (kind : ContainerType) {c : Container} (contents : CString)
    (types : c.signature.length ≤ 255) : Calm size (messageEnter kind c contents) m (Begun size m kind contents) := by
  -- structs and dictionary entries only move to the next multiple of eight
  have aligned {count : Nat} (accepted : kind.accepts contents = true)
      (next : kind.signature contents <+: c.signature.drop c.index)
      (bracket : kind ≠ .array ∧ kind ≠ .variant) :
      Calm size (do
        let peeked ← messagePeekBody m.rindex 8 0
        modify (advance peeked.1 count)
        Pure.pure none) m (Begun size m kind contents) := by
    refine (messagePeekBody_calm safe m.rindex 8 0).bind ?_
    rintro ⟨position, q⟩ m₁ peeked
    have after := peeked.position
    have ge := alignTo_ge m.rindex (by decide : 0 < 8)
    have ge₁ : m₁.rindex ≤ position := by
      rw [peeked.looks.rindex]
      omega
    exact ⟨(safe.looks peeked.looks).advance _ (safe.bodySize ▸ peeked.inside),
      peeked.looks.onward.trans (.advance _ ge₁), accepted,
      fun sized => absurd sized (by simp [bracket]), short_of_next bracket.2 next types,
      fun isArray => absurd isArray bracket.1⟩
  cases kind with
  | array =>
    refine .check safe fun accepted => .check safe fun next => ?_
    refine .get ((messagePeekBody_calm safe m.rindex 4 4).bind ?_)
    rintro ⟨position, q⟩ m₁ sizeAt
    have safe₁ := safe.looks sizeAt.looks
    obtain ⟨p, rfl, inside⟩ := sizeAt.deref (by decide)
    refine (deref_calm inside).bind ?_
    rintro bytes _ ⟨rfl, -⟩
    refine .check safe₁ fun _ => ?_
    split
    · exact .fail safe₁
    · rename_i alignment aligned
      have some_alignment : 0 < alignment := by
        obtain ⟨code, -, found⟩ := Option.bind_eq_some_iff.mp aligned
        exact busTypeGetAlignment_pos found
      refine (messagePeekBody_calm safe₁ position alignment 0).bind ?_
      rintro ⟨start, q⟩ m₂ peeked
      have after : position = alignTo m.rindex 4 + 4 := sizeAt.position
      have ge := alignTo_ge m.rindex (by decide : 0 < 4)
      have after₁ : start = alignTo position alignment + 0 := peeked.position
      have ge₁ := alignTo_ge position some_alignment
      have looks := sizeAt.looks.trans peeked.looks
      have ge₂ : m₂.rindex ≤ start := by
        rw [looks.rindex]
        omega
      refine ⟨(safe.looks looks).advance _ (safe₁.bodySize ▸ peeked.inside),
        looks.onward.trans (.advance _ ge₂), accepted, fun _ => ?_,
        short_of_next (by decide) next types, fun _ => ⟨p, rfl, ?_⟩⟩
      · rw [advance_rindex]
        omega
      · rw [advance, inBody_modifyLast]
        exact peeked.looks.bytes p 4 inside
  | variant =>
    refine .check safe fun accepted => .check safe fun _ => ?_
    refine .get ((peekText_calm safe (by decide)).bind ?_)
    rintro ⟨position, text⟩ m₁ ⟨looks, after, fits, short⟩
    have safe₁ := safe.looks looks
    refine .check safe₁ fun same => ?_
    have ge : m₁.rindex ≤ position := by
      rw [looks.rindex]
      exact after.le
    refine ⟨safe₁.advance _ fits, looks.onward.trans (.advance _ ge), accepted, fun _ => ?_, ?_, by simp⟩
    · rwa [advance_rindex]
    · exact same ▸ Nat.le_of_lt_succ short
  | struct =>
    refine .check safe fun accepted => .check safe fun next => ?_
    exact aligned accepted next (by decide)
  | dictEntry =>
    refine .check safe fun accepted => .check safe fun _ => .check safe fun next => ?_
    exact aligned accepted next (by decide)

/-- A container has been entered. -/
structure Entered (size : Nat) (m : Message) (kind : ContainerType) (contents : CString) (m' : Message) :
    Prop where
  safe : Safe size m'
  stack : ∃ c cs, m'.stack = c :: cs ∧ c.enclosing = some kind ∧
    c.signature = contents ∧ c.index = 0 ∧
    cs.map Container.enclosing = m.stack.map Container.enclosing
  accepted : kind.accepts contents = true
  ge : m.rindex ≤ m'.rindex
  counted : kind = .array ∨ kind = .variant → m.rindex < m'.rindex
  short : contents.length ≤ 255

theorem Begun.entered (begun : Begun size m₁ kind contents q m₂) (onward : Onward m m₁)
    (shallow : m.containers.length < 128) : Entered size m kind contents { m₂ with containers :=
      { enclosing := some kind, signature := contents, before := m.rindex, begin := m₂.rindex,
        arraySize := q } :: m₂.containers } where
  safe := by
    refine ⟨begun.safe.isSealed, begun.safe.bodySize, begun.safe.position, ?_, ?_, ?_⟩
    · exact forall_mem_cons.mpr ⟨fun isArray => begun.pointer (Option.some.inj isArray), begun.safe.arrays⟩
    · show m₂.containers.length + 1 ≤ 128
      rwa [(onward.trans begun.onward).length]
    · exact forall_mem_cons.mpr ⟨begun.short, begun.safe.signatures⟩
  stack := ⟨_, m₂.stack, rfl, rfl, rfl, rfl, (onward.trans begun.onward).kinds⟩
  accepted := begun.accepted
  ge := (onward.trans begun.onward).ge
  counted := fun sized => onward.ge.trans_lt (begun.counted sized)
  short := begun.short

theorem enterKnown_calm (safe : Safe size m) (type : UInt8) (contents : CString) :
    Calm size (enterKnown env type (some contents)) m fun entered m' =>
      (entered = true → ∃ kind, containerTypeOf type = some kind ∧ Entered size m kind contents m') ∧
      (entered = false → Looks m m' ∧ m.lastContainer.enclosing = some .array) := by
  refine .get (.check safe fun depth => .allocate safe fun _ _ => ?_)
  have safe₁ := safe.looks (.allocated m)
  refine .check safe₁ fun _ => .endOfArray safe₁ ?_
  split
  · rename_i ended
    exact ⟨by simp, fun _ => ⟨.allocated m, isArray_of_arrayOver ended⟩⟩
  refine .allocate safe₁ fun _ _ => ?_
  have looks := (Looks.allocated m).trans (.allocated _)
  generalize { { m with nAllocs := m.nAllocs + 1 } with nAllocs := m.nAllocs + 1 + 1 } = m₂ at looks ⊢
  have noted : Calm size (modify (Message.modifyLast fun c => { c with savedIndex := c.index })) m₂
      fun _ m₃ => Safe size m₃ ∧ Onward m m₃ :=
    ⟨(safe.looks looks).modifyLast rfl rfl rfl, looks.onward.trans (.modifyLast rfl)⟩
  refine noted.bind ?_
  rintro ⟨⟩ m₃ ⟨safe₃, onward₃⟩
  split
  · exact .fail safe₃
  · rename_i kind found
    refine (messageEnter_calm safe₃ kind contents (safe.signatures _ m.lastContainer_mem)).bind ?_
    intro q m₄ begun
    refine ⟨fun _ => ⟨kind, found, ?_⟩, by simp⟩
    exact begun.entered onward₃ depth

theorem exitContainer_calm (safe : Safe size m) : Calm size exitContainer m fun _ m' =>
      Safe size m' ∧ m.containers ≠ [] ∧ m' = { m with containers := m.containers.tail } := by
  refine .get (.check safe fun _ => .check safe fun entered => ?_)
  have popped : Safe size { m with containers := m.containers.tail } := by
    have below {c : Container} (member : c ∈ m.containers.tail ++ [m.rootContainer]) : c ∈ m.stack := by
      rcases mem_append.mp member with below | root
      · exact mem_append_left _ (mem_of_mem_tail below)
      · exact mem_append_right _ root
    refine ⟨safe.isSealed, safe.bodySize, safe.position, fun c member => safe.arrays c (below member), ?_,
      fun c member => safe.signatures c (below member)⟩
    · have := safe.depth
      rw [length_tail]
      omega
  dsimp only
  split
  · rename_i isArray
    obtain ⟨p, -, length⟩ := safe.arrayLength isArray
    rw [Calm, wp, bind_of_ok length]
    exact Calm.check safe fun _ => ⟨popped, entered, rfl⟩
  · exact .check safe fun _ => ⟨popped, entered, rfl⟩

/-! ## Skipping -/

theorem Entered.notMore (entered : Entered size m kind contents m') (notArray : kind ≠ .array)
    (some_contents : contents ≠ []) : ¬ m'.NoMore := by
  obtain ⟨c, cs, stack, enclosing, signature, index, -⟩ := entered.stack
  obtain rfl : m'.lastContainer = c := lastContainer_of_stack stack
  rintro (isArray | ended)
  · rw [enclosing] at isArray
    exact notArray (Option.some.inj isArray)
  · rw [endOfSignature, index, signature] at ended
    simp only [Nat.le_zero, length_eq_zero_iff, decide_eq_true_eq] at ended
    exact some_contents ended

theorem Entered.length (entered : Entered size m kind contents m') :
    m'.containers.length = m.containers.length + 1 := by
  obtain ⟨c, cs, stack, -, -, -, kinds⟩ := entered.stack
  have inner := congrArg List.length stack
  have outer := congrArg List.length kinds
  simp only [Message.stack, length_append, length_map, length_cons] at inner outer
  omega

/-- Leaving a container after its inside gives back the containers there were before. -/
theorem Entered.left (entered : Entered size m kind contents m₁) (inside : Onward m₁ m₂)
    (some_container : m₂.containers ≠ []) : Onward m { m₂ with containers := m₂.containers.tail } := by
  obtain ⟨c, cs, stack, -, -, -, kinds⟩ := entered.stack
  refine ⟨?_, entered.ge.trans inside.ge⟩
  have same := congrArg List.tail inside.kinds
  rw [stack, map_cons, tail_cons, kinds, ← map_tail] at same
  rw [← same]
  show List.map _ (m₂.containers.tail ++ [m₂.rootContainer]) = _
  rw [Message.stack, tail_append_of_ne_nil some_container]

/-- A container is skipped by entering it, skipping its inside, and leaving it. -/
theorem skipContainer_calm (safe : Safe size m) {skip : BusM PUnit}
    (inside : ∀ m₁, Entered size m kind contents m₁ → Calm size skip m₁ fun _ m₂ =>
      Safe size m₂ ∧ Onward m₁ m₂ ∧ m.rindex < m₂.rindex) :
    Calm size (skipContainer env kind contents skip) m (Took size m m.NoMore) := by
  have entering : Calm size (enterContainer env kind.code (some contents)) m fun entered m' =>
      (entered = true → Entered size m kind contents m') ∧
      (entered = false → Looks m m' ∧ m.lastContainer.enclosing = some .array) := by
    have some_type : kind.code ≠ 0 := by cases kind <;> decide
    refine .get (.check safe fun _ => .check safe fun _ => ?_)
    rw [if_neg (by simp [some_type])]
    refine (enterKnown_calm safe kind.code contents).mono ?_
    rintro entered m' ⟨yes, no⟩
    refine ⟨fun done => ?_, no⟩
    obtain ⟨kind', found, result⟩ := yes done
    obtain rfl : kind = kind' := by simpa using found
    exact result
  refine entering.bind ?_
  rintro entered m₁ ⟨yes, no⟩
  cases entered with
  | false =>
    obtain ⟨looks, isArray⟩ := no rfl
    exact ⟨safe.looks looks, looks.onward, by simp, fun _ => .inl isArray⟩
  | true =>
    refine (inside m₁ (yes rfl)).bind ?_
    rintro ⟨⟩ m₂ ⟨safe₂, onward, progress⟩
    refine (exitContainer_calm safe₂).bind ?_
    rintro ⟨⟩ _ ⟨safe₃, some_container, rfl⟩
    exact ⟨safe₃, (yes rfl).left onward some_container, fun _ => progress, by simp⟩

/-- Each round of the loop over an array gets nearer to the end of the body. -/
theorem skipArray_calm {skip : BusM Bool} (step : ∀ m₁, Safe size m₁ → Onward m m₁ → Calm size skip m₁ fun took m₂ =>
      Safe size m₂ ∧ Onward m₁ m₂ ∧ (took = true → m₁.rindex < m₂.rindex))
    (n : Nat) (safe₁ : Safe size m₁) (onward : Onward m m₁) (enough : size - m₁.rindex < n) :
    Calm size (skipArray skip n) m₁ fun _ m₂ => Safe size m₂ ∧ Onward m₁ m₂ := by
  induction n generalizing m₁ with
  | zero => omega
  | succ n ih =>
    refine (step m₁ safe₁ onward).bind ?_
    rintro took m₂ ⟨safe₂, onward₂, progress⟩
    cases took with
    | false => exact ⟨safe₂, onward₂⟩
    | true =>
      have := progress rfl
      have := safe₂.position
      refine (ih safe₂ (onward.trans onward₂) (by omega)).mono ?_
      rintro ⟨⟩ m₃ ⟨safe₃, onward₃⟩
      exact ⟨safe₃, onward₂.trans onward₃⟩

/-- A counter that is enough to skip `types`: for one element after the other, for what
is inside of 128 containers, where a variant brings its own types, and for as many rounds
as there are bytes. -/
def skipFuel (size : Nat) (types : CString) (m : Message) : Nat :=
  types.length + (128 - m.containers.length) * 257 + (size - m.rindex) + 2

theorem skipFuel_mono (size : Nat) {types' : CString} (onward : Onward m m') (le : types'.length ≤ types.length) :
    skipFuel size types' m' ≤ skipFuel size types m := by
  have := onward.ge
  unfold skipFuel
  rw [onward.length]
  omega

section Element

variable {n : Nat} {skip : CString → BusM Bool} {code : UInt8} {rest : CString}

/-- Inside a container less is enough. -/
theorem Entered.less_fuel (entered : Entered size m kind contents m') (enough : skipFuel size types m ≤ n + 1) :
    skipFuel size contents m' ≤ n := by
  have depth := entered.safe.depth
  have ge := entered.ge
  have short := entered.short
  unfold skipFuel at enough ⊢
  rw [entered.length] at depth ⊢
  omega

/-- The inside of a struct, a dictionary entry or a variant: there is something, and it
takes up room. -/
theorem Entered.inside (entered : Entered size m kind contents m₁)
    (inside : ∀ types m₁, Safe size m₁ → skipFuel size types m₁ ≤ n →
      Calm size (skip types) m₁ (Took size m₁ (types = [] ∨ m₁.NoMore)))
    (enough : skipFuel size (code :: rest) m ≤ n + 1) (notArray : kind ≠ .array) (some_contents : contents ≠ []) :
    Calm size (skip contents) m₁ fun took m₂ => took = true ∧ Safe size m₂ ∧ Onward m₁ m₂ ∧ m.rindex < m₂.rindex := by
  refine (inside contents m₁ entered.safe (entered.less_fuel enough)).mono ?_
  intro took m₂ result
  have took_some : took = true := by
    by_contra nothing
    rcases result.nothing (by simpa using nothing) with empty | noMore
    · exact some_contents empty
    · exact entered.notMore notArray some_contents noMore
  exact ⟨took_some, result.safe, result.onward, entered.ge.trans_lt (result.progress took_some)⟩

theorem Took.of_looks {idle : Prop} {took : Bool} (looks : Looks m m₁) (same : idle → m.NoMore)
    (result : Took size m₁ idle took m₂) : Took size m m.NoMore took m₂ := by
  refine ⟨result.safe, looks.onward.trans result.onward, ?_, fun nothing => same (result.nothing nothing)⟩
  rw [← looks.rindex]
  exact result.progress

theorem Looks.noMore (looks : Looks m m') (noMore : m'.NoMore) : m.NoMore := by
  rwa [Message.NoMore, endOfSignature, looks.lastContainer] at noMore

theorem some_contents_of_variant (accepted : ContainerType.variant.accepts contents = true) : contents ≠ [] := by
  rintro rfl
  exact absurd accepted (by decide)

theorem skipElement_calm (safe : Safe size m) (enough : skipFuel size (code :: rest) m ≤ n + 1)
    (inside : ∀ types m₁, Safe size m₁ → skipFuel size types m₁ ≤ n →
      Calm size (skip types) m₁ (Took size m₁ (types = [] ∨ m₁.NoMore))) :
    Calm size (skipElement env n skip code rest) m fun element m' =>
      Took size m m.NoMore element.1 m' ∧ element.2.length ≤ rest.length := by
  unfold skipElement
  split
  · rename_i type _
    refine (readBasic_calm safe type).bind ?_
    intro v m₁ result
    exact ⟨result, le_rfl⟩
  split
  · split
    · exact .fail safe
    · rename_i k found
      refine (skipContainer_calm safe fun m₁ entered => ?_).bind ?_
      · have less := entered.less_fuel enough
        have enough₁ : size - m₁.rindex < n := by
          unfold skipFuel at less
          omega
        refine (skipArray_calm (fun m₂ safe₂ onward₂ => ?_) n entered.safe (.refl m₁) enough₁).mono ?_
        · have := skipFuel_mono size onward₂ (le_refl (rest.take k).length)
          refine (inside _ m₂ safe₂ (by omega)).mono ?_
          intro took m₃ result
          exact ⟨result.safe, result.onward, result.progress⟩
        · rintro ⟨⟩ m₂ ⟨safe₂, onward₂⟩
          exact ⟨safe₂, onward₂, (entered.counted (.inl rfl)).trans_le onward₂.ge⟩
      · intro took m₁ result
        exact ⟨result, by simp⟩
  split
  · refine (peekType_calm safe).bind ?_
    intro found m₁ tells
    have safe₁ := safe.looks tells.looks
    split
    · obtain ⟨rfl, ended⟩ := tells.atEnd rfl
      exact ⟨⟨safe, .refl _, by simp, fun _ => ended.elim .inr fun e => .inl (isArray_of_arrayOver e)⟩, le_rfl⟩
    · refine .check safe₁ fun _ => ?_
      have enough₁ : skipFuel size (code :: rest) m₁ ≤ n + 1 :=
        (skipFuel_mono size tells.looks.onward le_rfl).trans enough
      refine (skipContainer_calm safe₁ fun m₂ entered => ?_).bind ?_
      · refine (entered.inside inside enough₁ (by decide) (some_contents_of_variant entered.accepted)).bind ?_
        rintro _ m₃ ⟨rfl, result⟩
        exact result
      · intro took m₂ result
        exact ⟨result.of_looks tells.looks tells.looks.noMore, le_rfl⟩
  split
  · rename_i bracket
    split
    · exact .fail safe
    · rename_i k found
      have three := signatureElementLength_bracket bracket found
      have fits := (signatureElementLength_pos found).2
      rw [length_cons] at fits
      have some_contents : rest.take (k - 2) ≠ [] := by
        rw [← length_pos_iff, length_take]
        omega
      refine .check safe fun _ => ?_
      refine (skipContainer_calm safe fun m₁ entered => ?_).bind ?_
      · refine (entered.inside inside enough (by split <;> decide) some_contents).bind ?_
        rintro took m₂ ⟨-, result⟩
        exact result
      · intro took m₁ result
        exact ⟨result, by simp⟩
  · exact .fail safe

end Element

/-- Skipping any types of any message. -/
theorem skipTypes_calm (types : CString) (safe : Safe size m) (enough : skipFuel size types m ≤ n) :
    Calm size (skipTypes env n types) m (Took size m (types = [] ∨ m.NoMore)) := by
  induction n generalizing types m with
  | zero =>
    unfold skipFuel at enough
    omega
  | succ n ih =>
    cases types with
    | nil => exact ⟨safe, .refl m, by simp, fun _ => .inl rfl⟩
    | cons code rest =>
      refine (skipElement_calm safe enough fun types m₁ safe₁ enough₁ => ih types safe₁ enough₁).bind ?_
      rintro ⟨took, types⟩ m₁ ⟨result, shorter⟩
      cases took with
      | false => exact ⟨result.safe, result.onward, by simp, fun _ => .inr (result.nothing rfl)⟩
      | true =>
        have less := skipFuel_mono size result.onward shorter
        have enough₁ : skipFuel size types m₁ ≤ n := by
          unfold skipFuel at less enough ⊢
          dsimp only at less
          rw [length_cons] at enough
          omega
        refine (ih types result.safe enough₁).bind ?_
        intro _ m₂ result₂
        exact ⟨result₂.safe, result.onward.trans result₂.onward,
          fun _ => (result.progress rfl).trans_le result₂.onward.ge, by simp⟩

end SystemdPort.Bus
