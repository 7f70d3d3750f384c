/-
# Bus.Body — how the body of a message grows

What `message_extend_body()` does to memory.  As long as a message is only appended to,
its body is in one part, and the block of that part begins with the body (`Holds`); the
sizes of open arrays are pointers into that block.  When the block moves, so do the
pointers.

`extendBody_ok` says that an extension puts padding and room behind the body and that every
open array counts them; `Holds.store` is for what is then written there.
-/
import SystemdPort.Bus.Value

namespace SystemdPort.Bus

open Basic Lib Lib.Exec Function List Message

set_option autoImplicit false

variable {e : Errno} {body bytes full : List UInt8} {m m' : Message} {align sz : Nat} {off : Option Nat} {p : Ptr}
  {α β : Type}

variable {env : Env}

variable {f : PUnit → BusM α} {a : Allocation} {data : Option Nat} {block size n : Nat} {front : List UInt8}
  {offs : List (Option Nat)}

/-! ## Steps -/

theorem check_bind_eq_ok {p : Prop} [Decidable p] {a : α} :
    (check p e >>= f) m = .ok a m' ↔ p ∧ f ⟨⟩ m = .ok a m' := require_bind_eq_ok

theorem check_bind_of {p : Prop} [Decidable p] (holds : p) : (check p e >>= f) m = f ⟨⟩ m := require_of holds

theorem check_of {p : Prop} [Decidable p] (holds : p) : check p e m = .ok ⟨⟩ m := by
  rw [check, require, if_pos holds]
  rfl

@[simp] theorem fail_apply (e : Errno) (m : Message) : (fail e : BusM α) m = .error (.errno e) m := rfl

theorem allocate_eq_ok {onFailure : Message → Message} : allocate env onFailure m = .ok a m' ↔
      env.alloc m.nAllocs = some a ∧ m' = { m with nAllocs := m.nAllocs + 1 } := by
  unfold allocate
  simp only [get_bind, modify_bind]
  cases env.alloc m.nAllocs with
  | none => simp
  | some b =>
    simp only [pure_apply, EStateM.Result.ok.injEq, Option.some.injEq]
    constructor <;> rintro ⟨rfl, rfl⟩ <;> exact ⟨rfl, rfl⟩

theorem allocate_bind_eq_ok {onFailure : Message → Message} {f : Allocation → BusM α} {x : α} :
    (allocate env onFailure >>= f) m = .ok x m' ↔
      ∃ a, env.alloc m.nAllocs = some a ∧ f a { m with nAllocs := m.nAllocs + 1 } = .ok x m' := by
  simp [bind_eq_ok, allocate_eq_ok]

/-! ## One part -/

/-- The body is in one part, which has this memory. -/
def Chunk (m : Message) (data : Option Nat) (full : List UInt8) (size : Nat) : Prop :=
  m.parts = [{ data, size, allocated := full.length }] ∧ (data.map m.blocks).getD [] = full

theorem Chunk.bodyEnd (chunk : Chunk m data full size) : m.bodyEnd = { data, size, allocated := full.length } := by
  simp [Message.bodyEnd, chunk.1]

/-- The block of the part after `realloc()`: what it had, and new memory. -/
theorem reallocBodyEnd_ok (chunk : Chunk m data full size) (grows : full.length ≤ n) :
    ∃ block junk blocks, blocks block = full ++ junk ∧ (full ++ junk).length = n ∧
      m.reallocBodyEnd n a = { m with blocks, parts := [{ data := some block, size, allocated := n }] } := by
  refine ⟨if a.inPlace then data.getD m.nAllocs else m.nAllocs, (List.range (n - full.length)).map a.junk,
    (m.reallocBodyEnd n a).blocks, ?_, by simp; omega, ?_⟩
  · simp [reallocBodyEnd, modifyBodyEnd, chunk.bodyEnd, chunk.2]
  · simp [reallocBodyEnd, modifyBodyEnd, Message.bodyEnd, chunk.1]

/-- What making space does to a part: its block has what it had, and perhaps new memory. -/
theorem partMakeSpace_ok (chunk : Chunk m data full size) (done : partMakeSpace env sz m = .ok p m') :
    ∃ block junk blocks nAllocs, p = ⟨block, size⟩ ∧ blocks block = full ++ junk ∧ sz ≤ (full ++ junk).length ∧
      m' = { m with
        blocks, nAllocs, parts := [{ data := some block, size := sz, allocated := (full ++ junk).length }] } := by
  simp only [partMakeSpace, get_bind, check_bind_eq_ok, chunk.bodyEnd] at done
  obtain ⟨-, done⟩ := done
  by_cases short : full.length = 0 ∨ full.length < sz
  · rw [if_pos short] at done
    obtain ⟨a, -, done⟩ := allocate_bind_eq_ok.mp done
    generalize newEq : (if sz > 0 then 2 * sz else 64) = new at done
    have enough : full.length ≤ new ∧ sz ≤ new := by
      split at newEq <;> omega
    obtain ⟨block, junk, blocks, stored, rfl, grown⟩ := reallocBodyEnd_ok (m := { m with nAllocs := m.nAllocs + 1 })
      (a := a) chunk enough.1
    simp only [modify_bind, grown] at done
    obtain ⟨rfl, rfl⟩ := done
    exact ⟨block, junk, blocks, _, rfl, stored, enough.2, rfl⟩
  · rw [if_neg short] at done
    obtain ⟨rfl, rfl⟩ := done
    obtain ⟨parts, memory⟩ := chunk
    cases data with
    | none => simp [← memory] at short
    | some block =>
      refine ⟨block, [], m.blocks, m.nAllocs, ?_, ?_, ?_, ?_⟩
      · simp [Message.bodyEnd, parts]
      · simpa using memory
      · simp
        omega
      · simp [modifyBodyEnd, Message.bodyEnd, parts]

/-! ## Counting in the open arrays -/

/-- The pointers to the sizes of the open arrays. -/
def pointers (block : Nat) (offs : List (Option Nat)) : List (Option Ptr) :=
  offs.map (Option.map fun off => ⟨block, off⟩)

theorem bumpSizes_ok {cs : List Container} (points : cs.map Container.arraySize = pointers block offs) :
    ∃ blocks, cs.foldl (fun m c => m.bumpSize n c) m = { m with blocks } ∧
      blocks block = offs.foldl (bump n) (m.blocks block) := by
  induction cs generalizing m offs with
  | nil =>
    obtain rfl : offs = [] := by simpa [pointers] using points.symm
    exact ⟨_, rfl, rfl⟩
  | cons c cs ih =>
    obtain ⟨off, offs, rfl⟩ := exists_cons_of_ne_nil (l := offs) (by rintro rfl; simp [pointers] at points)
    simp only [pointers, map_cons, List.cons.injEq] at points
    have first : ∃ blocks, m.bumpSize n c = { m with blocks } ∧ blocks block = bump n (m.blocks block) off := by
      cases off with
      | none => exact ⟨m.blocks, by simp [bumpSize, points.1], rfl⟩
      | some off => exact ⟨_, by simp only [bumpSize, points.1]; rfl, by simp [load, bump]⟩
    obtain ⟨blocks₁, same₁, counted₁⟩ := first
    obtain ⟨blocks, same, counted⟩ := ih (m := { m with blocks := blocks₁ }) points.2
    refine ⟨blocks, ?_, ?_⟩
    · rw [foldl_cons, same₁, same]
    · exact counted.trans (congrArg (foldl (bump n) · offs) counted₁)

variable {segs : List (List UInt8 × Opening)} {tail : List UInt8}

/-- The containers are visited in the order of the offsets. -/
theorem extendContainers_ok (points : m.containers.reverse.map Container.arraySize = pointers block (holes segs 0))
    (memory : m.blocks block = render segs tail ++ front) :
    ∃ blocks, m.extendContainers n = { m with blocks } ∧ blocks block = counted n segs tail ++ front := by
  unfold extendContainers
  split
  · rename_i zero
    have none_added := render_append segs tail []
    rw [append_nil, append_nil, length_nil, ← zero] at none_added
    exact ⟨_, rfl, none_added ▸ memory⟩
  · rw [← foldl_reverse]
    obtain ⟨blocks, same, bumped⟩ := bumpSizes_ok points
    exact ⟨blocks, same, bumped.trans (memory ▸ bumpAll_render n [] segs tail front)⟩

/-! ## Extending the body -/

/-- A message being built has the body of these segments; memory may go on behind it. -/
structure Holds (m : Message) (segs : List (List UInt8 × Opening)) (tail : List UInt8) : Prop where
  size : m.bodySize = (render segs tail).length
  place : ∃ data junk, Chunk m data (render segs tail ++ junk) (render segs tail).length ∧
    (m.nBodyParts = 0 ↔ data = none)
  points : m.containers.reverse.map Container.arraySize = pointers (m.bodyEnd.data.getD 0) (holes segs 0)
  small : (render segs tail).length < 2 ^ 32

/-- A container without its pointers. -/
def Container.plain (c : Container) : Container := { c with arraySize := none, savedIndex := 0 }

/-- What appending to the body leaves alone: everything but memory, the size and the
pointers. -/
def OnlyBody (m m' : Message) : Prop :=
  ∃ blocks nAllocs parts nBodyParts bodySize containers,
    m' = { m with blocks, nAllocs, parts, nBodyParts, bodySize, containers } ∧
      containers.map Container.plain = m.containers.map Container.plain

theorem OnlyBody.trans {m₁ m₂ m₃ : Message} (first : OnlyBody m₁ m₂) (second : OnlyBody m₂ m₃) : OnlyBody m₁ m₃ := by
  obtain ⟨_, _, _, _, _, _, rfl, same⟩ := first
  obtain ⟨_, _, _, _, _, _, rfl, same'⟩ := second
  exact ⟨_, _, _, _, _, _, rfl, same'.trans same⟩

theorem OnlyBody.store (only : OnlyBody m m') (p : Ptr) (bytes : List UInt8) : OnlyBody m (m'.store p bytes) :=
  only.trans ⟨_, _, _, _, _, _, rfl, rfl⟩

theorem alignTo_ge (l : Nat) (some_align : 0 < align) : l ≤ alignTo l align := by
  unfold alignTo
  have := Nat.div_add_mod (l + align - 1) align
  have := Nat.mod_lt (l + align - 1) some_align
  rw [mul_comm]
  omega

theorem alignTo_zero (some_align : 0 < align) : alignTo 0 align = 0 := by
  rw [alignTo, Nat.div_eq_of_lt (by omega), Nat.zero_mul]

@[simp] theorem length_pad (pos align : Nat) : (pad pos align).length = alignTo pos align - pos := by
  simp [pad]

/-- A pointer into the body follows its block. -/
theorem adjustContainers_points {old new : Nat}
    (points : m.containers.reverse.map Container.arraySize = pointers old offs) (data : m.bodyEnd.data = some new)
    (inside : ∀ o, some o ∈ offs → o + 4 ≤ size) :
    (adjustContainers (some old) size m).containers.reverse.map Container.arraySize = pointers new offs := by
  have each : ((adjustContainers (some old) size m).containers.reverse.map Container.arraySize) =
      (m.containers.reverse.map Container.arraySize).map
        (adjustPointer · (some old) size (some new)) := by
    simp [adjustContainers, data]
  rw [each, points, pointers, pointers, map_map]
  refine map_congr_left fun off member => ?_
  cases off with
  | none => rfl
  | some o =>
    have := inside o member
    simp only [comp_apply, Option.map_some, adjustPointer]
    rw [if_pos ⟨trivial, by omega⟩]

/-- Behind the body there is padding and room, and the pointers lead to where it is now. -/
structure Room (m m' : Message) (segs : List (List UInt8 × Opening)) (body : List UInt8) (sz : Nat) (p : Ptr) :
    Prop where
  chunk : ∃ fresh junk, fresh.length = sz ∧
    Chunk m' p.block (body ++ fresh ++ junk) (body.length + sz)
  some_part : m'.nBodyParts ≠ 0
  points : m'.containers.reverse.map Container.arraySize = pointers p.block (holes segs 0)
  start : p.offset = body.length
  only : OnlyBody m m'

theorem Holds.empty (holds : Holds m segs tail) (none_yet : m.nBodyParts = 0) : render segs tail = [] := by
  obtain ⟨data, junk, ⟨-, memory⟩, none_iff⟩ := holds.place
  obtain rfl := none_iff.mp none_yet
  exact (append_eq_nil_iff.mp memory.symm).1

theorem extendNewPart_room (holds : Holds m segs tail) (none_yet : m.nBodyParts = 0)
    (done : extendNewPart env 0 sz m = .ok p m') : Room m m' segs [] sz p := by
  obtain ⟨u, m₁, appended, done⟩ := bind_eq_ok.mp done
  simp only [messageAppendPart, get_bind, check_bind_eq_ok, none_yet, if_true, modify_bind,
    modify_apply, EStateM.Result.ok.injEq, true_and] at appended
  obtain ⟨-, rfl⟩ := appended
  obtain ⟨block, full, _, _, rfl, stored, enough, rfl⟩ := partMakeSpace_ok (by exact ⟨rfl, rfl⟩ : Chunk _ none [] 0) done
  rw [nil_append] at enough
  refine ⟨⟨full.take sz, full.drop sz, by simpa using enough, ?_, ?_⟩, by simp, ?_, rfl, ?_⟩
  · simp
  · simpa using stored
  -- with no body yet there is no size to point to
  · refine holds.points.trans (map_congr_left fun off member => ?_)
    cases off with
    | none => rfl
    | some o =>
      have := (holes_inside tail member).2
      simp [holds.empty none_yet] at this
  · exact ⟨_, _, _, _, _, _, rfl, rfl⟩

theorem extendLastPart_room (holds : Holds m segs tail) (some_part : m.nBodyParts ≠ 0) (some_align : 0 < align)
    (done : extendLastPart env align (alignTo (render segs tail).length align - (render segs tail).length) sz m =
      .ok p m') : Room m m' segs (render segs tail ++ pad (render segs tail).length align) sz p := by
  have ge := alignTo_ge (render segs tail).length some_align
  obtain ⟨data, junk, chunk, none_iff⟩ := holds.place
  obtain ⟨old, rfl⟩ := Option.ne_none_iff_exists'.mp (mt none_iff.mpr some_part)
  have points := holds.points
  simp only [extendLastPart, get_bind, chunk.bodyEnd] at done points
  obtain ⟨q, m₁, space, done⟩ := bind_eq_ok.mp done
  obtain ⟨block, more, _, _, rfl, stored, enough, rfl⟩ := partMakeSpace_ok chunk space
  obtain ⟨rfl, rfl⟩ := done
  set body := render segs tail with bodyEq
  have long : (pad body.length align).length + sz ≤ (junk ++ more).length := by
    simp at enough ⊢
    omega
  obtain ⟨under, fresh, last, rest, padded, length⟩ := exists_parts long
  rw [append_assoc, rest, append_assoc, ← append_assoc] at stored
  refine ⟨⟨fresh, last, length, ?_, ?_⟩, some_part, ?_, by simp, ?_⟩
  · have := congrArg List.length rest
    simp only [length_append, length_pad] at this padded
    simp [adjustContainers, Message.store]
    omega
  · have written := overwrite_append 0 body (pad body.length align) under (fresh ++ last) padded.symm
    rw [append_assoc _ fresh, ← written, ← stored]
    simp [adjustContainers, Message.store, pad]
  · exact adjustContainers_points points rfl fun o ho => by simpa using (holes_inside tail ho).2
  · exact ⟨_, _, _, _, _, _, rfl, by simp [Message.store, Container.plain]⟩

/-- Extending the body: the padding and `sz` bytes that are still to be written are
behind it, and every open array has counted them. -/
theorem extendBody_ok (holds : Holds m segs tail) (some_align : 0 < align)
    (done : messageExtendBody env align sz m = .ok p m') : ∃ fresh : List UInt8, fresh.length = sz ∧
      Holds m' segs (tail ++ (pad (render segs tail).length align ++ fresh)) ∧
      (0 < sz → p = ⟨m'.bodyEnd.data.getD 0, alignTo (render segs tail).length align⟩) ∧ OnlyBody m m' := by
  have ge := alignTo_ge (render segs tail).length some_align
  have size := holds.size
  simp only [messageExtendBody, get_bind, check_bind_eq_ok] at done
  obtain ⟨-, done⟩ := done
  split at done
  · simp at done
  rename_i fits
  rw [size] at fits
  obtain ⟨q, m₁, extended, done⟩ := bind_eq_ok.mp done
  simp only [modify_bind, pure_apply, EStateM.Result.ok.injEq] at done
  obtain ⟨rfl, rfl⟩ := done
  rw [size] at extended ⊢
  simp only [extendParts, get_bind] at extended
  by_cases nothing : alignTo (render segs tail).length align - (render segs tail).length + sz = 0
  -- nothing is added
  · rw [if_pos nothing] at extended
    cases extended
    obtain rfl : sz = 0 := by omega
    have aligned : alignTo (render segs tail).length align = (render segs tail).length := by omega
    have no_pad : pad (render segs tail).length align = [] := by simp [pad, aligned]
    rw [nothing, aligned, no_pad]
    refine ⟨[], rfl, ?_, by omega, ⟨_, _, _, _, _, _, rfl, rfl⟩⟩
    rw [append_nil, append_nil]
    exact { holds with size := rfl }
  rw [if_neg nothing] at extended
  have room : Room m m₁ segs (render segs tail ++ pad (render segs tail).length align) sz q := by
    by_cases none_yet : m.nBodyParts = 0
    · rw [if_pos (.inl none_yet)] at extended
      have empty : render segs tail ++ pad (render segs tail).length align = [] := by
        simp [holds.empty none_yet, pad, alignTo_zero some_align]
      rw [holds.empty none_yet, length_nil, alignTo_zero some_align] at extended
      exact empty ▸ extendNewPart_room holds none_yet extended
    · obtain ⟨data, junk, chunk, -⟩ := holds.place
      rw [if_neg (by simp [none_yet, chunk.bodyEnd])] at extended
      exact extendLastPart_room holds none_yet some_align extended
  obtain ⟨fresh, junk, length, parts, memory⟩ := room.chunk
  have amount : alignTo (render segs tail).length align - (render segs tail).length + sz =
      (pad (render segs tail).length align ++ fresh).length := by simp [length]
  have resized : (render segs (tail ++ (pad (render segs tail).length align ++ fresh))).length =
      alignTo (render segs tail).length align + sz := by
    simp [length_render_append, length]
    omega
  obtain ⟨blocks, same, bumped⟩ := extendContainers_ok
    (m := { m₁ with bodySize := alignTo (render segs tail).length align + sz })
    (n := (pad (render segs tail).length align ++ fresh).length) room.points (show _ = render segs tail ++ _ by simpa using memory)
  have counted : blocks q.block =
      render segs (tail ++ (pad (render segs tail).length align ++ fresh)) ++ junk := by
    rw [render_append, append_assoc]
    simpa using bumped
  rw [amount, same]
  refine ⟨fresh, length, ⟨resized.symm, ⟨q.block, junk, ⟨?_, counted⟩, ?_⟩, ?_, ?_⟩, fun _ => ?_, ?_⟩
  · rw [length_append, resized]
    show m₁.parts = _
    rw [parts]
    simp
    omega
  · simpa using room.some_part
  · have points := room.points
    simpa [Message.bodyEnd, parts] using points
  · omega
  · have start : q.offset = alignTo (render segs tail).length align := by
      simpa [Nat.add_sub_cancel' ge] using room.start
    simp [Message.bodyEnd, parts, ← start]
  · exact room.only.trans ⟨_, _, _, _, _, _, rfl, rfl⟩

/-! ## Writing -/

theorem Holds.body_eq (holds : Holds m segs tail) : m.body = render segs tail := by
  obtain ⟨data, junk, ⟨parts, memory⟩, -⟩ := holds.place
  cases data with
  | none => simp [Message.body, parts, (append_eq_nil_iff.mp memory.symm).1]
  | some block =>
    have stored : m.blocks block = render segs tail ++ junk := memory
    simp [Message.body, parts, stored]

theorem Holds.part (holds : Holds m segs tail) (some_bytes : 0 < (render segs tail).length) :
    m.nBodyParts ≠ 0 ∧ ∃ block junk, m.blocks block = render segs tail ++ junk ∧ m.parts =
      [{ data := some block, size := (render segs tail).length, allocated := (render segs tail ++ junk).length }] := by
  obtain ⟨data, junk, ⟨parts, memory⟩, none_iff⟩ := holds.place
  cases data with
  | none =>
    rw [(append_eq_nil_iff.mp memory.symm).1] at some_bytes
    cases some_bytes
  | some block => exact ⟨by simp [none_iff], block, junk, memory, parts⟩

theorem length_render_pad (some_align : 0 < align) :
    (render segs (tail ++ pad (render segs tail).length align)).length = alignTo (render segs tail).length align := by
  rw [length_render_append, length_pad, Nat.add_sub_cancel' (alignTo_ge _ some_align)]

/-- Bytes at the end can be overwritten. -/
theorem Holds.store {a b c : List UInt8} (holds : Holds m segs (a ++ b ++ c)) (length : bytes.length = b.length)
    (some_bytes : b ≠ []) :
    Holds (m.store ⟨m.bodyEnd.data.getD 0, (render segs a).length⟩ bytes) segs (a ++ bytes ++ c) := by
  have same : (render segs (a ++ bytes ++ c)).length = (render segs (a ++ b ++ c)).length := by
    simp [length_render_append, length]
  obtain ⟨some_part, block, junk, stored, parts⟩ := holds.part (by
    have := length_pos_iff.mpr some_bytes
    simp only [length_render_append]
    omega)
  refine ⟨holds.size.trans same.symm, ⟨block, junk, ⟨?_, ?_⟩, by simp [Message.store, some_part]⟩, holds.points,
    same ▸ holds.small⟩
  · rw [length_append, same, ← length_append]
    exact parts
  · have sized : (b ++ c).length = (bytes ++ c).length := by simp [length]
    rw [append_assoc, render_append, sized] at stored
    have written := overwrite_append 0 (counted (bytes ++ c).length segs a) bytes b (c ++ junk) length
    rw [append_assoc a, render_append]
    simp [Message.store, Message.bodyEnd, parts, stored]
    simpa using written

/-! ## Failing -/

/-- A call that marks the message as unusable whenever it fails. -/
def Poisons {α : Type} (x : BusM α) : Prop :=
  ∀ ⦃m e m'⦄, x m = .error e m' → m'.poisoned = true

namespace Poisons

theorem bind {x : BusM α} {f : α → BusM β} (first : Poisons x) (second : ∀ a, Poisons (f a)) : Poisons (x >>= f) := by
  intro m e m' failed
  rw [bind_apply] at failed
  split at failed
  · exact second _ failed
  · rename_i done
    cases failed
    exact first done

variable {f : Message → BusM β}

theorem get_bind (second : ∀ m, Poisons (f m)) : Poisons (get >>= f) :=
  bind (fun _ _ _ failed => by simp at failed) second

theorem modify_bind {g : Message → Message} {f : PUnit → BusM β} (second : Poisons (f ⟨⟩)) :
    Poisons (modify g >>= f) :=
  bind (fun _ _ _ failed => by simp at failed) fun _ => second

theorem of_pure (a : α) : Poisons (pure a : BusM α) := fun _ _ _ failed => by simp at failed

theorem of_modify (g : Message → Message) : Poisons (modify g : BusM PUnit) := fun _ _ _ failed => by
  simp at failed

/-- A message that is unusable already is left as it is. -/
theorem of_check (second : ∀ m, Poisons (f m)) :
    Poisons (do
      let m ← get
      check (m.poisoned = false) e
      f m) := by
  intro m err m' failed
  by_cases usable : m.poisoned = false
  · simp only [Exec.get_bind, check_bind_of usable] at failed
    exact second m failed
  · simp only [Exec.get_bind, check, require, if_neg usable] at failed
    cases failed
    simpa using usable

theorem of_allocate : Poisons (allocate env poison) := by
  intro m err m' failed
  unfold allocate at failed
  simp only [Exec.get_bind] at failed
  cases found : env.alloc m.nAllocs with
  | some a => simp [found] at failed
  | none =>
    simp only [found] at failed
    cases failed
    rfl

end Poisons

theorem partMakeSpace_poisons (sz : Nat) : Poisons (partMakeSpace env sz) := by
  refine .of_check fun m => ?_
  have rest : Poisons (do
      let m ← get
      modify (modifyBodyEnd fun part => { part with size := sz })
      pure (⟨m.bodyEnd.data.getD 0, m.bodyEnd.size⟩ : Ptr)) :=
    .get_bind fun _ => .modify_bind (.of_pure _)
  split
  · exact .bind .of_allocate fun _ => .modify_bind rest
  · exact rest

theorem messageAppendPart_poisons : Poisons (messageAppendPart env) := by
  refine .of_check fun m => ?_
  split
  · exact .modify_bind (.of_modify _)
  · exact .bind .of_allocate fun _ => .modify_bind (.of_modify _)

theorem extendParts_poisons (align padding sz : Nat) : Poisons (extendParts env align padding sz) := by
  have newPart : Poisons (extendNewPart env padding sz) := by
    have rest : Poisons (do
        messageAppendPart env
        partMakeSpace env sz) :=
      .bind messageAppendPart_poisons fun _ => partMakeSpace_poisons sz
    unfold extendNewPart
    split
    · exact .bind messageAppendPart_poisons fun _ => .modify_bind rest
    · exact rest
  have lastPart : Poisons (extendLastPart env align padding sz) :=
    .get_bind fun _ => .bind (partMakeSpace_poisons _) fun _ => .modify_bind (.modify_bind (.of_pure _))
  refine .get_bind fun m => ?_
  split
  · exact .of_pure _
  split
  · exact newPart
  · exact lastPart

theorem messageExtendBody_poisons (align sz : Nat) : Poisons (messageExtendBody env align sz) := by
  refine .of_check fun m => ?_
  dsimp only
  split
  · intro m err m' failed
    cases failed
    rfl
  · exact .bind (extendParts_poisons _ _ _) fun _ => .modify_bind (.of_pure _)

end SystemdPort.Bus
