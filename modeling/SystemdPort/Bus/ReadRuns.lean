/-
# Bus.ReadRuns — any calls on any body

Runs of the calls that read a message, from a message as it is sealed or received.  Each
call is calm (`readCall_calm`), with the one exception of `ReadCall.copiesNull`, which
crashes (`run_copiesNull`); so a run comes back exactly if no call in it is of that kind.
-/
import SystemdPort.Bus.Failing
import SystemdPort.Bus.ReadSafe

namespace SystemdPort.Bus

open Basic Lib Lib.Exec List

set_option autoImplicit false

variable {env : Env} {m m' m₁ m₂ : Message} {size : Nat}

/-! ## Calls, one after another -/

/-- A call that reads a message. -/
inductive ReadCall where
  | peekType
  | readBasic (type : BasicType)
  /-- A type of 0 or contents of NULL are looked up. -/
  | enterContainer (type : UInt8) (contents : Option CString)
  | exitContainer
  /-- Types of NULL stand for the next element. -/
  | skip (types : Option CString)

def ReadCall.run (env : Env) (fuel : Nat) : ReadCall → BusM PUnit
  | peekType => do let _ ← Bus.peekType env
  | readBasic type => do let _ ← Bus.readBasic type
  | enterContainer type contents => do let _ ← Bus.enterContainer env type contents
  | exitContainer => Bus.exitContainer
  | skip types => do let _ ← messageSkip env fuel types

/-- Runs calls, which may fail with errors, up to the first that does not come back. -/
def runReads (env : Env) (fuel : Nat) : List ReadCall → Message → Except Failure Message
  | [], m => .ok m
  | call :: calls, m =>
    match call.run env fuel m with
    | .ok _ m' | .error (.errno _) m' => runReads env fuel calls m'
    | .error e _ => .error e

/-- The call copies contents that are not there: it has to find out what comes next, which is
of a basic type. -/
structure CopiesNull (env : Env) (m : Message) (type : UInt8) : Prop where
  next : ∃ code, NextBasic m code ∧ (type = 0 ∨ type = code)
  depth : m.containers.length < 128
  memory : (env.alloc m.nAllocs).isSome = true

def ReadCall.copiesNull (env : Env) (m : Message) : ReadCall → Prop
  | enterContainer type none => CopiesNull env m type
  | _ => False

/-- A counter that is enough for a call. -/
def ReadCall.fuel (size : Nat) : ReadCall → Nat
  | skip (some types) => types.length + 128 * 257 + size + 2
  | _ => 255 + 128 * 257 + size + 2

theorem skipFuel_le (size : Nat) (types : CString) (m : Message) :
    skipFuel size types m ≤ types.length + 128 * 257 + size + 2 := by
  unfold skipFuel
  omega

variable {fuel : Nat} {call : ReadCall}

theorem messageSkip_calm (safe : Safe size m) (types : Option CString)
    (enough : (ReadCall.skip types).fuel size ≤ fuel) :
    Calm size (messageSkip env fuel types) m fun _ m' => Safe size m' := by
  refine .check safe fun _ => ?_
  cases types with
  | some types =>
    have := skipFuel_le size types m
    exact (skipTypes_calm fuel types safe (this.trans enough)).mono fun _ _ result => result.safe
  | none =>
    refine .check safe fun _ => .endOfArray safe ?_
    split
    · exact safe
    dsimp only
    split
    · exact .fail safe
    · rename_i l _
      have short : ((m.lastContainer.signature.drop m.lastContainer.index).take l).length ≤ 255 := by
        have := safe.signatures _ m.lastContainer_mem
        simp only [length_take, length_drop]
        omega
      have := skipFuel_le size ((m.lastContainer.signature.drop m.lastContainer.index).take l) m
      have enough : 255 + 128 * 257 + size + 2 ≤ fuel := enough
      exact (skipTypes_calm fuel _ safe (by omega)).mono fun _ _ result => result.safe

/-- Without contents, and nothing or something else than a basic value comes next. -/
theorem enterFound_calm (safe : Safe size m) {type : UInt8} {found : Option (UInt8 × Option CString)}
    (tells : Tells m found m₁) (careful : ¬ CopiesNull env m type) :
    Calm size (do
      check (type = 0 ∨ type = (found.getD (0, none)).1) .enxio
      enterKnown env (found.getD (0, none)).1 (found.getD (0, none)).2) m₁ fun _ m' => Safe size m' := by
  have safe₁ := safe.looks tells.looks
  refine .check safe₁ fun same => ?_
  match found, tells, same with
  | some (code, some contents), _, _ =>
    refine (enterKnown_calm safe₁ code contents).mono ?_
    rintro entered m' ⟨yes, no⟩
    cases entered with
    | true =>
      obtain ⟨kind, -, result⟩ := yes rfl
      exact result.safe
    | false => exact safe₁.looks (no rfl).1
  | some (code, none), tells, same =>
    obtain ⟨rfl, basic⟩ := tells.basic code rfl
    -- there is no memory, or the call would copy NULL
    refine .check safe fun depth => .allocate safe fun a memory => ?_
    exact absurd ⟨⟨code, basic, same⟩, depth, by rw [memory]; rfl⟩ careful
  | none, tells, _ =>
    obtain ⟨rfl, ended⟩ := tells.atEnd rfl
    refine .check safe fun depth => .allocate safe fun _ _ => ?_
    have safe₂ := safe.looks (.allocated _)
    refine .check safe₂ fun more => .endOfArray safe₂ ?_
    rcases ended with ended | ended
    · rw [ended] at more
      cases more
    · rwa [arrayOver_allocated, ended]

theorem enterContainer_calm (safe : Safe size m) (type : UInt8) (contents : Option CString)
    (careful : ¬ (ReadCall.enterContainer type contents).copiesNull env m) :
    Calm size (enterContainer env type contents) m fun _ m' => Safe size m' := by
  refine .check safe fun _ => .check safe fun given => ?_
  split
  · rename_i unknown
    obtain rfl : contents = none := by
      rcases unknown with rfl | none
      · exact given.resolve_left (by simp)
      · exact none
    refine (peekType_calm safe).bind ?_
    intro found m₁ tells
    exact enterFound_calm safe tells careful
  · rename_i known
    match contents, known with
    | some contents, _ =>
      refine (enterKnown_calm safe type contents).mono ?_
      rintro entered m' ⟨yes, no⟩
      cases entered with
      | true =>
        obtain ⟨kind, -, result⟩ := yes rfl
        exact result.safe
      | false => exact safe.looks (no rfl).1
    | none, known => exact absurd (.inr rfl) known

theorem readCall_calm (safe : Safe size m) (enough : call.fuel size ≤ fuel) (careful : ¬ call.copiesNull env m) :
    Calm size (call.run env fuel) m fun _ m' => Safe size m' := by
  cases call with
  | peekType => exact (peekType_calm safe).bind fun _ _ tells => safe.looks tells.looks
  | readBasic type => exact (readBasic_calm safe type).bind fun _ _ result => result.safe
  | enterContainer type contents =>
    exact (enterContainer_calm safe type contents careful).bind fun _ _ result => result
  | exitContainer => exact (exitContainer_calm safe).mono fun _ _ result => result.1
  | skip types => exact (messageSkip_calm safe types enough).bind fun _ _ result => result

theorem run_copiesNull (safe : Safe size m) (fuel : Nat) (copies : call.copiesNull env m) :
    ∃ m', call.run env fuel m = .error .fault m' := by
  match call, copies with
  | .enterContainer type none, ⟨⟨code, basic, same⟩, depth, memory⟩ =>
    obtain ⟨a, memory⟩ := Option.isSome_iff_exists.mp memory
    have peeked : peekType env m = .ok (some (code, none)) m := by
      obtain ⟨rest, next⟩ : ∃ rest, m.lastContainer.signature.drop m.lastContainer.index = code :: rest :=
        ⟨_, drop_eq_getElem?_toList_append.trans (by rw [basic.next]; rfl)⟩
      rw [peekType, get_bind, check_bind_of safe.isSealed, basic.endOfSignature,
        if_neg (by decide), bind_of_ok safe.endOfArray, basic.there, if_neg (by decide)]
      simp only [next, basic.isBasic]
      rfl
    have safe₁ := safe.looks (.allocated m)
    have faults : enterKnown env code none m = .error .fault { m with nAllocs := m.nAllocs + 1 } := by
      rw [enterKnown, get_bind, check_bind_of depth, bind_of_ok (allocate_eq_ok.mpr ⟨memory, rfl⟩),
        check_bind_of basic.endOfSignature]
      rw [bind_of_ok safe₁.endOfArray, arrayOver_allocated, basic.there]
      rfl
    refine ⟨{ m with nAllocs := m.nAllocs + 1 }, ?_⟩
    have whole : enterContainer env type none m = .error .fault { m with nAllocs := m.nAllocs + 1 } := by
      rw [enterContainer, get_bind, check_bind_of safe.isSealed, check_bind_of (.inr rfl),
        if_pos (.inr rfl), bind_of_ok peeked]
      show (check (type = 0 ∨ type = code) _ >>= _) _ = _
      rwa [check_bind_of same]
    show (enterContainer env type none >>= _) m = _
    rw [bind_apply, whole]

theorem runReads_cons (fuel : Nat) (call : ReadCall) (calls : List ReadCall) (m : Message) :
    runReads env fuel (call :: calls) m =
      match call.run env fuel m with
      | .ok _ m' | .error (.errno _) m' => runReads env fuel calls m'
      | .error e _ => .error e := rfl

/-- A call that copies no NULL comes back, and leaves a safe message to the calls behind it. -/
theorem runReads_calm (safe : Safe size m) (enough : call.fuel size ≤ fuel) (careful : ¬ call.copiesNull env m) :
    ∃ m', Safe size m' ∧ ∀ calls, runReads env fuel (call :: calls) m = runReads env fuel calls m' := by
  have calm := readCall_calm safe enough careful
  cases run : call.run env fuel m with
  | ok u m' =>
    rw [Calm, wp, run] at calm
    exact ⟨m', calm, fun calls => by rw [runReads_cons, run]⟩
  | error e m' =>
    obtain ⟨⟨errno, rfl⟩, safe'⟩ := wp_of_error calm run
    exact ⟨m', safe', fun calls => by rw [runReads_cons, run]⟩

/-- Some call of a run copies a NULL. -/
def CopiesNullIn (env : Env) (fuel : Nat) (calls : List ReadCall) (m : Message) : Prop :=
  ∃ front call back m₁, calls = front ++ call :: back ∧ runReads env fuel front m = .ok m₁ ∧
    call.copiesNull env m₁

theorem copiesNullIn_cons {calls : List ReadCall} (careful : ¬ call.copiesNull env m)
    (after : ∀ calls, runReads env fuel (call :: calls) m = runReads env fuel calls m₁) :
    CopiesNullIn env fuel (call :: calls) m ↔ CopiesNullIn env fuel calls m₁ := by
  constructor
  · rintro ⟨front, bad, back, m₂, cut, run, copies⟩
    cases front with
    | nil =>
      obtain ⟨rfl, rfl⟩ := List.cons.inj cut
      obtain rfl : m = m₂ := by simpa [runReads] using run
      exact absurd copies careful
    | cons _ front =>
      obtain ⟨rfl, behind⟩ := List.cons.inj cut
      rw [after] at run
      exact ⟨front, bad, back, m₂, behind, run, copies⟩
  · rintro ⟨front, bad, back, m₂, rfl, run, copies⟩
    exact ⟨call :: front, bad, back, m₂, rfl, (after front).trans run, copies⟩

/-- A whole run ends with a safe message, or crashes at a call that copies a NULL. -/
theorem runReads_safe (env : Env) (safe : Safe size m) (calls : List ReadCall)
    (enough : ∀ call ∈ calls, call.fuel size ≤ fuel) :
    (CopiesNullIn env fuel calls m → runReads env fuel calls m = .error .fault) ∧
    (¬ CopiesNullIn env fuel calls m → ∃ m', runReads env fuel calls m = .ok m' ∧ Safe size m') := by
  induction calls generalizing m with
  | nil =>
    refine ⟨?_, fun _ => ⟨m, rfl, safe⟩⟩
    rintro ⟨front, call, back, m₁, cut, -⟩
    simp at cut
  | cons call calls ih =>
    by_cases copies : call.copiesNull env m
    · refine ⟨fun _ => ?_, fun never => ?_⟩
      · obtain ⟨m', crashed⟩ := run_copiesNull safe fuel copies
        rw [runReads_cons, crashed]
      · exact absurd ⟨[], call, calls, m, rfl, rfl, copies⟩ never
    · obtain ⟨m₁, safe₁, after⟩ := runReads_calm safe (enough call mem_cons_self) copies
      rw [copiesNullIn_cons copies after, after]
      exact ih safe₁ fun call member => enough call (mem_cons_of_mem _ member)

/-- A message as it is sealed or received, with any parts and any bytes in them. -/
structure Unread (m : Message) : Prop where
  isSealed : m.isSealed = true
  closed : m.containers = []
  root : m.rootContainer.enclosing = none
  valid : signatureIsValid m.rootContainer.signature true = true
  start : m.rindex = 0

theorem Unread.safe (unread : Unread m) : Safe m.userBodySize m where
  isSealed := unread.isSealed
  bodySize := rfl
  position := unread.start ▸ Nat.zero_le _
  depth := by simp [unread.closed]
  arrays := by
    intro c member isArray
    obtain rfl : c = m.rootContainer := by simpa [Message.stack, unread.closed] using member
    rw [unread.root] at isArray
    cases isArray
  signatures := by
    intro c member
    obtain rfl : c = m.rootContainer := by simpa [Message.stack, unread.closed] using member
    have := unread.valid
    simp only [signatureIsValid, Bool.and_eq_true, decide_eq_true_eq] at this
    exact this.2

/-- Any calls that read a message, whatever is in it, come back with the read index in the body,
except if one copies a NULL. -/
theorem reads_come_back_iff (env : Env) (m : Message) (unread : Unread m) (calls : List ReadCall) (fuel : Nat)
    (enough : ∀ call ∈ calls, call.fuel m.userBodySize ≤ fuel) :
    runReads env fuel calls m ≠ .error .outOfFuel ∧
    ((∃ m', runReads env fuel calls m = .ok m' ∧ m'.userBodySize = m.userBodySize ∧
        m'.rindex ≤ m'.userBodySize) ↔
      ∀ front call back m₁, calls = front ++ call :: back → runReads env fuel front m = .ok m₁ →
        ¬ call.copiesNull env m₁) := by
  obtain ⟨crash, comeBack⟩ := runReads_safe env unread.safe calls enough
  have never_iff : (∀ front call back m₁, calls = front ++ call :: back →
      runReads env fuel front m = .ok m₁ → ¬ call.copiesNull env m₁) ↔ ¬ CopiesNullIn env fuel calls m := by
    simp only [CopiesNullIn, not_exists, not_and]
  rw [never_iff]
  by_cases copies : CopiesNullIn env fuel calls m
  · rw [crash copies]
    simp [copies]
  · obtain ⟨m', run, safe⟩ := comeBack copies
    refine ⟨by simp [run], fun _ => copies, fun _ => ⟨m', run, safe.bodySize, ?_⟩⟩
    rw [safe.bodySize]
    exact safe.position

/-- A message of one byte. -/
def aByte : Message :=
  { blocks := fun b => if b = 1 then [7] else [], parts := [{ data := some 1, size := 1 }], isSealed := true
    userBodySize := 1, rootContainer := { signature := [chr 'y'] } }

theorem aByte_unread : Unread aByte := ⟨rfl, rfl, rfl, by decide, rfl⟩

theorem reads_come_back_aByte :
    ∃ m', runReads .plenty 40000 [.peekType, .readBasic .byte, .skip none] aByte = .ok m' ∧
      m'.userBodySize = 1 ∧ m'.rindex ≤ m'.userBodySize := by
  refine (reads_come_back_iff .plenty aByte aByte_unread [.peekType, .readBasic .byte, .skip none] 40000
    (by simp [ReadCall.fuel, aByte])).2.mpr ?_
  intro front call back m₁ cut _
  have member : call ∈ [ReadCall.peekType, .readBasic .byte, .skip none] := by simp [cut]
  simp only [mem_cons, not_mem_nil, or_false] at member
  rcases member with rfl | rfl | rfl <;> exact id

/-- Entering whatever comes next copies the contents of a byte. -/
theorem enterContainer_copiesNull :
    Unread aByte ∧ runReads .plenty 40000 [.enterContainer 0 none] aByte = .error .fault :=
  ⟨aByte_unread, rfl⟩

end SystemdPort.Bus
