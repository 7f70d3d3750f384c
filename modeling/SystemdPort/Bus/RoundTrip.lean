/-
# Bus.RoundTrip — a sealed message is read back

The writer and the reader meet at the forest of values: what was built with success and
sealed has their bytes and their signature (`Bus.Append`), and a reader that finds these
reads the values (`Bus.ReadBack`, `Bus.Skip`).  `message_roundTrip` is the result for
whole messages.

Skipping is not quite like reading.  `skip_deep_variants` has a message that is written and
read but of which an element cannot be skipped.
-/
import SystemdPort.Bus.Failing
import SystemdPort.Bus.Skip

namespace SystemdPort.Bus

open Basic Lib Lib.Exec List

set_option autoImplicit false

variable {m : Message} {b : Building}

/-! ## From writing to reading -/

theorem Builds.readable {leftover : CString} (builds : Builds m b leftover) (n : Nat) (root : Container) :
    ∃ block, Readable { m with
      nAllocs := n
      userBodySize := m.bodySize
      rootContainer := root
      isSealed := true } b.body block := by
  have holds := builds.holds
  obtain ⟨-, cached, native⟩ := builds.unread
  obtain ⟨data, junk, ⟨parts, memory⟩, -⟩ := holds.place
  cases data with
  | none =>
    obtain ⟨empty, rfl⟩ := append_eq_nil_iff.mp memory.symm
    exact ⟨0, rfl, native, holds.size, holds.small, .inr ⟨empty, by simpa [empty] using parts⟩, .inl cached⟩
  | some block =>
    refine ⟨block, rfl, native, holds.size, holds.small, .inl ⟨_, parts, rfl, rfl, ?_⟩, .inl cached⟩
    have stored : m.blocks block = b.body ++ junk := memory
    simp [stored]

/-- Before the first call of the reader, everything is still to come. -/
theorem Builds.reading {env : Env} {m' : Message} {cookie : Nat} (builds : Builds m b [])
    (done : messageSeal env cookie m = .ok ⟨⟩ m') (within : AllWithin 0 0 b.done) :
    b.frames = [] ∧ ∃ block, Reading (encodeAll 0 b.done) block m' [b.done] := by
  obtain ⟨closed, -, n, rfl⟩ := messageSeal_ok done
  have top := builds.top_of_closed closed
  obtain ⟨-, enclosingEq, signature⟩ := builds.complete top
  obtain ⟨block, readable⟩ := builds.readable n { m.rootContainer with index := 0 }
  have body : b.body = encodeAll 0 b.done := by
    rw [Building.body, Building.tail, top]
    rfl
  rw [body] at readable
  have sound := builds.sound.1
  rw [top] at sound
  refine ⟨top, block, readable, ?_⟩
  rw [closed, builds.unread.1]
  refine ⟨⟨?_, within, At.whole _, ?_, fun isArray => ?_⟩, trivial⟩
  · rwa [enclosingEq]
  · rw [enclosingEq, signature]
    simp
  · rw [show ({ m.rootContainer with index := 0 } : Container).enclosing = none from enclosingEq] at isArray
    cases isArray

/-! ## What the calls tell about a value -/

theorem Value.signature_of_calls {v w : Value} (same : v.calls = w.calls) : v.signature = w.signature := by
  cases v with
  | basic v n =>
    cases w with
    | basic w k =>
      simp only [Value.calls, List.cons.injEq, Call.append.injEq, and_true] at same
      rw [Value.signature, Value.signature, same]
    | container type contents elems => simp [Value.calls] at same
  | container type contents elems =>
    cases w with
    | basic w k => simp [Value.calls] at same
    | container type' contents' elems' =>
      simp only [Value.calls, List.cons.injEq, Call.openContainer.injEq] at same
      rw [Value.signature, Value.signature, same.1.1, same.1.2]

mutual

theorem Value.skippable_of_calls : (v : Value) → ∀ {w : Value} {depth : Nat}, v.calls = w.calls →
    w.Skippable depth → v.Skippable depth
  | .basic v n, w, depth, _, _ => trivial
  | .container type contents elems, .container type' contents' elems', depth, same, skippable => by
    simp only [Value.calls, List.cons.injEq] at same
    obtain ⟨⟨rfl, rfl⟩, inside⟩ := same
    obtain ⟨elemsEq, -⟩ := callsOf_append_inj elems inside
    exact ⟨skippable.1, allSkippable_of_calls elems elemsEq skippable.2⟩

theorem allSkippable_of_calls : (vs : List Value) → ∀ {ws : List Value} {depth : Nat}, callsOf vs = callsOf ws →
    AllSkippable depth ws → AllSkippable depth vs
  | [], ws, depth, _, _ => trivial
  | v :: vs, [], depth, same, _ => by
    obtain ⟨call, rest, first, -⟩ := v.calls_head
    simp [callsOf, first] at same
  | v :: vs, w :: ws, depth, same, skippable => by
    obtain ⟨first, others⟩ := Value.calls_append_inj same
    exact ⟨v.skippable_of_calls first skippable.1, allSkippable_of_calls vs others skippable.2⟩

end

/-! ## Whole messages -/

section Here

variable {bytes : List UInt8} {block : Nat} {m : Message}

variable {todos : List (List Value)} {todo : List Value}

theorem Pending.length_eq {pos : Nat} {cs : List Container} (pending : Pending bytes block pos cs todos) :
    todos.length = cs.length := by
  induction cs generalizing pos todos with
  | nil =>
    cases todos with
    | nil => rfl
    | cons todo todos => exact pending.elim
  | cons c cs ih =>
    cases todos with
    | nil => exact pending.elim
    | cons todo todos => simp [ih pending.2]

/-- The end of all calls is the end of the message. -/
theorem pendingCalls_eq_nil (reading : Reading bytes block m (todo :: todos)) :
    pendingCalls (todo :: todos) = [] ↔ todo = [] ∧ m.containers = [] := by
  have lengths : todos.length = m.containers.length := by
    have := reading.pending.length_eq
    simpa [Message.stack] using this
  have last : todos = [] ↔ m.containers = [] := by
    rw [← length_eq_zero_iff, lengths, length_eq_zero_iff]
  rw [pendingCalls_cons, append_eq_nil_iff, ← last]
  refine and_congr ?_ ?_
  · cases todo with
    | nil => simp [callsOf]
    | cons v todo =>
      obtain ⟨call, rest, first, -⟩ := v.calls_head
      simp [callsOf, first]
  · cases todos <;> simp [callsBehind]

/-- Skipping the next element, with its types given or not. -/
theorem messageSkip_ok {env : Env} {v : Value} (memory : ∀ k, (env.alloc k).isSome = true)
    (reading : Reading bytes block m ((v :: todo) :: todos)) (single : Single true 0 0 v.signature)
    (skippable : v.Skippable m.containers.length) :
    ∃ bound m', Passed bytes block v m m' ∧ ∀ fuel, bound ≤ fuel → ∀ types, types = none ∨ types = some v.signature →
      messageSkip env fuel types m = .ok true m' := by
  obtain ⟨bound, m', passed, skips⟩ := skip_value memory v reading single skippable
  refine ⟨bound + 2, m', passed, fun fuel enough types given => ?_⟩
  obtain ⟨n, rfl⟩ : ∃ k, fuel = k + 2 := ⟨fuel - 2, by omega⟩
  have whole : skipTypes env (n + 2) v.signature m = .ok true m' := by
    have skipped := skips (n + 1) (by omega) []
    rwa [append_nil] at skipped
  unfold messageSkip
  simp only [get_bind]
  rw [check_bind_of reading.readable.isSealed]
  rcases given with rfl | rfl
  · obtain ⟨rest, next⟩ := reading.awaits.1.next
    dsimp only
    rw [check_bind_of (by rw [endOfSignature_eq reading]; simp), bind_of_ok (endOfArray_ok reading)]
    simp only [reduceCtorEq, and_false]
    rw [← next]
    simp only [signatureElementLength, elementLength_of_single single id, take_left]
    exact whole
  · exact whole

end Here

/-- What was appended with success and sealed is read back, within the limits of the format, and
skipping an element is reading it, if its type is valid by itself and not nested too deep to
look behind its arrays. -/
theorem message_roundTrip {env reader : Env} {allowFds isMethodReturn : Bool} {enforced : Option CString}
    {calls : List Call} {cookie : Nat} {built m : Message}
    (appended : runAll env calls (.new allowFds isMethodReturn enforced) = .ok ⟨⟩ built)
    (done : messageSeal env cookie built = .ok ⟨⟩ m) (memory : ∀ k, (reader.alloc k).isSome = true)
    (within : AllWithin 0 0 (valuesOf calls)) :
    callsOf (valuesOf calls) = calls ∧
      ∀ front rest, calls = front ++ rest → ∃ here,
        readAll reader front m = .ok (front.map Call.reply) here ∧
        messageAtEnd true here = .ok (decide (rest = [])) here ∧
        messageAtEnd false here = .ok (rest.head?.all (· = .closeContainer)) here ∧
        ∀ v : Value, ∀ behind, rest = v.calls ++ behind → signatureIsSingle v.signature true = true →
          v.Skippable here.containers.length →
          ∃ there, readAll reader v.calls here = .ok (v.calls.map Call.reply) there ∧
            ∃ bound skipped, skipped.rindex = there.rindex ∧ skipped.containers = there.containers ∧
              skipped.rootContainer = there.rootContainer ∧
              ∀ fuel, bound ≤ fuel → ∀ types, types = none ∨ types = some v.signature →
                messageSkip reader fuel types here = .ok true skipped := by
  obtain ⟨builds, sameCalls⟩ := runAll_builds (new_builds allowFds isMethodReturn enforced) appended
  obtain ⟨top, block, reading⟩ := builds.reading done within
  have complete : callsOf (valuesOf calls) = calls := by
    rwa [Building.calls, top] at sameCalls
  refine ⟨complete, fun front rest split => ?_⟩
  obtain ⟨here, todos, reads, reading, pending⟩ := readAll_ok memory reading
    (show pendingCalls [valuesOf calls] = front ++ rest by rw [← split]; exact complete)
  cases todos with
  | nil =>
    have lengths := reading.pending.length_eq
    simp [Message.stack] at lengths
  | cons todo todos =>
    refine ⟨here, reads, ?_, ?_, fun v behind next single skippable => ?_⟩
    · rw [messageAtEnd_ok reading, ← pending]
      refine congrArg (EStateM.Result.ok · here) (decide_eq_decide.mpr ?_)
      rw [pendingCalls_eq_nil reading]
      simp
    · rw [messageAtEnd_ok reading, ← pending, pendingCalls_head]
      simp
    · rw [← pending, pendingCalls_cons] at next
      cases todo with
      | nil =>
        obtain ⟨call, others, first, opens⟩ := v.calls_head
        rw [first] at next
        cases todos with
        | nil => simp [callsOf, callsBehind] at next
        | cons outer todos =>
          simp only [callsOf, callsBehind, nil_append, cons_append, List.cons.injEq] at next
          exact absurd next.1.symm opens
      | cons w todo =>
        rw [callsOf, append_assoc] at next
        obtain ⟨same, -⟩ := Value.calls_append_inj next
        have signature := Value.signature_of_calls same
        obtain ⟨there, reads, passed⟩ := read_value memory w reading
        obtain ⟨bound, skipped, passed', skips⟩ := messageSkip_ok memory reading
          (signatureIsSingle_iff.mp (by simpa [signature] using single)) (w.skippable_of_calls same skippable)
        rw [same] at reads
        rw [signature] at skips
        have stack : skipped.stack = there.stack := passed'.stack.trans passed.stack.symm
        obtain ⟨containers, root⟩ := append_inj' stack rfl
        exact ⟨there, reads, bound, skipped, passed'.rindex.trans passed.rindex.symm, containers,
          singleton_inj.mp root, skips⟩

theorem plenty_memory (k : Nat) : (Env.plenty.alloc k).isSome = true := rfl

/-- An array of two bytes and a byte. -/
def bytesCalls : List Call :=
  [.openContainer .array [BasicType.byte.code], .append (.byte 1), .append (.byte 2), .closeContainer, .append (.byte 7)]

/-- They are read back, and skipping the array leads to where reading it does. -/
theorem roundTrip_bytes : ∃ built m, runAll .plenty bytesCalls (.new true false none) = .ok ⟨⟩ built ∧
    messageSeal .plenty 1 built = .ok ⟨⟩ m ∧
    (∃ here, readAll .plenty bytesCalls m = .ok (bytesCalls.map Call.reply) here ∧
      messageAtEnd true here = .ok true here) ∧
    ∃ there bound skipped, readAll .plenty (bytesCalls.take 4) m = .ok ((bytesCalls.take 4).map Call.reply) there ∧
      messageSkip .plenty bound none m = .ok true skipped ∧ skipped.rindex = there.rindex := by
  have succeed : succeeds ((runAll .plenty bytesCalls >>= fun _ => messageSeal .plenty 1) (.new true false none)) = true := by
    decide +kernel
  obtain ⟨u, m, both⟩ := succeeds_iff.mp succeed
  obtain ⟨u', built, appended, done⟩ := bind_eq_ok.mp both
  have within : AllWithin 0 0 (valuesOf bytesCalls) :=
    ⟨⟨by decide, by simp, fun _ => by decide, ⟨by decide, by simp⟩, ⟨by decide, by simp⟩, trivial⟩,
      ⟨by decide, by simp⟩, trivial⟩
  obtain ⟨-, reads⟩ := message_roundTrip appended done plenty_memory within
  obtain ⟨here, replies, atEnd, -⟩ := reads bytesCalls [] (by simp)
  obtain ⟨start, same, -, -, skips⟩ := reads [] bytesCalls rfl
  cases same
  obtain ⟨there, read, bound, skipped, rindex, -, -, skip⟩ :=
    skips (.container .array [BasicType.byte.code] [.basic (.byte 1) 0, .basic (.byte 2) 0]) [.append (.byte 7)] rfl
      (by decide) ⟨fun _ => .inr (.inr (by decide)), trivial, trivial, trivial⟩
  exact ⟨built, m, appended, done, ⟨here, replies, atEnd⟩, there, bound, skipped, read,
    skip bound le_rfl none (.inl rfl), rindex⟩

/-! ## An element that cannot be skipped -/

/-- An empty array of structs in variants. -/
def variantsAround : Nat → Value
  | 0 => .container .variant (cstr "a(y)") [.container .array (cstr "(y)") []]
  | n + 1 => .container .variant [variantCode] [variantsAround n]

theorem variantsAround_within (n : Nat) {pos depth : Nat} (room : n + depth ≤ 126) :
    (variantsAround n).Within pos depth := by
  induction n generalizing pos depth with
  | zero => exact ⟨by omega, by simp [cstr], by simp, ⟨by omega, by simp, by simp [encodeAll], trivial⟩, trivial⟩
  | succ n ih => exact ⟨by omega, by simp, by simp, ih (by omega), trivial⟩

/-- Whether a call fails with an errno. -/
def failsWith {α : Type} (e : Errno) : EStateM.Result Failure Message α → Bool
  | .error (.errno f) _ => f = e
  | _ => false

/-- With 127 variants the array is the last container that may be open.  It is written and read, but
skipping tries to enter an element of it. -/
theorem skip_deep_variants : AllWithin 0 0 [variantsAround 126] ∧
    returns ((runAll .plenty (callsOf [variantsAround 126]) >>= fun _ => messageSeal .plenty 1) (.new true false none))
      (fun _ m => succeeds (readAll .plenty (callsOf [variantsAround 126]) m) &&
        failsWith .ebadmsg (messageSkip .plenty 200 none m)) = true :=
  ⟨⟨variantsAround_within 126 le_rfl, trivial⟩, by decide +kernel⟩

end SystemdPort.Bus
