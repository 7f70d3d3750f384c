/-
# Bus.Building — a message half done

The calls that build a message walk over a forest of values.  A `Building` is a place in
that walk: the containers that are open, each with the values before it, and the values
in the last one so far.  `step` is what a successful call does to it, and `calls` gives
back the calls that lead there.

`tail_append` and `tail_close` say how the bytes of a building change: a value goes to the
end, and a container that is closed becomes a value of the one around it.
-/
import SystemdPort.Bus.Value

namespace SystemdPort.Bus

open Basic Lib List

set_option autoImplicit false

inductive Call where
  | append (v : BasicValue)
  | openContainer (type : ContainerType) (contents : CString)
  | closeContainer
  deriving DecidableEq

/-! ## The calls for a value -/

mutual

def Value.calls : Value → List Call
  | .basic v _ => [.append v]
  | .container type contents elems => .openContainer type contents :: (callsOf elems ++ [.closeContainer])

def callsOf : List Value → List Call
  | [] => []
  | v :: vs => v.calls ++ callsOf vs

end

@[simp] theorem callsOf_append (vs ws : List Value) : callsOf (vs ++ ws) = callsOf vs ++ callsOf ws := by
  induction vs with
  | nil => simp [callsOf]
  | cons v vs ih => simp [callsOf, ih]

theorem Value.calls_head (v : Value) : ∃ call rest, v.calls = call :: rest ∧ call ≠ .closeContainer := by
  cases v with
  | basic v n => exact ⟨_, _, by rw [Value.calls], by simp⟩
  | container type contents elems => exact ⟨_, _, by rw [Value.calls], by simp⟩

mutual

/-- Where one value ends can be told from the calls. -/
theorem Value.calls_append_inj {v w : Value} {x y : List Call} (same : v.calls ++ x = w.calls ++ y) :
    v.calls = w.calls ∧ x = y := by
  cases v with
  | basic v n =>
    cases w with
    | basic w k => simpa [Value.calls] using same
    | container type contents elems => simp [Value.calls] at same
  | container type contents elems =>
    cases w with
    | basic w k => simp [Value.calls] at same
    | container type' contents' elems' =>
      simp only [Value.calls, cons_append, append_assoc, List.cons.injEq] at same
      obtain ⟨⟨rfl, rfl⟩, inside⟩ := same
      obtain ⟨elemsEq, rest⟩ := callsOf_append_inj elems inside
      exact ⟨by rw [Value.calls, Value.calls, elemsEq], rest⟩

theorem callsOf_append_inj (vs : List Value) {ws : List Value} {x y : List Call}
    (same : callsOf vs ++ .closeContainer :: x = callsOf ws ++ .closeContainer :: y) :
    callsOf vs = callsOf ws ∧ x = y := by
  cases vs with
  | nil =>
    cases ws with
    | nil => simpa using same
    | cons w ws =>
      obtain ⟨call, rest, first, opens⟩ := w.calls_head
      simp only [callsOf, first, nil_append, cons_append, List.cons.injEq] at same
      exact absurd same.1.symm opens
  | cons v vs =>
    cases ws with
    | nil =>
      obtain ⟨call, rest, first, opens⟩ := v.calls_head
      simp only [callsOf, first, nil_append, cons_append, List.cons.injEq] at same
      exact absurd same.1 opens
    | cons w ws =>
      simp only [callsOf, append_assoc] at same
      obtain ⟨first, others⟩ := Value.calls_append_inj same
      obtain ⟨rest, outside⟩ := callsOf_append_inj vs others
      exact ⟨by rw [callsOf, callsOf, first, rest], outside⟩

end

/-! ## Open containers -/

/-- An open container, with the values before it in the one around it. -/
structure Frame where
  before : List Value
  type : ContainerType
  contents : CString

structure Building where
  /-- The open containers, the last one first. -/
  frames : List Frame := []
  /-- The values in the last open container. -/
  done : List Value := []
  nFds : Nat := 0

namespace Building

/-- What a call that succeeds makes of it. -/
def step (b : Building) : Call → Building
  | .append v =>
    { b with
      done := b.done ++ [.basic v b.nFds]
      nFds := b.nFds + if v.type = .unixFd then 1 else 0 }
  | .openContainer type contents => { b with frames := ⟨b.done, type, contents⟩ :: b.frames, done := [] }
  | .closeContainer =>
    match b.frames with
    | [] => b
    | f :: fs => { b with frames := fs, done := f.before ++ [.container f.type f.contents b.done] }

end Building

def framesCalls : List Frame → List Call
  | [] => []
  | f :: fs => framesCalls fs ++ callsOf f.before ++ [.openContainer f.type f.contents]

def Building.calls (b : Building) : List Call := framesCalls b.frames ++ callsOf b.done

theorem Building.calls_step {b : Building} {call : Call} (fits : call = .closeContainer → b.frames ≠ []) :
    (b.step call).calls = b.calls ++ [call] := by
  cases call with
  | append v => simp [Building.step, Building.calls, callsOf, Value.calls]
  | openContainer type contents => simp [Building.step, Building.calls, framesCalls, callsOf]
  | closeContainer =>
    obtain ⟨frames, done, nFds⟩ := b
    cases frames with
    | nil => exact absurd rfl (fits rfl)
    | cons f fs => simp [Building.step, Building.calls, framesCalls, callsOf, Value.calls]

/-! ## The bytes so far -/

/-- Where the values of the last open container begin. -/
def start : List Frame → Nat
  | [] => 0
  | f :: fs =>
    let pos := start fs + (encodeAll (start fs) f.before).length
    pos + (f.type.opening f.contents pos).length

def segments : List Frame → List (List UInt8 × Opening)
  | [] => []
  | f :: fs =>
    let before := encodeAll (start fs) f.before
    segments fs ++ [(before, f.type.opening f.contents (start fs + before.length))]

theorem length_render_segments (frames : List Frame) (tail : List UInt8) :
    (render (segments frames) tail).length = start frames + tail.length := by
  induction frames generalizing tail with
  | nil => simp [segments, render, start]
  | cons f fs ih =>
    rw [segments, render_snoc, ih, start]
    simp only [length_append, Opening.length_bytes]
    omega

namespace Building

def tail (b : Building) : List UInt8 := encodeAll (start b.frames) b.done

def body (b : Building) : List UInt8 := render (segments b.frames) b.tail

theorem length_body (b : Building) : b.body.length = start b.frames + b.tail.length :=
  length_render_segments b.frames b.tail

theorem tail_append (b : Building) (v : BasicValue) :
    (b.step (.append v)).tail = b.tail ++ (pad b.body.length v.type.alignment ++ v.payload b.nFds) := by
  have encoded : (Value.basic v b.nFds).encode b.body.length =
      pad b.body.length v.type.alignment ++ v.payload b.nFds := by
    rw [Value.encode]
  rw [← encoded, length_body]
  simp [tail, step, encodeAll_append, encodeAll_singleton]

theorem segments_open (b : Building) (type : ContainerType) (contents : CString) :
    segments (b.step (.openContainer type contents)).frames =
      segments b.frames ++ [(b.tail, type.opening contents b.body.length)] := by
  simp only [length_body]
  rfl

theorem tail_close (f : Frame) (fs : List Frame) (done : List Value) (nFds : Nat) :
    (step ⟨f :: fs, done, nFds⟩ .closeContainer).tail = encodeAll (start fs) f.before ++
      (f.type.opening f.contents (start fs + (encodeAll (start fs) f.before).length)).bytes
        (tail ⟨f :: fs, done, nFds⟩).length ++ tail ⟨f :: fs, done, nFds⟩ := by
  simp only [step, tail]
  rw [encodeAll_append, encodeAll_singleton, encode_container, start, append_assoc]

end Building

/-! ## Values that may stand where they are -/

/-- Whether the signatures of the elements make up the contents. -/
def ContainerType.suits (type : ContainerType) (contents : CString) (sigs : List CString) : Prop :=
  if type = .array then ∀ s ∈ sigs, s = contents else sigs.flatten = contents

mutual

/-- A value that can be in a container of the given type, or with none in the message. -/
def Value.Sound (enclosing : Option ContainerType) : Value → Prop
  | .basic v _ => v.valid = true
  | .container type contents elems =>
    type.accepts contents = true ∧ (type = .dictEntry → enclosing = some .array) ∧
      type.suits contents (elems.map Value.signature) ∧ AllSound (some type) elems

def AllSound (enclosing : Option ContainerType) : List Value → Prop
  | [] => True
  | v :: vs => v.Sound enclosing ∧ AllSound enclosing vs

end

theorem allSound_append {enclosing : Option ContainerType} {vs ws : List Value} :
    AllSound enclosing (vs ++ ws) ↔ AllSound enclosing vs ∧ AllSound enclosing ws := by
  induction vs with
  | nil => simp [AllSound]
  | cons v vs ih => simp [AllSound, ih, and_assoc]

/-- The type of the last open container. -/
def enclosing (frames : List Frame) : Option ContainerType := frames.head?.map Frame.type

/-- The values before each open container can be where they are, and so can it. -/
def FramesSound : List Frame → Prop
  | [] => True
  | f :: fs =>
    AllSound (enclosing fs) f.before ∧ f.type.accepts f.contents = true ∧
      (f.type = .dictEntry → enclosing fs = some .array) ∧ FramesSound fs

end SystemdPort.Bus
