/-
# Bus.Value — trees of values and their bytes

What a message is meant to hold: a forest of values, each a basic value or a container
with its contents.  `encode` gives the bytes of a value at a position of the body, which
matters because everything is aligned.  A container starts with an `Opening`: padding, for
an array its size, and more padding up to the first element.

While a message is being built some containers are open and the size of an open array is
that of what it has so far.  `render` is the body in such a state, and `render_append`
says how it changes when bytes are added at its end: each open array counts them.
-/
import SystemdPort.Bus.Message

namespace SystemdPort.Bus

open Basic Lib List

set_option autoImplicit false

/-- A value; a basic one comes with the number of file descriptors the message had. -/
inductive Value where
  | basic (v : BasicValue) (nFds : Nat)
  | container (type : ContainerType) (contents : CString) (elems : List Value)

def Value.signature : Value → CString
  | basic v _ => [v.type.code]
  | container type contents _ => type.signature contents

def signatures (vs : List Value) : CString := (vs.map Value.signature).flatten

/-! ## Bytes -/

theorem BasicValue.payload_ne_nil (v : BasicValue) (n : Nat) : v.payload n ≠ [] := by
  rw [← length_pos_iff]
  cases v <;> simp [BasicValue.payload]

/-- The padding from a position to the next one that is aligned. -/
def pad (pos align : Nat) : List UInt8 := List.replicate (alignTo pos align - pos) 0

/-- What stands before the elements of a container. -/
structure Opening where
  pre : List UInt8
  sized : Bool
  mid : List UInt8

namespace Opening

def bytes (o : Opening) (size : Nat) : List UInt8 :=
  o.pre ++ (if o.sized then toLittleEndian 4 size else []) ++ o.mid

def length (o : Opening) : Nat := o.pre.length + (if o.sized then 4 else 0) + o.mid.length

@[simp] theorem length_bytes (o : Opening) (size : Nat) : (o.bytes size).length = o.length := by
  unfold bytes length
  split <;> simp [Nat.add_assoc]

end Opening

/-- The alignment of the elements of an array. -/
def elementAlignment (contents : CString) : Nat := (contents.head?.bind busTypeGetAlignment).getD 1

def ContainerType.opening (contents : CString) (pos : Nat) : ContainerType → Opening
  | array => ⟨pad pos 4, true, pad (alignTo pos 4 + 4) (elementAlignment contents)⟩
  | variant => ⟨toLittleEndian 1 contents.length ++ contents ++ [0], false, []⟩
  | struct | dictEntry => ⟨pad pos 8, false, []⟩

mutual

def Value.encode (pos : Nat) : Value → List UInt8
  | .basic v nFds => pad pos v.type.alignment ++ v.payload nFds
  | .container type contents elems =>
    let o := type.opening contents pos
    let data := encodeAll (pos + o.length) elems
    o.bytes data.length ++ data

def encodeAll (pos : Nat) : List Value → List UInt8
  | [] => []
  | v :: vs =>
    let first := v.encode pos
    first ++ encodeAll (pos + first.length) vs

end

variable (segs : List (List UInt8 × Opening)) (tail : List UInt8) (pos : Nat)

theorem encodeAll_append (vs ws : List Value) :
    encodeAll pos (vs ++ ws) = encodeAll pos vs ++ encodeAll (pos + (encodeAll pos vs).length) ws := by
  induction vs generalizing pos with
  | nil => simp [encodeAll]
  | cons v vs ih => simp [encodeAll, ih, Nat.add_assoc]

theorem encodeAll_singleton (v : Value) : encodeAll pos [v] = v.encode pos := by
  simp [encodeAll]

theorem encode_container (type : ContainerType) (contents : CString) (elems : List Value) :
    (Value.container type contents elems).encode pos = (type.opening contents pos).bytes
        (encodeAll (pos + (type.opening contents pos).length) elems).length ++
        encodeAll (pos + (type.opening contents pos).length) elems := by
  rw [Value.encode]

/-! ## A body with open containers -/

/-- The open containers from the outermost on, each with the bytes before it in the one
around it; then the bytes in the last one. -/
def render : List (List UInt8 × Opening) → List UInt8 → List UInt8
  | [], tail => tail
  | (before, o) :: segs, tail =>
    let inside := render segs tail
    before ++ o.bytes inside.length ++ inside

theorem render_snoc (before tail : List UInt8) (o : Opening) :
    render (segs ++ [(before, o)]) tail = render segs (before ++ o.bytes tail.length ++ tail) := by
  induction segs with
  | nil => rfl
  | cons seg segs ih => simp [render, ih]

theorem length_render_append (x : List UInt8) :
    (render segs (tail ++ x)).length = (render segs tail).length + x.length := by
  induction segs with
  | nil => simp [render]
  | cons seg segs ih =>
    simp only [render, length_append, Opening.length_bytes]
    omega

/-- Where the sizes of the open arrays stand. -/
def holes : List (List UInt8 × Opening) → Nat → List (Option Nat)
  | [], _ => []
  | (before, o) :: segs, start =>
    (if o.sized then some (start + before.length + o.pre.length) else none) ::
      holes segs (start + before.length + o.length)

theorem holes_snoc (o : Opening) (start : Nat) : holes (segs ++ [(tail, o)]) start = holes segs start ++
      [if o.sized then some (start + (render segs tail).length + o.pre.length) else none] := by
  induction segs generalizing start with
  | nil => simp [holes, render]
  | cons seg segs ih =>
    simp [holes, ih, render, Nat.add_assoc]

/-- Every size is inside the body. -/
theorem holes_inside {segs : List (List UInt8 × Opening)} (tail : List UInt8) {start off : Nat}
    (member : some off ∈ holes segs start) : start ≤ off ∧ off + 4 ≤ start + (render segs tail).length := by
  induction segs generalizing start with
  | nil => simp [holes] at member
  | cons seg segs ih =>
    obtain ⟨before, o⟩ := seg
    simp only [render, length_append, Opening.length_bytes]
    rcases mem_cons.mp member with first | later
    · by_cases sized : o.sized = true
      · simp only [sized, if_true, Option.some.injEq] at first
        simp only [Opening.length, sized, if_true]
        omega
      · simp [sized] at first
    · have := ih later
      omega

/-- Adds to a size that stands at an offset. -/
def bump (n : Nat) (bytes : List UInt8) (off : Option Nat) : List UInt8 :=
  match off with
  | none => bytes
  | some off =>
    overwrite 0 bytes off (toLittleEndian 4 (ofLittleEndian ((bytes.drop off).take 4) + n))

theorem toLittleEndian_mod (n x : Nat) : toLittleEndian n (x % 256 ^ n) = toLittleEndian n x := by
  induction n generalizing x with
  | zero => rfl
  | succ n ih =>
    have low : x % 256 ^ (n + 1) % 256 = x % 256 := by
      rw [pow_succ, Nat.mod_mul_left_mod]
    have high : x % 256 ^ (n + 1) / 256 = x / 256 % 256 ^ n := by
      rw [pow_succ, mul_comm, Nat.mod_mul_right_div_self]
    rw [toLittleEndian, toLittleEndian, low, high, ih]

theorem bump_at (a : List UInt8) (size n : Nat) (c : List UInt8) :
    bump n (a ++ toLittleEndian 4 size ++ c) (some a.length) = a ++ toLittleEndian 4 (size + n) ++ c := by
  have read : ((a ++ toLittleEndian 4 size ++ c).drop a.length).take 4 = toLittleEndian 4 size := by
    rw [append_assoc, drop_left, take_left' (length_toLittleEndian 4 size)]
  have sum : toLittleEndian 4 (size % 256 ^ 4 + n) = toLittleEndian 4 (size + n) := by
    rw [← toLittleEndian_mod, Nat.mod_add_mod, toLittleEndian_mod]
  rw [bump, read, ofLittleEndian_toLittleEndian, sum, overwrite_append]
  simp

/-- The body with a number added to every size. -/
def counted (n : Nat) : List (List UInt8 × Opening) → List UInt8 → List UInt8
  | [], tail => tail
  | (before, o) :: segs, tail => before ++ o.bytes ((render segs tail).length + n) ++ counted n segs tail

@[simp] theorem length_counted (n : Nat) : (counted n segs tail).length = (render segs tail).length := by
  induction segs with
  | nil => rfl
  | cons seg segs ih => simp [counted, render, ih]

/-- When bytes are added at the end, every size counts them. -/
theorem render_append (x : List UInt8) : render segs (tail ++ x) = counted x.length segs tail ++ x := by
  induction segs with
  | nil => rfl
  | cons seg segs ih => simp [render, counted, ih]

theorem bumpAll_render (n : Nat) (front : List UInt8) (segs : List (List UInt8 × Opening)) (tail x : List UInt8) :
    (holes segs front.length).foldl (bump n) (front ++ render segs tail ++ x) =
      front ++ counted n segs tail ++ x := by
  induction segs generalizing front with
  | nil => simp [holes, render, counted]
  | cons seg segs ih =>
    obtain ⟨before, o⟩ := seg
    simp only [holes, render, counted, foldl_cons]
    -- the first size is counted up, and then belongs to what is in front of the others
    have first : bump n (front ++ (before ++ o.bytes (render segs tail).length ++ render segs tail) ++ x)
        (if o.sized then some (front.length + before.length + o.pre.length) else none) =
        (front ++ before ++ o.bytes ((render segs tail).length + n)) ++ render segs tail ++ x := by
      by_cases sized : o.sized = true
      · have := bump_at (front ++ before ++ o.pre) (render segs tail).length n (o.mid ++ render segs tail ++ x)
        simpa [sized, Opening.bytes, Nat.add_assoc] using this
      · simp [sized, Opening.bytes, bump]
    have start : front.length + before.length + o.length =
        (front ++ before ++ o.bytes ((render segs tail).length + n)).length := by
      simp [Nat.add_assoc]
    rw [first, start, ih]
    simp

end SystemdPort.Bus
