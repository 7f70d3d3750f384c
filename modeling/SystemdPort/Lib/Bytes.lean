/-
# Lib.Bytes — writing at a position of a sequence

`overwrite zero data pos new` is a file after `new` was written at `pos`: what lies
under the new part is replaced, and a gap behind the old end is filled with `zero`.

The second part is numbers in little-endian order.
-/
import Mathlib.Tactic

namespace SystemdPort.Lib

set_option autoImplicit false

open List

variable {α : Type}

def overwrite (zero : α) (data : List α) (pos : Nat) (new : List α) : List α :=
  if new.isEmpty then data
  else data.take pos ++ List.replicate (pos - data.length) zero ++ new ++ data.drop (pos + new.length)

variable {new data : List α} {pos : Nat} (n : Nat) (zero : α) (x : Nat) (bytes : List UInt8)

@[simp] theorem overwrite_nil (data : List α) (pos : Nat) : overwrite zero data pos [] = data :=
  rfl

theorem overwrite_append (a new b c : List α) (same : new.length = b.length) :
    overwrite zero (a ++ b ++ c) a.length new = a ++ new ++ c := by
  rcases new with _ | ⟨x, new⟩
  · obtain rfl : b = [] := length_eq_zero_iff.mp same.symm
    simp
  · have inside : a.length - (a ++ b ++ c).length = 0 := by
      simp only [length_append]
      omega
    have behind : (a ++ b ++ c).drop (a.length + (x :: new).length) = c := by
      rw [same, ← length_append, drop_left]
    have before : (a ++ b ++ c).take a.length = a := by simp
    rw [overwrite, behind]
    simp

theorem length_overwrite (fits : pos + new.length ≤ data.length) :
    (overwrite zero data pos new).length = data.length := by
  unfold overwrite
  split
  · rfl
  · simp
    omega

/-- A sequence cut where a part of it is overwritten. -/
theorem exists_parts {n : Nat} (inside : pos + n ≤ data.length) :
    ∃ a b c, data = a ++ b ++ c ∧ a.length = pos ∧ b.length = n := by
  refine ⟨data.take pos, (data.drop pos).take n, data.drop (pos + n), ?_, ?_, ?_⟩
  · rw [append_assoc, ← drop_drop, take_append_drop, take_append_drop]
  · simp
    omega
  · simp
    omega

/-! ## Little-endian numbers -/

def ofLittleEndian (bytes : List UInt8) : Nat := bytes.foldr (fun b n => b.toNat + 256 * n) 0

def toLittleEndian : Nat → Nat → List UInt8
  | 0, _ => []
  | n + 1, x => (x % 256).toUInt8 :: toLittleEndian n (x / 256)

@[simp] theorem length_toLittleEndian : (toLittleEndian n x).length = n := by
  induction n generalizing x with
  | zero => rfl
  | succ n ih => simp [toLittleEndian, ih]

theorem ofLittleEndian_cons (b : UInt8) (bytes : List UInt8) :
    ofLittleEndian (b :: bytes) = b.toNat + 256 * ofLittleEndian bytes := rfl

theorem ofLittleEndian_toLittleEndian : ofLittleEndian (toLittleEndian n x) = x % 256 ^ n := by
  induction n generalizing x with
  | zero => simp [toLittleEndian, ofLittleEndian, Nat.mod_one]
  | succ n ih =>
    have digit : ((x % 256).toUInt8).toNat = x % 256 := by
      simp
    rw [toLittleEndian, ofLittleEndian_cons, ih, digit, pow_succ, mul_comm (256 ^ n), Nat.mod_mul]

theorem ofLittleEndian_lt : ofLittleEndian bytes < 256 ^ bytes.length := by
  induction bytes with
  | nil => simp [ofLittleEndian]
  | cons b bytes ih =>
    have := b.toNat_lt
    rw [ofLittleEndian_cons, length_cons]
    omega

theorem ofLittleEndian_inj : ∀ {a b : List UInt8}, a.length = b.length → ofLittleEndian a = ofLittleEndian b → a = b
  | [], [], _, _ => rfl
  | x :: a, y :: b, length, same => by
    have := x.toNat_lt
    have := y.toNat_lt
    rw [ofLittleEndian_cons, ofLittleEndian_cons] at same
    rw [UInt8.toNat.inj (show x.toNat = y.toNat by omega), ofLittleEndian_inj (Nat.succ.inj length) (by omega)]

/-! ## What stands where -/

/-- `x` stands in `bytes` from `pos` on. -/
def At {α : Type} (bytes : List α) (pos : Nat) (x : List α) : Prop :=
  ∃ front rest, front.length = pos ∧ bytes = front ++ (x ++ rest)

namespace At

variable {α : Type} {bytes x y : List α} {pos : Nat}

theorem bound (there : At bytes pos x) : pos + x.length ≤ bytes.length := by
  obtain ⟨front, rest, rfl, rfl⟩ := there
  simp

theorem read (there : At bytes pos x) : (bytes.drop pos).take x.length = x := by
  obtain ⟨front, rest, rfl, rfl⟩ := there
  simp

theorem left (there : At bytes pos (x ++ y)) : At bytes pos x := by
  obtain ⟨front, rest, length, rfl⟩ := there
  exact ⟨front, y ++ rest, length, by simp⟩

theorem right (there : At bytes pos (x ++ y)) : At bytes (pos + x.length) y := by
  obtain ⟨front, rest, length, rfl⟩ := there
  exact ⟨front ++ x, rest, by simp [length], by simp⟩

theorem whole (bytes : List α) : At bytes 0 bytes := ⟨[], [], rfl, by simp⟩

end At

end SystemdPort.Lib
