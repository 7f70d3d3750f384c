/-
# Lib.Cells — some cells of a buffer

What a proof knows of a buffer that is being filled: the contents of some of its cells.  Cells
that will be written again are left out, so that what is known stays true.  Knowledge only grows,
and it grows behind what is already in use.
-/
import Mathlib.Data.List.Basic

namespace SystemdPort.Lib

set_option autoImplicit false

open List

/-- The cells whose contents are known. -/
def Cells (α : Type) : Type := Nat → Option α

namespace Cells

variable {α : Type} {m m' m'' : Cells α} {l d e : List α} {n o : Nat} {a : α}

def empty : Cells α := fun _ => none

/-- `d` is in the buffer at `o`. -/
def HasAt (m : Cells α) (o : Nat) (d : List α) : Prop := ∀ (i : Nat) (a : α), d[i]? = some a → m (o + i) = some a

/-- The buffer `l` has the known contents. -/
def Shows (m : Cells α) (l : List α) : Prop := ∀ (i : Nat) (a : α), m i = some a → l[i]? = some a

/-- What is known at one time is known later. -/
def Le (m m' : Cells α) : Prop := ∀ (i : Nat) (a : α), m i = some a → m' i = some a

/-- From one time to another, only cells from `n` on got known. -/
def Agree (n : Nat) (m m' : Cells α) : Prop := ∀ i : Nat, i < n → m' i = m i

/-- The contents of the cells from `o` on become known. -/
def put (m : Cells α) (o : Nat) (d : List α) : Cells α := fun i =>
  if o ≤ i ∧ i < o + d.length then d[i - o]? else m i

theorem HasAt.nil : HasAt m o [] := by
  intro i a cell
  cases cell

theorem hasAt_cons : HasAt m o (a :: d) ↔ m o = some a ∧ HasAt m (o + 1) d := by
  constructor
  · intro has
    refine ⟨has 0 a rfl, ?_⟩
    intro i b cell
    have := has (i + 1) b cell
    rwa [show o + (i + 1) = o + 1 + i by omega] at this
  · rintro ⟨first, rest⟩ i b cell
    cases i with
    | zero =>
      cases cell
      exact first
    | succ i =>
      have := rest i b cell
      rwa [show o + 1 + i = o + (i + 1) by omega] at this

theorem hasAt_append : HasAt m o (d ++ e) ↔ HasAt m o d ∧ HasAt m (o + d.length) e := by
  induction d generalizing o with
  | nil => simp [HasAt.nil]
  | cons a d ih =>
    rw [cons_append, hasAt_cons, hasAt_cons, ih, length_cons, and_assoc,
      show o + 1 + d.length = o + (d.length + 1) by omega]

theorem HasAt.mono (has : HasAt m o d) (le : Le m m') : HasAt m' o d :=
  fun i a cell => le _ a (has i a cell)

/-- What is known to be in a buffer can be read there. -/
theorem HasAt.read (has : HasAt m o d) (shows : Shows m l) : (l.drop o).take d.length = d := by
  induction d generalizing o with
  | nil => rfl
  | cons a d ih =>
    obtain ⟨first, rest⟩ := hasAt_cons.mp has
    have cell := shows o a first
    obtain ⟨inside, rfl⟩ := List.getElem?_eq_some_iff.mp cell
    rw [drop_eq_getElem_cons inside, length_cons, take_succ_cons, ih rest]

theorem HasAt.inside (has : HasAt m o d) (shows : Shows m l) (nonempty : d ≠ []) : o + d.length ≤ l.length := by
  have last : d[d.length - 1]? = some (d.getLast nonempty) := by
    rw [← getLast?_eq_getElem?, getLast?_eq_some_getLast nonempty]
  have cell := shows _ _ (has _ _ last)
  have inside := (List.getElem?_eq_some_iff.mp cell).1
  omega

theorem Le.refl (m : Cells α) : Le m m := fun _ _ cell => cell

theorem Le.trans (first : Le m m') (second : Le m' m'') : Le m m'' :=
  fun i a cell => second i a (first i a cell)

theorem Agree.refl (n : Nat) (m : Cells α) : Agree n m m := fun _ _ => rfl

theorem Agree.trans {n' : Nat} (first : Agree n m m') (second : Agree n' m' m'') (later : n ≤ n') : Agree n m m'' :=
  fun i before => (second i (by omega)).trans (first i before)

/-- What is known of a buffer of length `n` does not change behind it. -/
theorem Agree.le (agree : Agree n m m') (shows : Shows m l) (short : l.length ≤ n) : Le m m' := by
  intro i a cell
  have inside := (List.getElem?_eq_some_iff.mp (shows i a cell)).1
  rw [agree i (by omega), cell]

theorem put_agree (m : Cells α) (o : Nat) (d : List α) : Agree o m (m.put o d) := by
  intro i before
  unfold Cells.put
  rw [if_neg (by omega)]

theorem put_hasAt (m : Cells α) (o : Nat) (d : List α) : HasAt (m.put o d) o d := by
  intro i a cell
  have inside := (List.getElem?_eq_some_iff.mp cell).1
  unfold Cells.put
  rw [if_pos (by omega), show o + i - o = i by omega, cell]

/-- A buffer that is extended by what becomes known. -/
theorem Shows.put (shows : Shows m l) (at_ : o = l.length) : Shows (m.put o d) (l ++ d) := by
  subst at_
  intro i a cell
  unfold Cells.put at cell
  split at cell
  · rwa [getElem?_append_right (by omega)]
  · have inside := (List.getElem?_eq_some_iff.mp (shows i a cell)).1
    rw [getElem?_append_left inside]
    exact shows i a cell

theorem Shows.append (shows : Shows m l) (d : List α) : Shows m (l ++ d) := by
  intro i a cell
  have inside := (List.getElem?_eq_some_iff.mp (shows i a cell)).1
  rw [getElem?_append_left inside]
  exact shows i a cell

end Cells

end SystemdPort.Lib
