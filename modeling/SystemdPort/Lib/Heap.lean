/-
# Lib.Heap — binary heaps

An assignment of elements to the positions 0, 1, 2, … is a heap if no element is above
its parent, where the children of `i` are at `2 * i + 1` and `2 * i + 2`.  An order with a
greatest element makes a finite heap one of these, with that element behind its end.

One element put in a wrong place leaves a heap that is `OrderedAround` it.  Moving the
element down keeps that, until the element is not above a child (`OrderedBut`); moving it
up keeps this, until it is not below its parent.
-/
import Mathlib.Logic.Equiv.Basic
import Mathlib.Tactic.Common

namespace SystemdPort.Lib.Heap

set_option autoImplicit false

def parent (i : Nat) : Nat := (i - 1) / 2

theorem parent_lt {i : Nat} (pos : 0 < i) : parent i < i := by
  unfold parent
  omega

theorem parent_eq_iff {c k : Nat} (pos : 0 < c) : parent c = k ↔ c = 2 * k + 1 ∨ c = 2 * k + 2 := by
  unfold parent
  omega

section Order

variable {α : Type} (le : α → α → Prop)

def Ordered (f : Nat → α) : Prop := ∀ i, 0 < i → le (f (parent i)) (f i)

/-- In order but for the element at `k`. -/
structure OrderedAround (f : Nat → α) (k : Nat) : Prop where
  away : ∀ i, 0 < i → i ≠ k → parent i ≠ k → le (f (parent i)) (f i)
  across : 0 < k → ∀ c, 0 < c → parent c = k → le (f (parent k)) (f c)

/-- In order, except that the element at `k` may be below its parent. -/
structure OrderedBut (f : Nat → α) (k : Nat) : Prop extends OrderedAround le f k where
  below : ∀ c, 0 < c → parent c = k → le (f k) (f c)

variable {le} {f g : Nat → α} {k s : Nat}

theorem Ordered.root_le (refl : ∀ a, le a a) (trans : ∀ {a b c}, le a b → le b c → le a c)
    (ordered : Ordered le f) (i : Nat) : le (f 0) (f i) := by
  induction i using Nat.strongRecOn with
  | ind i ih =>
    rcases Nat.eq_zero_or_pos i with rfl | pos
    · exact refl _
    · exact trans (ih (parent i) (parent_lt pos)) (ordered i pos)

/-- Any element may be put at one place of a heap. -/
theorem Ordered.around (trans : ∀ {a b c}, le a b → le b c → le a c) (ordered : Ordered le f)
    (same : ∀ i, i ≠ k → g i = f i) : OrderedAround le g k where
  away := by
    intro i pos here above
    rw [same i here, same _ above]
    exact ordered i pos
  across := by
    intro pos c c_pos child
    have gt := parent_lt c_pos
    have lt := parent_lt pos
    rw [same _ (by omega), same c (by omega)]
    have edge := ordered c c_pos
    rw [child] at edge
    exact trans (ordered k pos) edge

theorem OrderedBut.ordered (but : OrderedBut le f k) (done : 0 < k → le (f (parent k)) (f k)) : Ordered le f := by
  intro i pos
  by_cases here : i = k
  · exact here ▸ done (here ▸ pos)
  by_cases above : parent i = k
  · rw [above]
    exact but.below i pos above
  · exact but.away i pos here above

/-- An element that is below its parent changes places with it. -/
theorem OrderedBut.swap_up (trans : ∀ {a b c}, le a b → le b c → le a c) (but : OrderedBut le f k)
    (pos : 0 < k) (lt : le (f k) (f (parent k))) : OrderedBut le (f ∘ Equiv.swap k (parent k)) (parent k) := by
  have up := parent_lt pos
  have at_parent : (f ∘ Equiv.swap k (parent k)) (parent k) = f k := by simp
  have at_k : (f ∘ Equiv.swap k (parent k)) k = f (parent k) := by simp
  have other {i : Nat} (h : i ≠ k) (h' : i ≠ parent k) : (f ∘ Equiv.swap k (parent k)) i = f i := by
    simp [Equiv.swap_apply_of_ne_of_ne h h']
  -- the other child of the parent
  have sibling {c : Nat} (c_pos : 0 < c) (child : parent c = parent k) (h : c ≠ k) :
      le (f (parent k)) (f c) := by
    have edge := but.away c c_pos h (by omega)
    rwa [child] at edge
  refine ⟨⟨?_, ?_⟩, ?_⟩
  · intro i i_pos here above
    have down := parent_lt i_pos
    by_cases child : parent i = k
    · rw [child, at_k, other (by omega) here]
      exact but.across pos i i_pos child
    · have ne : i ≠ k := by
        rintro rfl
        exact above rfl
      rw [other ne here, other child above]
      exact but.away i i_pos ne child
  · intro parent_pos c c_pos child
    have grand := parent_lt parent_pos
    have edge : le (f (parent (parent k))) (f (parent k)) := but.away (parent k) parent_pos (by omega) (by omega)
    rw [other (by omega) (by omega)]
    by_cases h : c = k
    · rwa [h, at_k]
    · have down := parent_lt c_pos
      rw [other h (by omega)]
      exact trans edge (sibling c_pos child h)
  · intro c c_pos child
    rw [at_parent]
    by_cases h : c = k
    · rwa [h, at_k]
    · have down := parent_lt c_pos
      rw [other h (by omega)]
      exact trans lt (sibling c_pos child h)

/-- An element changes places with the least of its children, if that is below it. -/
theorem OrderedAround.swap_down (around : OrderedAround le f k) (s_pos : 0 < s) (child : parent s = k)
    (least : ∀ c, 0 < c → parent c = k → le (f s) (f c)) : OrderedAround le (f ∘ Equiv.swap k s) s := by
  have down := parent_lt s_pos
  have at_k : (f ∘ Equiv.swap k s) k = f s := by simp
  have other {i : Nat} (h : i ≠ k) (h' : i ≠ s) : (f ∘ Equiv.swap k s) i = f i := by
    simp [Equiv.swap_apply_of_ne_of_ne h h']
  refine ⟨?_, ?_⟩
  · intro i pos here above
    have up := parent_lt pos
    by_cases isK : i = k
    · subst isK
      rw [at_k, other (by omega) (by omega)]
      exact around.across pos s s_pos child
    by_cases belowK : parent i = k
    · rw [belowK, at_k, other isK here]
      exact least i pos belowK
    · rw [other belowK above, other isK here]
      exact around.away i pos isK belowK
  · intro _ c c_pos below
    have up := parent_lt c_pos
    rw [child, at_k, other (by omega) (by omega)]
    have edge := around.away c c_pos (by omega) (by omega)
    rwa [below] at edge

end Order

end SystemdPort.Lib.Heap
