/-
# Lib.LinkedList — lists of objects that point at their neighbours

Doubly linked lists as `LIST_PREPEND()` and `LIST_REMOVE()` keep them: each object has a pointer to the
one before and the one after it, and a list is known by its first object.  Many lists are in one store
of pointers; `Linked` says that the pointers of some objects make them a list, and depends on theirs
only (`Linked.congr`).
-/
import Mathlib.Tactic

namespace SystemdPort.Lib

set_option autoImplicit false

open List

/-- The pointers of all objects. -/
structure Links (ι : Type) where
  prev : ι → Option ι
  next : ι → Option ι

namespace Links

variable {ι : Type} [DecidableEq ι]

def setPrev (i : ι) (p : Option ι) (l : Links ι) : Links ι := { l with prev := Function.update l.prev i p }

def setNext (i : ι) (n : Option ι) (l : Links ι) : Links ι := { l with next := Function.update l.next i n }

/-- `LIST_PREPEND()` to the list that starts with `head` -/
def prepend (head : Option ι) (i : ι) (l : Links ι) : Links ι :=
  let l := l.setNext i head
  let l := match head with
    | some h => l.setPrev h (some i)
    | none => l
  l.setPrev i none

/-- `LIST_REMOVE()`, without the change of the head -/
def remove (i : ι) (l : Links ι) : Links ι :=
  let before := l.prev i
  let after := l.next i
  let l := match after with
    | some n => l.setPrev n before
    | none => l
  let l := match before with
    | some p => l.setNext p after
    | none => l
  (l.setNext i none).setPrev i none

/-- The objects of a list, after the one given. -/
def Linked (l : Links ι) : Option ι → List ι → Prop
  | _, [] => True
  | before, i :: rest => l.prev i = before ∧ l.next i = rest.head? ∧ Linked l (some i) rest

variable {l l' : Links ι} {before : Option ι} {L : List ι} {i : ι}

/-- Two stores that agree on some objects. -/
def AgreeOn (l l' : Links ι) (L : List ι) : Prop := ∀ i ∈ L, l'.prev i = l.prev i ∧ l'.next i = l.next i

omit [DecidableEq ι] in
theorem Linked.congr (linked : l.Linked before L) (agree : l.AgreeOn l' L) : l'.Linked before L := by
  induction L generalizing before with
  | nil => trivial
  | cons i rest ih =>
    obtain ⟨prev, next, linked⟩ := linked
    have here := agree i mem_cons_self
    exact ⟨here.1.trans prev, here.2.trans next, ih linked fun j mem => agree j (mem_cons_of_mem _ mem)⟩

/-- The pointers of other objects than `i` and the head stay. -/
theorem prepend_of_ne {head : Option ι} {j : ι} (apart : j ≠ i) (notHead : head ≠ some j) :
    (l.prepend head i).prev j = l.prev j ∧ (l.prepend head i).next j = l.next j := by
  cases head with
  | none => simp [prepend, setPrev, setNext, apart]
  | some h =>
    have : j ≠ h := by
      rintro rfl
      exact notHead rfl
    simp [prepend, setPrev, setNext, apart, this]

theorem linked_prepend (linked : l.Linked none L) (new : i ∉ L) (nodup : L.Nodup) :
    (l.prepend L.head? i).Linked none (i :: L) := by
  cases L with
  | nil => simp [Linked, prepend, setPrev, setNext]
  | cons h rest =>
    obtain ⟨prev, next, linked⟩ := linked
    have apart : h ≠ i := by
      rintro rfl
      exact new mem_cons_self
    refine ⟨by simp [prepend, setPrev], by simp [prepend, setPrev, setNext], ?_, ?_, ?_⟩
    · simp [prepend, setPrev, apart]
    · simpa [prepend, setPrev, setNext, apart] using next
    · refine linked.congr fun j mem => prepend_of_ne ?_ ?_
      · rintro rfl
        exact new (mem_cons_of_mem _ mem)
      · rintro ⟨⟩
        exact (nodup_cons.mp nodup).1 mem

theorem remove_prev (j : ι) : (l.remove i).prev j =
    if j = i then none else if l.next i = some j then l.prev i else l.prev j := by
  by_cases here : j = i
  · simp [remove, setPrev, here]
  · cases after : l.next i with
    | none => cases before : l.prev i <;> simp [remove, setPrev, setNext, here, after, before]
    | some n =>
      by_cases isNext : j = n
      · subst isNext
        cases before : l.prev i <;> simp [remove, setPrev, setNext, here, after, before]
      · have : n ≠ j := fun same => isNext same.symm
        cases before : l.prev i <;> simp [remove, setPrev, setNext, here, after, before, isNext, this]

theorem remove_next (j : ι) : (l.remove i).next j =
    if j = i then none else if l.prev i = some j then l.next i else l.next j := by
  by_cases here : j = i
  · simp [remove, setPrev, setNext, here]
  · cases before : l.prev i with
    | none => cases after : l.next i <;> simp [remove, setPrev, setNext, here, after, before]
    | some p =>
      by_cases isPrev : j = p
      · subst isPrev
        cases after : l.next i <;> simp [remove, setPrev, setNext, here, after, before]
      · have : p ≠ j := fun same => isPrev same.symm
        cases after : l.next i <;> simp [remove, setPrev, setNext, here, after, before, isPrev, this]

/-- The pointers of objects that are not beside `i` stay. -/
theorem remove_of_ne {j : ι} (apart : j ≠ i) (notNext : l.next i ≠ some j) (notPrev : l.prev i ≠ some j) :
    (l.remove i).prev j = l.prev j ∧ (l.remove i).next j = l.next j := by
  rw [remove_prev, remove_next, if_neg apart, if_neg apart, if_neg notNext, if_neg notPrev]
  exact ⟨rfl, rfl⟩

omit [DecidableEq ι] in
/-- The pointers of an object of a list. -/
theorem Linked.around {A B : List ι} (linked : l.Linked before (A ++ i :: B)) :
    l.prev i = A.getLast?.or before ∧ l.next i = B.head? := by
  induction A generalizing before with
  | nil => exact ⟨linked.1, linked.2.1⟩
  | cons a rest ih =>
    obtain ⟨prev, next⟩ := ih linked.2.2
    refine ⟨?_, next⟩
    rw [prev, getLast?_cons]
    cases rest.getLast? <;> rfl

theorem linked_remove {A B : List ι} (linked : l.Linked before (A ++ i :: B)) (nodup : (A ++ i :: B).Nodup)
    (outside : ∀ x, before = some x → x ∉ A ++ i :: B) : (l.remove i).Linked before (A ++ B) := by
  obtain ⟨prevI, nextI⟩ := linked.around
  induction A generalizing before with
  | nil =>
    obtain ⟨prev, next, linked⟩ := linked
    cases B with
    | nil => trivial
    | cons n rest =>
      have apartI : n ≠ i := by
        rintro rfl
        simp at nodup
      have apartBefore : l.prev i ≠ some n := by
        rw [prev]
        rintro rfl
        exact outside n rfl (by simp)
      refine ⟨?_, ?_, ?_⟩
      · rw [remove_prev, if_neg apartI, if_pos (show l.next i = some n from nextI), prev]
      · rw [remove_next, if_neg apartI, if_neg apartBefore]
        exact linked.2.1
      · refine linked.2.2.congr fun j mem => remove_of_ne ?_ ?_ ?_
        · rintro rfl
          simp [mem] at nodup
        · rw [nextI]
          rintro ⟨⟩
          simp [mem] at nodup
        · rw [prev]
          rintro rfl
          exact outside j rfl (by simp [mem])
  | cons a rest ih =>
    obtain ⟨prev, next, linked⟩ := linked
    have fresh := nodup_cons.mp nodup
    have apartI : a ≠ i := by
      rintro rfl
      exact fresh.1 (by simp)
    have apartNext : l.next i ≠ some a := by
      rw [nextI]
      intro same
      exact fresh.1 (by simp [mem_of_mem_head? same])
    refine ⟨?_, ?_, ?_⟩
    · rw [remove_prev, if_neg apartI, if_neg apartNext, prev]
    · rw [remove_next, if_neg apartI]
      cases rest with
      | nil =>
        have : l.prev i = some a := linked.1
        rw [if_pos this, nextI]
        rfl
      | cons b rest =>
        have : l.prev i ≠ some a := by
          rw [linked.around.1]
          intro same
          have isLast : (b :: rest).getLast? = some a := by
            exact same
          exact fresh.1 (mem_append_left _ (mem_of_getLast? isLast))
        rw [if_neg this, next]
        rfl
    · refine ih linked fresh.2 ?_ linked.around.1
      rintro x ⟨⟩
      exact fresh.1

end Links

end SystemdPort.Lib
