/-
# Lib.HashSet — an ordered hash set, with a hash that need not suit the comparison

The elements are kept in the order they were put in, each with the bucket it was placed in.  A
search compares only with the elements of one bucket, the one that what is hashed of the wanted
element leads to, so that it can miss an equal element elsewhere.

* `Placed` — every element lies in the bucket that its hash leads to.
* `find_eq_none` — in such a set nothing equal is missed, as long as equal elements hash alike.
* `Placed.replace` — an element may be replaced in place by one that hashes alike.
-/
import Mathlib.Tactic

namespace SystemdPort.Lib

set_option autoImplicit false

open List

/-- How a set chooses buckets. -/
structure Hashing where
  /-- The bucket for the bytes that are hashed, after so many changes of the table. -/
  bucket : Nat → List UInt8 → Nat
  /-- Whether the table changes once more before an element is put beside so many others. -/
  resizes : Nat → Nat → Bool

structure HashSet (α : Type) where
  hashing : Hashing
  /-- How often the table has changed. -/
  resized : Nat := 0
  entries : List (Nat × α) := []

namespace HashSet

variable {α : Type} (feed : α → List UInt8) (same : α → α → Bool) (s : HashSet α)

def items : List α := s.entries.map (·.2)

def bucketOf (x : α) : Nat := s.hashing.bucket s.resized (feed x)

/-- An element of the bucket of `x` that is the same as `x`, with its place. -/
def find (x : α) : Option (Nat × α) := do
  let i ← s.entries.findIdx? fun e => e.1 = s.bucketOf feed x ∧ same e.2 x
  let e ← s.entries[i]?
  return (i, e.2)

/-- The table changes if it has to; all elements are then placed anew. -/
def resize : HashSet α :=
  if s.hashing.resizes s.resized s.entries.length then
    { s with
      resized := s.resized + 1
      entries := s.entries.map fun e => (s.hashing.bucket (s.resized + 1) (feed e.2), e.2) }
  else s

/-- Put a new element behind the others. -/
def insert (x : α) : HashSet α :=
  { s.resize feed with entries := (s.resize feed).entries ++ [((s.resize feed).bucketOf feed x, x)] }

/-- Change the element at `i` where it lies. -/
def replace (i : Nat) (x : α) : HashSet α := { s with entries := s.entries.modify i fun e => (e.1, x) }

def removeAt (i : Nat) : HashSet α := { s with entries := s.entries.eraseIdx i }

/-- Every element lies where its hash leads to. -/
def Placed : Prop := ∀ e ∈ s.entries, e.1 = s.bucketOf feed e.2

variable {feed same s} {x y : α} {i : Nat}

@[simp] theorem items_resize : (s.resize feed).items = s.items := by
  unfold resize items
  split <;> simp

@[simp] theorem items_insert : (s.insert feed x).items = s.items ++ [x] := by
  have kept : (s.resize feed).items = s.items := items_resize
  unfold items at kept
  simp [insert, items, kept]

@[simp] theorem items_replace : (s.replace i x).items = s.items.set i x := by
  apply ext_getElem?
  intro j
  simp only [items, replace, getElem?_map, getElem?_modify]
  by_cases here : i = j
  · subst here
    cases found : s.entries[i]? with
    | none => simpa using found
    | some e => simp [(List.getElem?_eq_some_iff.mp found).1]
  · simp [here]

@[simp] theorem items_removeAt : (s.removeAt i).items = s.items.eraseIdx i := by
  simp [removeAt, items, eraseIdx_map]

theorem Placed.resize (placed : s.Placed feed) : (s.resize feed).Placed feed := by
  unfold HashSet.resize
  split
  · intro e mem
    obtain ⟨old, _, rfl⟩ := mem_map.mp mem
    rfl
  · exact placed

theorem Placed.insert (placed : s.Placed feed) : (s.insert feed x).Placed feed := by
  intro e mem
  rcases mem_append.mp mem with mem | mem
  · exact placed.resize e mem
  · obtain rfl := mem_singleton.mp mem
    rfl

theorem Placed.removeAt (placed : s.Placed feed) : (s.removeAt i).Placed feed :=
  fun e mem => placed e (mem_of_mem_eraseIdx mem)

theorem Placed.replace (placed : s.Placed feed) (there : s.items[i]? = some y) (alike : feed x = feed y) :
    (s.replace i x).Placed feed := by
  intro e mem
  obtain ⟨j, at_⟩ := mem_iff_getElem?.mp mem
  have at_ : (s.entries.modify i fun e => (e.1, x))[j]? = some e := at_
  rw [getElem?_modify] at at_
  split at at_
  · rename_i here
    subst here
    obtain ⟨old, found, rfl⟩ := Option.map_eq_some_iff.mp at_
    have value : old.2 = y := by
      rw [items, getElem?_map, found] at there
      exact Option.some.inj there
    rw [placed old (mem_of_getElem? found)]
    change s.hashing.bucket s.resized _ = s.hashing.bucket s.resized _
    rw [value, alike]
  · exact placed e (mem_of_getElem? (by simpa using at_))

/-- What a search finds is the same as what it looked for. -/
theorem find_eq_some (found : s.find feed same x = some (i, y)) : s.items[i]? = some y ∧ same y x = true := by
  obtain ⟨j, first, found⟩ := Option.bind_eq_some_iff.mp found
  obtain ⟨e, there, found⟩ := Option.bind_eq_some_iff.mp found
  cases found
  obtain ⟨inside, here, _⟩ := findIdx?_eq_some_iff_getElem.mp first
  obtain rfl : s.entries[i] = e := Option.some.inj ((getElem?_eq_getElem inside).symm.trans there)
  exact ⟨by simp [items, inside], (of_decide_eq_true here).2⟩

/-- A search that finds nothing has missed nothing, where equal elements hash alike. -/
theorem find_eq_none (placed : s.Placed feed) (alike : ∀ y ∈ s.items, same y x = true → feed y = feed x)
    (none : s.find feed same x = none) : ∀ y ∈ s.items, same y x = false := by
  intro y mem
  obtain ⟨e, there, rfl⟩ := mem_map.mp mem
  by_contra found
  have found : same e.2 x = true := by simpa using found
  have home : e.1 = s.bucketOf feed x := by
    rw [placed e there, bucketOf, bucketOf, alike e.2 mem found]
  unfold find at none
  cases first : s.entries.findIdx? fun e => e.1 = s.bucketOf feed x ∧ same e.2 x with
  | none =>
    have missed := findIdx?_eq_none_iff.mp first e there
    simp [home, found] at missed
  | some i =>
    obtain ⟨inside, _⟩ := findIdx?_eq_some_iff_getElem.mp first
    simp only [first, Option.bind_eq_bind, Option.bind_some, getElem?_eq_getElem inside] at none
    cases none

end HashSet

end SystemdPort.Lib
