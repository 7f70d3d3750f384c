/-
# Basic.Prioq — the priority queue

`src/basic/prioq.c`.  The queue keeps its items in a binary heap, and in a variable of the
caller, if there is one for the item, where in the heap the item is.  All counters are
`unsigned`, of 32 bits.

The comparison looks at what the items point to, which the caller may change: a call of
`prioq_reshuffle()` comes with the comparison as it is from then on.
-/
import Mathlib.Tactic
import SystemdPort.Lib.Exec
import SystemdPort.Lib.Heap

namespace SystemdPort.Basic

open Lib Lib.Exec

set_option autoImplicit false

/-! ## The queue -/

structure PrioqItem (D I : Type) where
  data : D
  /-- The variable that gets the position of the item. -/
  idx : Option I
  deriving DecidableEq

structure Prioq (D I : Type) where
  items : List (PrioqItem D I) := []
  nAllocated : Nat := 0
  /-- The variables that items point to. -/
  slots : I → Nat

/-- What a call does not come back from: an assertion that fails, or an access outside of
the items. -/
inductive PrioqFault where
  | assertion
  | outOfBounds
  | outOfFuel
  deriving DecidableEq

abbrev PrioqM (D I : Type) := EStateM PrioqFault (Prioq D I)

section Prioq

variable {D I : Type} [DecidableEq D] [DecidableEq I]

namespace Prioq

/-- `if (idx) *idx = k` -/
def note (idx : Option I) (k : Nat) (q : Prioq D I) : Prioq D I :=
  match idx with
  | none => q
  | some s => { q with slots := Function.update q.slots s k }

/-- `!idx || *idx == k` -/
def noted (idx : Option I) (k : Nat) (q : Prioq D I) : Bool := idx.all fun s => q.slots s = k

def getItem (i : Nat) : PrioqM D I (PrioqItem D I) := do
  let q ← get
  match q.items[i]? with
  | none => throw .outOfBounds
  | some x => pure x

def swap (j k : Nat) : PrioqM D I PUnit := do
  let q ← get
  require (j < q.items.length) .assertion
  require (k < q.items.length) .assertion
  let a ← getItem j
  let b ← getItem k
  require (q.noted a.idx j = true) .assertion
  require (q.noted b.idx k = true) .assertion
  modify fun q => (({ q with items := (q.items.set j b).set k a } : Prioq D I).note b.idx j).note a.idx k

section Shuffle

variable (compare : D → D → Int)

def shuffleUpLoop : Nat → Nat → PrioqM D I Nat
  | 0, _ => throw .outOfFuel
  | n + 1, idx =>
    if idx = 0 then pure idx
    else do
      let k := (idx - 1) / 2
      let above ← getItem k
      let x ← getItem idx
      if compare above.data x.data ≤ 0 then pure idx
      else
        swap idx k
        shuffleUpLoop n k

def shuffleUp (idx : Nat) : PrioqM D I Nat := do
  let q ← get
  require (idx < q.items.length) .assertion
  shuffleUpLoop compare (idx + 1) idx

/-- The position `i` if what is there is below what is at `s`. -/
def lower (i s : Nat) : PrioqM D I Nat := do
  let a ← getItem i
  let b ← getItem s
  pure (if compare a.data b.data < 0 then i else s)

/-- The smallest of the item at `idx` and its children at `j` and, if there is one, at `k`. -/
def smallest (j k idx : Nat) : PrioqM D I Nat := do
  let q ← get
  let s ← lower compare j idx
  if k < q.items.length then lower compare k s else pure s

def shuffleDownLoop : Nat → Nat → PrioqM D I Nat
  | 0, _ => throw .outOfFuel
  | n + 1, idx => do
      let q ← get
      let k := (idx + 1) * 2 % 2 ^ 32
      let j := (k + (2 ^ 32 - 1)) % 2 ^ 32
      if q.items.length ≤ j then pure idx
      else
        let s ← smallest compare j k idx
        if s = idx then pure idx
        else
          swap idx s
          shuffleDownLoop n s

def shuffleDown (idx : Nat) : PrioqM D I Nat := do
  let q ← get
  shuffleDownLoop compare (q.items.length + 1) idx

/-- `prioq_put()`; `memory` tells whether an allocation would succeed. -/
def put (data : D) (idx : Option I) (memory : Bool) : PrioqM D I Bool := do
  let q ← get
  let k := q.items.length
  if q.nAllocated ≤ k ∧ memory = false then pure false
  else
    modify fun q =>
      if q.nAllocated ≤ k then { q with nAllocated := max ((k + 1) * 2 % 2 ^ 32) 16 } else q
    let q ← get
    require (k < q.nAllocated) .outOfBounds
    modify fun q => ({ q with items := q.items ++ [⟨data, idx⟩] } : Prioq D I).note idx k
    let _ ← shuffleUp compare k
    pure true

def removeItem (k : Nat) : PrioqM D I PUnit := do
  let q ← get
  let l := q.items.length - 1
  if k = l then modify fun q => { q with items := q.items.dropLast }
  else
    let last ← getItem l
    modify fun q => ({ q with items := (q.items.set k last).dropLast } : Prioq D I).note last.idx k
    let k ← shuffleDown compare k
    let _ ← shuffleUp compare k

/-- Where the item is, by the variable with its position or by a search. -/
def findItem (q : Prioq D I) (data : D) : Option I → Option Nat
  | some s =>
    if q.slots s = 2 ^ 32 - 1 ∨ q.items.length ≤ q.slots s then none
    else if q.items[q.slots s]?.map PrioqItem.data = some data then some (q.slots s) else none
  | none => q.items.findIdx? fun x => x.data = data

def remove (data : D) (idx : Option I) : PrioqM D I Bool := do
  let q ← get
  match q.findItem data idx with
  | none => pure false
  | some k => do
      removeItem compare k
      pure true

def reshuffle (data : D) (idx : Option I) : PrioqM D I Bool := do
  let q ← get
  match q.findItem data idx with
  | none => pure false
  | some k => do
      let k ← shuffleDown compare k
      let _ ← shuffleUp compare k
      pure true

def peekByIndex (q : Prioq D I) (idx : Nat) : Option D := q.items[idx]?.map PrioqItem.data

def peek (q : Prioq D I) : Option D := q.peekByIndex 0

def pop : PrioqM D I (Option D) := do
  let q ← get
  match q.items with
  | [] => pure none
  | x :: _ => do
      removeItem compare 0
      pure (some x.data)

end Shuffle

end Prioq

/-! ## Runs -/

/-- A comparison that is a total preorder. -/
structure Comparison (D : Type) where
  compare : D → D → Int
  flip : ∀ a b, compare a b ≤ 0 ↔ 0 ≤ compare b a
  trans : ∀ {a b c}, compare a b ≤ 0 → compare b c ≤ 0 → compare a c ≤ 0

inductive PrioqCall (D I : Type) where
  | put (data : D) (idx : Option I) (memory : Bool)
  | remove (data : D) (idx : Option I)
  /-- With the comparison after the change of a priority. -/
  | reshuffle (data : D) (idx : Option I) (changed : Comparison D)
  | pop

inductive PrioqAnswer (D : Type) where
  | done (r : Bool)
  | popped (data : Option D)

namespace PrioqCall

/-- The comparison from a call on. -/
def comparison (cmp : Comparison D) : PrioqCall D I → Comparison D
  | reshuffle _ _ changed => changed
  | _ => cmp

def run (compare : D → D → Int) : PrioqCall D I → PrioqM D I (PrioqAnswer D)
  | put data idx memory => do
      let r ← Prioq.put compare data idx memory
      pure (.done r)
  | remove data idx => do
      let r ← Prioq.remove compare data idx
      pure (.done r)
  | reshuffle data idx _ => do
      let r ← Prioq.reshuffle compare data idx
      pure (.done r)
  | pop => do
      let data ← Prioq.pop compare
      pure (.popped data)

end PrioqCall

def runPrioq : Comparison D → List (PrioqCall D I) → PrioqM D I (List (PrioqAnswer D))
  | _, [] => pure []
  | cmp, call :: calls => do
      let answer ← call.run (call.comparison cmp).compare
      let answers ← runPrioq (call.comparison cmp) calls
      pure (answer :: answers)

end Prioq

end SystemdPort.Basic
