/-
# Basic.PrioqMembers — a priority queue of things that know their positions

Queues as they are mostly used: each thing is in the queue once at most, and the variable with its
position is its own.  `Prioq.Holds cmp members q` says that `q` is such a queue of the `members`, in
order by `cmp`; what each call does is then said by the members only.
-/
import SystemdPort.Basic.PrioqRuns
import SystemdPort.Basic.StringUtil

namespace SystemdPort.Basic

open Lib Lib.Exec List

set_option autoImplicit false
set_option linter.unusedSectionVars false

/-! ## Numbers compared -/

theorem cmpInt_le_zero (a b : Nat) : cmpInt a b ≤ 0 ↔ a ≤ b := by
  unfold cmpInt
  split
  · omega
  · split <;> omega

theorem zero_le_cmpInt (a b : Nat) : 0 ≤ cmpInt a b ↔ b ≤ a := by
  unfold cmpInt
  split
  · omega
  · split <;> omega

theorem cmpInt_eq_zero (a b : Nat) : cmpInt a b = 0 ↔ a = b := by
  have := cmpInt_le_zero a b
  have := zero_le_cmpInt a b
  omega

/-- Things compared by a number. -/
def Comparison.byNat {D : Type} (key : D → Nat) : Comparison D where
  compare a b := cmpInt (key a) (key b)
  flip a b := by rw [cmpInt_le_zero, zero_le_cmpInt]
  trans := by
    intro a b c first second
    rw [cmpInt_le_zero] at first second ⊢
    omega

/-! ## Queues -/

variable {S : Type} [DecidableEq S]

/-- Two comparisons agree on all but `s`. -/
def Comparison.AgreesBut (cmp changed : Comparison S) (s : S) : Prop :=
  ∀ a b, a ≠ s → b ≠ s → (cmp.compare a b ≤ 0 ↔ changed.compare a b ≤ 0)

namespace Prioq

/-- A queue of `members`. -/
structure Holds (cmp : Comparison S) (members : Set S) (q : Prioq S S) : Prop where
  good : Good cmp q
  own : ∀ x ∈ q.items, x.idx = some x.data
  members : ∀ s, ⟨s, some s⟩ ∈ q.items ↔ s ∈ members
  nodup : q.items.Nodup

variable {cmp cmp' : Comparison S} {members : Set S} {q : Prioq S S} {s : S}

theorem holds_new (cmp : Comparison S) (slots : S → Nat) : Holds cmp ∅ (new slots) where
  good := new_good cmp slots
  own x mem := by cases mem
  members s := by simp [new]
  nodup := nodup_nil

namespace Holds

section

variable (holds : Holds cmp members q)

include holds

theorem eq_mk {x : PrioqItem S S} (mem : x ∈ q.items) : x = ⟨x.data, some x.data⟩ := by
  have := holds.own x mem
  cases x
  simp_all

theorem data_mem {x : PrioqItem S S} (mem : x ∈ q.items) : x.data ∈ members :=
  (holds.members x.data).mp (holds.eq_mk mem ▸ mem)

/-- A member is found at its place, which is that of no other one. -/
theorem find (mem : s ∈ members) : ∃ k, q.findItem s (some s) = some k ∧ q.items[k]? = some ⟨s, some s⟩ ∧
      ∀ i x, q.items[i]? = some x → i ≠ k → x.data ≠ s := by
  have stored := (holds.members s).mpr mem
  obtain ⟨k, there⟩ := mem_iff_getElem?.mp stored
  have position := holds.good.tidy k _ s there rfl
  have inside := (List.getElem?_eq_some_iff.mp there).1
  have small := holds.good.small
  refine ⟨k, ?_, there, ?_⟩
  · rw [findItem, position, there, if_neg (by omega)]
    simp
  · intro i x at_ apart same
    have atS := holds.eq_mk (mem_of_getElem? at_)
    rw [same] at atS
    subst atS
    exact apart ((getElem?_inj (List.getElem?_eq_some_iff.mp at_).1 holds.nodup).mp (at_.trans there.symm))

/-- What is at the front is below all members. -/
theorem peek_below {h : S} (peek : q.peek = some h) (mem : s ∈ members) : cmp.compare h s ≤ 0 := by
  obtain ⟨x, first, rfl⟩ := Option.map_eq_some_iff.mp peek
  exact holds.good.root_below first ((holds.members s).mpr mem)

theorem peek_mem {h : S} (peek : q.peek = some h) : h ∈ members := by
  obtain ⟨x, first, rfl⟩ := Option.map_eq_some_iff.mp peek
  exact holds.data_mem (mem_of_getElem? first)

/-- A change of the order of things that are no members. -/
theorem changedAmong (agrees : ∀ a ∈ members, ∀ b ∈ members, cmp.compare a b ≤ 0 ↔ cmp'.compare a b ≤ 0) :
    Holds cmp' members q :=
  { holds with
    good := holds.good.changed fun _ _ _ _ atX atY =>
      agrees _ (holds.data_mem (mem_of_getElem? atX)) _ (holds.data_mem (mem_of_getElem? atY)) }

/-- A change that has to do with no member. -/
theorem changed (agrees : cmp.AgreesBut cmp' s) (missing : s ∉ members) : Holds cmp' members q := by
  refine holds.changedAmong fun a memA b memB => agrees a b ?_ ?_
  · rintro rfl
    exact missing memA
  · rintro rfl
    exact missing memB

theorem congr (agrees : ∀ a b, cmp.compare a b ≤ 0 ↔ cmp'.compare a b ≤ 0) : Holds cmp' members q :=
  holds.changedAmong fun a _ b _ => agrees a b

/-- A member is shuffled to its place after a change. -/
theorem reshuffle (agrees : cmp.AgreesBut cmp' s) (mem : s ∈ members) :
    ∃ q', Prioq.reshuffle cmp'.compare s (some s) q = .ok true q' ∧ Holds cmp' members q' ∧
      q'.items.length = q.items.length := by
  obtain ⟨k, found, there, others⟩ := holds.find mem
  have around : Heap.OrderedAround cmp'.below q.place k :=
    holds.good.around_changed fun i j x y atX atY apartX apartY =>
      agrees _ _ (others i x atX apartX) (others j y atY apartY)
  obtain ⟨q', shuffled, ordered, done⟩ := shuffle_ok (f := fun _ => pure true) holds.good.tidy holds.good.small
    (List.getElem?_eq_some_iff.mp there).1 around
  refine ⟨q', ?_, ⟨holds.good.shuffled shuffled ordered, ?_, ?_, ?_⟩, shuffled.perm.length_eq⟩
  · rwa [Prioq.reshuffle, get_bind, found]
  · intro x stored
    exact holds.own x (shuffled.perm.mem_iff.mp stored)
  · intro t
    rw [shuffled.perm.mem_iff, holds.members]
  · exact shuffled.perm.nodup_iff.mpr holds.nodup

theorem remove (mem : s ∈ members) :
    ∃ q', Prioq.remove cmp.compare s (some s) q = .ok true q' ∧ Holds cmp (members \ {s}) q' ∧
      q'.items.length < q'.nAllocated ∧ q'.items.length < q.items.length := by
  obtain ⟨k, found, there, -⟩ := holds.find mem
  obtain ⟨q', removed, good, perm, allocated⟩ := removeItem_ok holds.good there
  have nodup := perm.nodup_iff.mp holds.nodup
  obtain ⟨gone, nodup⟩ := nodup_cons.mp nodup
  refine ⟨q', ?_, ⟨good, ?_, ?_, nodup⟩, ?_⟩
  · rw [Prioq.remove, get_bind, found]
    exact bind_of_ok removed
  · intro x stored
    exact holds.own x (perm.mem_iff.mpr (mem_cons_of_mem _ stored))
  · intro t
    rw [Set.mem_sdiff, ← holds.members, perm.mem_iff, mem_cons]
    constructor
    · intro stored
      refine ⟨.inr stored, ?_⟩
      rintro rfl
      exact gone stored
    · rintro ⟨⟨rfl, _⟩ | stored, apart⟩
      · exact absurd rfl apart
      · exact stored
  · have := holds.good.room
    have := perm.length_eq
    rw [length_cons] at this
    exact ⟨by omega, by omega⟩

/-- Something is put; it fails only for lack of memory, and not where something was removed. -/
theorem put (missing : s ∉ members) (memory : Bool) (fits : q.items.length < 2 ^ 31) :
    ∃ r q', Prioq.put cmp.compare s (some s) memory q = .ok r q' ∧ (r = false → q' = q) ∧
      (r = true → Holds cmp (insert s members) q' ∧ q'.items.length = q.items.length + 1) ∧
      (q.items.length < q.nAllocated → r = true) := by
  have own : ∀ t, some s = some t → ∀ x ∈ q.items, x.idx ≠ some t := by
    rintro t ⟨⟩ x stored mine
    have := holds.own x stored
    rw [mine] at this
    exact missing (Option.some.inj this ▸ holds.data_mem stored)
  have step : ∀ memory, ∃ r q', Prioq.put cmp.compare s (some s) memory q = .ok r q' ∧
      (r = false → memory = false ∧ q' = q) ∧
      (r = true → Holds cmp (insert s members) q' ∧ q'.items.length = q.items.length + 1) := by
    intro memory
    obtain ⟨r, q', run, sound, refused, stored⟩ := put_ok holds.good.toSound s (some s) memory own
      (by unfold maxItems; omega)
    refine ⟨r, q', run, refused, ?_⟩
    intro success
    have perm := stored success
    have length : q'.items.length = q.items.length + 1 := perm.length_eq
    refine ⟨⟨⟨sound, by omega⟩, ?_, ?_, ?_⟩, length⟩
    · intro x mem
      rcases mem_cons.mp (perm.mem_iff.mp mem) with rfl | mem
      · rfl
      · exact holds.own x mem
    · intro t
      rw [perm.mem_iff, mem_cons, holds.members]
      simp
    · exact perm.nodup_iff.mpr (nodup_cons.mpr ⟨mt (holds.members s).mp missing, holds.nodup⟩)
  obtain ⟨r, q', run, refused, stored⟩ := step memory
  refine ⟨r, q', run, fun failed => (refused failed).2, stored, ?_⟩
  intro room
  -- with room for one more, memory does not matter
  obtain ⟨r', q'', run', refused', -⟩ := step true
  have same : Prioq.put cmp.compare s (some s) memory q = Prioq.put cmp.compare s (some s) true q := by
    rw [Prioq.put, Prioq.put, get_bind, get_bind, if_neg (by omega), if_neg (by simp)]
  rw [run, run'] at same
  cases same
  by_contra failed
  exact absurd (refused' (by simpa using failed)).1 (by simp)

/-- The variable of something that is not in the queue may be changed. -/
theorem note (missing : s ∉ members) (k : Nat) : Holds cmp members (q.note (some s) k) where
  good := by
    refine ⟨⟨?_, ?_, ?_, ?_⟩, ?_⟩
    · exact holds.good.ordered
    · intro i x t there point
      rw [note_slots, if_neg]
      · exact holds.good.tidy i x t there point
      · rintro ⟨⟩
        have stored := mem_of_getElem? there
        have := holds.own x stored
        rw [point] at this
        exact missing (Option.some.inj this ▸ holds.data_mem stored)
    · exact holds.good.room
    · exact holds.good.grown
    · exact holds.good.small
  own := holds.own
  members := holds.members
  nodup := holds.nodup

end

end Holds

end Prioq

end SystemdPort.Basic
