/-
# Lib.Condense — one element for each class

Elements fall into classes, and carry values that can be joined.  A list condenses another one if it
has one element for each class that occurs there, with the join of the values of the class.  This is
what a container does that joins an element with the one of its class it already has.

* `tally` — the join of the values of one class, if there are any.
* `Condenses.add`, `Condenses.join` — an element of a new class, and of one that is there.
* `Condenses.trans_right` — a part of the other list may itself be condensed.
-/
import Mathlib.Tactic

namespace SystemdPort.Lib

set_option autoImplicit false

open List

section Tally

variable {α κ V : Type} [DecidableEq κ] (cls : α → κ) (val : α → V) (op : V → V → V)

/-- The values of the class `c`, joined. -/
def tally (c : κ) : List α → Option V
  | [] => none
  | a :: l => if cls a = c then Option.merge op (some (val a)) (tally c l) else tally c l

/-- `items` has one element for each class of `all`, with the values of the class joined. -/
structure Condenses (items all : List α) : Prop where
  unique : (items.map cls).Nodup
  tallies : ∀ c, tally cls val op c items = tally cls val op c all

variable {cls val op} {c : κ} {a x y z : α} {l m items all : List α}

theorem tally_eq_none_iff : tally cls val op c l = none ↔ c ∉ l.map cls := by
  induction l with
  | nil => simp [tally]
  | cons a l ih =>
    rw [tally]
    split
    · rename_i here
      cases tally cls val op c l <;> simp [here]
    · rename_i other
      rw [ih]
      simp [Ne.symm other]

theorem tally_singleton : tally cls val op c [x] = if cls x = c then some (val x) else none := by
  simp [tally]

/-- In a list without two elements of a class, the tally is the value of the element. -/
theorem tally_of_unique (unique : (items.map cls).Nodup) (mem : x ∈ items) :
    tally cls val op (cls x) items = some (val x) := by
  induction items with
  | nil => cases mem
  | cons a l ih =>
    obtain ⟨new, unique⟩ := nodup_cons.mp unique
    rw [tally]
    rcases mem_cons.mp mem with rfl | mem
    · rw [if_pos rfl, tally_eq_none_iff.mpr new]
      rfl
    · rw [if_neg, ih unique mem]
      intro same
      exact new (same ▸ mem_map_of_mem mem)

theorem tally_append [Std.Associative op] :
    tally cls val op c (l ++ m) = Option.merge op (tally cls val op c l) (tally cls val op c m) := by
  have merging : Std.Associative (Option.merge op) := inferInstance
  induction l with
  | nil => simp [tally]
  | cons a l ih =>
    rw [cons_append, tally, tally, ih]
    split
    · rw [merging.assoc]
    · rfl

namespace Condenses

theorem nil : Condenses cls val op [] [] := ⟨nodup_nil, fun _ => rfl⟩

/-- The order of the elements does not matter. -/
theorem perm (holds : Condenses cls val op items all) (perm : l.Perm items) : Condenses cls val op l all where
  unique := ((perm.map cls).nodup_iff).mpr holds.unique
  tallies c := by
    rw [← holds.tallies c]
    have unique := ((perm.map cls).nodup_iff).mpr holds.unique
    by_cases there : c ∈ l.map cls
    · obtain ⟨a, mem, rfl⟩ := mem_map.mp there
      rw [tally_of_unique unique mem, tally_of_unique holds.unique (perm.mem_iff.mp mem)]
    · rw [tally_eq_none_iff.mpr there, tally_eq_none_iff.mpr (mt (perm.map cls).mem_iff.mpr there)]

/-- For each element there is one of its class, which has the joined value. -/
theorem only (holds : Condenses cls val op items all) (mem : x ∈ all) :
    ∃ item, items.filter (cls · = cls x) = [item] ∧ tally cls val op (cls x) all = some (val item) := by
  have there : cls x ∈ items.map cls := by
    by_contra missing
    have := (holds.tallies (cls x)).symm.trans (tally_eq_none_iff.mpr missing)
    exact tally_eq_none_iff.mp this (mem_map_of_mem mem)
  obtain ⟨item, found, same⟩ := mem_map.mp there
  refine ⟨item, ?_, ?_⟩
  · have one : ∀ a ∈ items, cls a = cls x → a = item := by
      intro a mem eq
      exact inj_on_of_nodup_map holds.unique mem found (eq.trans same.symm)
    have short : (items.filter (cls · = cls x)).Nodup := holds.unique.of_map.filter _
    apply perm_singleton.mp
    rw [perm_ext_iff_of_nodup short (nodup_singleton _)]
    intro a
    rw [mem_filter, mem_singleton, decide_eq_true_iff]
    constructor
    · rintro ⟨mem, eq⟩
      exact one a mem eq
    · rintro rfl
      exact ⟨found, same⟩
  · rw [← holds.tallies, ← same, tally_of_unique holds.unique found]

/-- No class comes from elsewhere. -/
theorem origin (holds : Condenses cls val op items all) (mem : x ∈ items) : ∃ y ∈ all, cls y = cls x := by
  have there : cls x ∈ all.map cls := by
    by_contra missing
    have := (holds.tallies (cls x)).trans (tally_eq_none_iff.mpr missing)
    exact tally_eq_none_iff.mp this (mem_map_of_mem mem)
  obtain ⟨y, found, same⟩ := mem_map.mp there
  exact ⟨y, found, same⟩

variable [Std.Associative op]

/-- An element of a class that is not there is added. -/
theorem add (holds : Condenses cls val op items all) (new : cls x ∉ items.map cls) :
    Condenses cls val op (items ++ [x]) (all ++ [x]) where
  unique := by
    rw [map_append]
    refine nodup_append.mpr ⟨holds.unique, nodup_singleton _, ?_⟩
    intro a mem b single
    rw [mem_singleton.mp single]
    rintro rfl
    exact new mem
  tallies c := by rw [tally_append, tally_append, holds.tallies c]

/-- An element `x` is joined with the one of its class, `y`, which becomes `z`. -/
theorem join {i : Nat} (holds : Condenses cls val op items all) (there : items[i]? = some y) (same : cls y = cls x)
    (kept : cls z = cls x) (joined : val z = op (val y) (val x)) :
    Condenses cls val op (items.set i z) (all ++ [x]) := by
  have inside : i < items.length := (List.getElem?_eq_some_iff.mp there).1
  have mem : y ∈ items := mem_of_getElem? there
  have classes : (items.set i z).map cls = items.map cls := by
    apply ext_getElem?
    intro j
    rw [map_set, getElem?_set]
    split
    · rename_i here
      subst here
      rw [getElem?_map, there, length_map, if_pos inside, kept, ← same]
      rfl
    · rfl
  have unique : ((items.set i z).map cls).Nodup := classes ▸ holds.unique
  refine ⟨unique, fun c => ?_⟩
  rw [tally_append, ← holds.tallies c, tally_singleton]
  split
  · rename_i here
    subst here
    rw [← same, tally_of_unique holds.unique mem, same, ← kept, tally_of_unique unique (mem_set inside z), joined]
    rfl
  · rename_i other
    have unchanged : tally cls val op c (items.set i z) = tally cls val op c items := by
      by_cases found : c ∈ items.map cls
      · obtain ⟨a, memA, rfl⟩ := mem_map.mp found
        obtain ⟨j, atJ⟩ := mem_iff_getElem?.mp memA
        have apart : i ≠ j := by
          rintro rfl
          rw [there] at atJ
          exact other (Option.some.inj atJ ▸ same.symm)
        have memA' : a ∈ items.set i z := mem_of_getElem? (i := j) (by rw [getElem?_set_ne apart, atJ])
        rw [tally_of_unique unique memA', tally_of_unique holds.unique memA]
      · rw [tally_eq_none_iff.mpr found, tally_eq_none_iff.mpr (classes ▸ found)]
    rw [unchanged, Option.merge_none_right]

/-- What was condensed before may be added condensed. -/
theorem trans_right (holds : Condenses cls val op items (all ++ l)) (others : Condenses cls val op l m) :
    Condenses cls val op items (all ++ m) where
  unique := holds.unique
  tallies c := by rw [holds.tallies, tally_append, tally_append, others.tallies]

end Condenses

end Tally

end SystemdPort.Lib
