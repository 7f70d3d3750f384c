/-
# Lib.Cycle — directed cycles of a relation

A cycle is the list of its nodes: a nonempty chain whose last node leads back
to its first.  The list form is what an ordering error reports, node by node;
the closure form `TransGen R x x` is what inductions use.  `acyclic_iff`
joins the two, `IsCycle.map` and `IsCycle.reverse` carry a cycle to another
relation, and `exists_minimal_of_acyclic` finds the node nothing leads to.
-/
import Mathlib.Data.Set.Finite.Basic
import Mathlib.Order.WellFounded
import Mathlib.Data.List.Chain

namespace SystemdPort.Lib

open Relation List

set_option autoImplicit false

variable {α β : Type} {R : α → α → Prop} {S : β → β → Prop}

/-- The nodes of `l` form a directed cycle of `R`. -/
def IsCycle (R : α → α → Prop) (l : List α) : Prop :=
  l ≠ [] ∧ l.IsChain R ∧ ∀ a ∈ l.getLast?, ∀ b ∈ l.head?, R a b

/-- No directed cycle. -/
def Acyclic (R : α → α → Prop) : Prop :=
  ∀ x, ¬ TransGen R x x

theorem IsCycle.reverse {l : List α} (cycle : IsCycle R l) : IsCycle (fun a b => R b a) l.reverse := by
  obtain ⟨nonempty, chain, closing⟩ := cycle
  refine ⟨by simpa using nonempty, isChain_reverse.mpr chain, ?_⟩
  intro a last b first
  rw [getLast?_reverse] at last
  rw [head?_reverse] at first
  exact closing b first a last

/-- A map that carries the edges between nodes of a cycle carries the cycle. -/
theorem IsCycle.map {l : List α} (cycle : IsCycle R l) (f : α → β)
    (edges : ∀ a ∈ l, ∀ b ∈ l, R a b → S (f a) (f b)) : IsCycle S (l.map f) := by
  obtain ⟨nonempty, chain, closing⟩ := cycle
  refine ⟨by simpa using nonempty, ?_, ?_⟩
  · rw [isChain_map]
    exact chain.imp_of_mem_imp fun a b ha hb h => edges a ha b hb h
  · intro x last y first
    simp only [getLast?_map, head?_map, Option.mem_def, Option.map_eq_some_iff] at last first
    obtain ⟨a, ha, rfl⟩ := last
    obtain ⟨b, hb, rfl⟩ := first
    exact edges a (mem_of_getLast? ha) b (mem_of_head? hb) (closing a ha b hb)

theorem reflTransGen_of_head {l : List α} (chain : l.IsChain R) {h a : α}
    (first : l.head? = some h) (member : a ∈ l) : ReflTransGen R h a := by
  induction l generalizing h with
  | nil => simp at member
  | cons x xs ih =>
    obtain rfl : x = h := by simpa using first
    rcases mem_cons.mp member with rfl | inside
    · exact .refl
    · cases xs with
      | nil => simp at inside
      | cons y ys =>
        rw [isChain_cons_cons] at chain
        exact .head chain.1 (ih chain.2 rfl inside)

theorem reflTransGen_to_last {l : List α} (chain : l.IsChain R) {a z : α}
    (last : l.getLast? = some z) (member : a ∈ l) : ReflTransGen R a z := by
  have back := reflTransGen_of_head (R := fun a b => R b a) (isChain_reverse.mpr chain)
    (by simpa using last) (mem_reverse.mpr member)
  exact reflTransGen_swap.mp back

/-- Any two nodes of a cycle lead to each other. -/
theorem IsCycle.transGen {l : List α} (cycle : IsCycle R l) {a b : α} (ha : a ∈ l) (hb : b ∈ l) : TransGen R a b := by
  obtain ⟨nonempty, chain, closing⟩ := cycle
  obtain ⟨z, last⟩ : ∃ z, l.getLast? = some z := ⟨_, getLast?_eq_some_getLast nonempty⟩
  obtain ⟨h, first⟩ : ∃ h, l.head? = some h := ⟨_, head?_eq_some_head nonempty⟩
  exact (TransGen.tail' (reflTransGen_to_last chain last ha) (closing z last h first)).trans_left
    (reflTransGen_of_head chain first hb)

theorem exists_cycle_of_transGen {x : α} (loop : TransGen R x x) : ∃ l, IsCycle R l := by
  obtain ⟨y, there, back⟩ := TransGen.tail'_iff.mp loop
  obtain ⟨l, chain, last⟩ := exists_isChain_cons_of_relationReflTransGen there
  refine ⟨x :: l, by simp, chain, ?_⟩
  intro a ha b hb
  obtain rfl : x = b := by simpa using hb
  rw [getLast?_eq_some_getLast (cons_ne_nil x l), Option.mem_some_iff, last] at ha
  exact ha ▸ back

theorem acyclic_iff : Acyclic R ↔ ∀ l, ¬ IsCycle R l := by
  constructor
  · intro acyclic l cycle
    obtain ⟨h, first⟩ : ∃ h, l.head? = some h := ⟨_, head?_eq_some_head cycle.1⟩
    exact acyclic h (cycle.transGen (mem_of_head? first) (mem_of_head? first))
  · intro none x loop
    obtain ⟨l, cycle⟩ := exists_cycle_of_transGen loop
    exact none l cycle

/-- A finite nonempty set has a member that no other member leads to. -/
theorem exists_minimal_of_acyclic (acyclic : Acyclic R) (s : Finset α) (nonempty : s.Nonempty) :
    ∃ a ∈ s, ∀ b ∈ s, ¬ R b a := by
  let T : s → s → Prop := fun a b => TransGen R a.1 b.1
  have : Std.Irrefl T := ⟨fun a loop => acyclic a.1 loop⟩
  have wf : WellFounded T := Finite.wellFounded_of_trans_of_irrefl T
  obtain ⟨x, hx⟩ := nonempty
  obtain ⟨a, -, least⟩ := wf.has_min Set.univ ⟨⟨x, hx⟩, trivial⟩
  exact ⟨a.1, a.2, fun b hb step => least ⟨b, hb⟩ trivial (.single step)⟩

end SystemdPort.Lib
