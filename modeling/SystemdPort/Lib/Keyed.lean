/-
# Lib.Keyed — objects found by a key of their own

A list of records that carry their own key, as a heap of allocations does.  A
record is looked up, changed in place or removed by key; `Unique` says no key
occurs twice, and is kept by all three.  The counting rules say what each
operation does to the number of records with a property, which is what a counter
maintained beside the list has to follow.
-/
import Mathlib.Tactic

namespace SystemdPort.Lib.Keyed

set_option autoImplicit false

open List

variable {κ α : Type} [DecidableEq κ] (key : α → κ)

def lookup (k : κ) (l : List α) : Option α := l.find? fun a => key a = k

/-- Change the record with key `k` in place. -/
def modify (k : κ) (f : α → α) (l : List α) : List α :=
  l.map fun a => if key a = k then f a else a

def remove (k : κ) (l : List α) : List α := l.filter fun a => key a ≠ k

/-- No two records share a key. -/
def Unique (l : List α) : Prop := (l.map key).Nodup

variable {key} {k : κ} {a b : α} {l : List α} {f : α → α}

theorem lookup_mem (found : lookup key k l = some a) : a ∈ l ∧ key a = k := by
  exact ⟨mem_of_find?_eq_some found, by simpa using find?_some found⟩

omit [DecidableEq κ] in
theorem Unique.eq (unique : Unique key l) (ha : a ∈ l) (hb : b ∈ l) (same : key a = key b) : a = b :=
  inj_on_of_nodup_map unique ha hb same

theorem Unique.lookup (unique : Unique key l) (ha : a ∈ l) : Keyed.lookup key (key a) l = some a := by
  cases found : Keyed.lookup key (key a) l with
  | none =>
    have := find?_eq_none.mp found a ha
    simp at this
  | some b =>
    obtain ⟨hb, same⟩ := lookup_mem found
    rw [unique.eq hb ha same]

theorem lookup_eq_none_iff : lookup key k l = none ↔ ∀ a ∈ l, key a ≠ k := by
  simp [lookup]

theorem map_key_modify (same : ∀ a, key (f a) = key a) : (modify key k f l).map key = l.map key := by
  unfold modify
  rw [map_map]
  apply map_congr_left
  intro a _
  simp only [Function.comp]
  split
  · exact same a
  · rfl

theorem Unique.modify (unique : Unique key l) (same : ∀ a, key (f a) = key a) : Unique key (modify key k f l) := by
  unfold Unique
  rwa [map_key_modify same]

theorem Unique.remove (unique : Unique key l) : Unique key (remove key k l) :=
  unique.sublist (filter_sublist.map key)

omit [DecidableEq κ] in
theorem Unique.cons (unique : Unique key l) (fresh : ∀ b ∈ l, key b ≠ key a) : Unique key (a :: l) := by
  unfold Unique
  rw [map_cons, nodup_cons]
  refine ⟨?_, unique⟩
  intro member
  obtain ⟨b, hb, same⟩ := mem_map.mp member
  exact fresh b hb same

theorem mem_modify_iff : b ∈ modify key k f l ↔ (b ∈ l ∧ key b ≠ k) ∨ ∃ a ∈ l, key a = k ∧ f a = b := by
  unfold modify
  rw [mem_map]
  constructor
  · rintro ⟨a, ha, rfl⟩
    by_cases h : key a = k
    · exact Or.inr ⟨a, ha, h, by simp [h]⟩
    · exact Or.inl ⟨by simpa [h] using ha, by simp [h]⟩
  · rintro (⟨hb, h⟩ | ⟨a, ha, h, rfl⟩)
    · exact ⟨b, hb, by simp [h]⟩
    · exact ⟨a, ha, by simp [h]⟩

@[simp] theorem mem_remove_iff : b ∈ remove key k l ↔ b ∈ l ∧ key b ≠ k := by
  simp [remove]

theorem lookup_modify_self (found : lookup key k l = some a) (same : ∀ a, key (f a) = key a) :
    lookup key k (modify key k f l) = some (f a) := by
  induction l with
  | nil => simp [lookup] at found
  | cons x xs ih =>
    by_cases h : key x = k
    · have : x = a := by simpa [lookup, h] using found
      subst this
      simp [lookup, modify, h, same]
    · have rest : lookup key k xs = some a := by simpa [lookup, h] using found
      simpa [lookup, modify, h] using ih rest

theorem lookup_modify_ne {k' : κ} (ne : k' ≠ k) (same : ∀ a, key (f a) = key a) :
    lookup key k' (modify key k f l) = lookup key k' l := by
  induction l with
  | nil => rfl
  | cons x xs ih =>
    simp only [modify, map_cons, lookup] at ih ⊢
    by_cases h : key x = k
    · simpa [h, same, ne.symm] using ih
    · simp only [if_neg h]
      by_cases h' : key x = k'
      · simp [h']
      · simpa [h'] using ih

theorem lookup_remove_ne {k' : κ} (ne : k' ≠ k) : lookup key k' (remove key k l) = lookup key k' l := by
  unfold lookup remove
  rw [find?_filter]
  congr 1
  funext a
  by_cases h : key a = k'
  · simp [h, ne]
  · simp [h]

theorem lookup_remove_self : lookup key k (remove key k l) = none := by
  rw [lookup_eq_none_iff]
  intro a member
  exact (mem_remove_iff.mp member).2

/-- The record with a key, between others with other keys. -/
theorem Unique.split (unique : Unique key l) (found : Keyed.lookup key k l = some a) :
    ∃ before after, l = before ++ a :: after ∧ key a = k ∧ (∀ b ∈ before, key b ≠ k) ∧ ∀ b ∈ after, key b ≠ k := by
  obtain ⟨member, rfl⟩ := lookup_mem found
  obtain ⟨before, after, rfl⟩ := append_of_mem member
  rw [Unique, map_append, map_cons, nodup_middle, nodup_cons, mem_append, not_or, mem_map, mem_map] at unique
  exact ⟨before, after, rfl, rfl, fun b hb same => unique.1.1 ⟨b, hb, same⟩, fun b hb same => unique.1.2 ⟨b, hb, same⟩⟩

/-- Removing the record with key `k` takes it out of the count. -/
theorem countP_remove (unique : Unique key l) (p : α → Bool) (found : lookup key k l = some a) :
    (remove key k l).countP p + (if p a then 1 else 0) = l.countP p := by
  obtain ⟨before, after, rfl, here, front, back⟩ := unique.split found
  have rest : remove key k (before ++ a :: after) = before ++ after := by
    rw [remove, filter_append, filter_cons_of_neg (by simpa using here), filter_eq_self.mpr (by simpa using front),
      filter_eq_self.mpr (by simpa using back)]
  rw [rest, countP_append, countP_append, countP_cons]
  omega

/-- Changing one record changes the count by what becomes of that record. -/
theorem countP_modify (unique : Unique key l) (p : α → Bool) (found : lookup key k l = some a) :
    (modify key k f l).countP p + (if p a then 1 else 0) = l.countP p + (if p (f a) then 1 else 0) := by
  obtain ⟨before, after, rfl, here, front, back⟩ := unique.split found
  have same {others : List α} (apart : ∀ b ∈ others, key b ≠ k) : modify key k f others = others :=
    (map_congr_left fun b hb => if_neg (apart b hb)).trans (map_id others)
  have changed : modify key k f (before ++ a :: after) = before ++ f a :: after := by
    rw [modify, map_append, map_cons, if_pos here]
    exact congrArg₂ (· ++ f a :: ·) (same front) (same back)
  rw [changed, countP_append, countP_append, countP_cons, countP_cons]
  omega

end SystemdPort.Lib.Keyed
