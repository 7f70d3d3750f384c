/-
# Lib.Loop — loops that go on until nothing is left to do

Two loop shapes of imperative code, with the number of rounds bounded by a
counter.  `exhaust step` repeats a step that may have nothing left to do;
`retry step` repeats a fallible step until it reports that it is done.

Each has one rule.  Given an invariant that a round keeps and a measure that a
round decreases, the loop ends because there is nothing left to do, and not
because the counter ran out.
-/
import Mathlib.Tactic

namespace SystemdPort.Lib

set_option autoImplicit false

variable {α ε : Type}

/-- Repeats `step` until it returns `none`, at most `n` times. -/
def exhaust (step : α → Option α) : Nat → α → α
  | 0, a => a
  | n + 1, a =>
    match step a with
    | none => a
    | some b => exhaust step n b

theorem exhaust_rule {step : α → Option α} (I : α → Prop) (μ : α → Nat)
    (round : ∀ a b, I a → step a = some b → I b ∧ μ b < μ a) (n : Nat) (a : α) (start : I a)
    (enough : μ a ≤ n) : I (exhaust step n a) ∧ step (exhaust step n a) = none := by
  induction n generalizing a with
  | zero =>
    cases stepped : step a with
    | none => exact ⟨start, stepped⟩
    | some b =>
      have := round a b start stepped
      omega
  | succ n ih =>
    unfold exhaust
    split
    · exact ⟨start, by assumption⟩
    · rename_i b stepped
      obtain ⟨kept, less⟩ := round a b start stepped
      exact ih b kept (by omega)

/-- Repeats `step` until it fails or reports, by the flag, that it is done. -/
def retry (step : α → Except ε (α × Bool)) : Nat → α → Except ε α
  | 0, a =>
    match step a with
    | .error e => .error e
    | .ok (b, _) => .ok b
  | n + 1, a =>
    match step a with
    | .error e => .error e
    | .ok (b, true) => .ok b
    | .ok (b, false) => retry step n b

theorem retry_rule {step : α → Except ε (α × Bool)} (I : α → Prop) (μ : α → Nat)
    (round : ∀ a b, I a → step a = .ok (b, false) → I b ∧ μ b < μ a) (n : Nat) (a b : α)
    (start : I a) (enough : μ a ≤ n) (finished : retry step n a = .ok b) : ∃ c, I c ∧ step c = .ok (b, true) := by
  induction n generalizing a with
  | zero =>
    unfold retry at finished
    split at finished
    · simp at finished
    · rename_i b' done stepped
      cases finished
      cases done with
      | true => exact ⟨a, start, stepped⟩
      | false =>
        have := round a b start stepped
        omega
  | succ n ih =>
    unfold retry at finished
    split at finished
    · simp at finished
    · rename_i stepped
      cases finished
      exact ⟨a, start, stepped⟩
    · rename_i b' stepped
      obtain ⟨kept, less⟩ := round a b' start stepped
      exact ih b' kept (by omega) finished

end SystemdPort.Lib
