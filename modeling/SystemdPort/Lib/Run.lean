/-
# Lib.Run — runs of a system that takes steps

A system takes a step for each action that is enabled in its state, and a step may give a
result.  `run` follows a schedule of actions.  There is one rule for what holds in every
state of a run, and one for what happens sooner or later: a rank that actions of some kind
decrease, and no other ones increase, bounds how many of them a run has before a result.
-/
import Mathlib.Tactic

namespace SystemdPort.Lib

set_option autoImplicit false

variable {σ α β : Type}

/-- The state at the end of a schedule, with the results on the way. -/
def run (step : σ → α → Option (σ × Option β)) : σ → List α → Option (σ × List β)
  | s, [] => some (s, [])
  | s, a :: as => do
      let (s₁, result) ← step s a
      let (s₂, results) ← run step s₁ as
      some (s₂, result.toList ++ results)

section Run

variable {step : σ → α → Option (σ × Option β)} {s s' : σ} {results : List β}

variable {as : List α} {I G : σ → Prop}

theorem run_cons {a : α} : run step s (a :: as) = some (s', results) ↔
      ∃ s₁ result rest, step s a = some (s₁, result) ∧ run step s₁ as = some (s', rest) ∧
        results = result.toList ++ rest := by
  simp only [run, Option.bind_eq_bind, Option.bind_eq_some_iff, Option.some.injEq, Prod.mk.injEq, Prod.exists]
  constructor
  · rintro ⟨s₁, result, stepped, s₂, rest, ran, rfl, rfl⟩
    exact ⟨s₁, result, rest, stepped, ran, rfl⟩
  · rintro ⟨s₁, result, rest, stepped, ran, rfl⟩
    exact ⟨s₁, result, stepped, s', rest, ran, rfl, rfl⟩

theorem run_append {bs : List α} {s₁ : σ} {first second : List β} (ran : run step s as = some (s₁, first))
    (ran' : run step s₁ bs = some (s', second)) : run step s (as ++ bs) = some (s', first ++ second) := by
  induction as generalizing s first with
  | nil =>
    obtain ⟨rfl, rfl⟩ := by exact ran
    exact ran'
  | cons a as ih =>
    obtain ⟨s₂, result, rest, stepped, later, rfl⟩ := run_cons.mp ran
    exact run_cons.mpr ⟨s₂, result, rest ++ second, stepped, ih later, by simp⟩

/-- What every step keeps holds at the end. -/
theorem run_invariant (keeps : ∀ s a s' result, I s → step s a = some (s', result) → I s') (start : I s)
    (ran : run step s as = some (s', results)) : I s' := by
  induction as generalizing s results with
  | nil =>
    obtain ⟨rfl, -⟩ := by exact ran
    exact start
  | cons a as ih =>
    obtain ⟨s₁, result, rest, stepped, ran, -⟩ := run_cons.mp ran
    exact ih (keeps s a s₁ result start stepped) ran

/-- What every step keeps backwards holds at the beginning. -/
theorem run_back (back : ∀ s a s' result, step s a = some (s', result) → G s' → G s)
    (ran : run step s as = some (s', results)) (final : G s') : G s := by
  induction as generalizing s results with
  | nil =>
    obtain ⟨rfl, -⟩ := by exact ran
    exact final
  | cons a as ih =>
    obtain ⟨s₁, result, rest, stepped, later, -⟩ := run_cons.mp ran
    exact back s a s₁ result stepped (ih later)

/-- What every step keeps holds at the end, if it may use what the end gives for all states
before it. -/
theorem run_invariant_back (back : ∀ s a s' result, step s a = some (s', result) → G s' → G s)
    (keeps : ∀ s a s' result, I s → step s a = some (s', result) → G s' → I s') (start : I s)
    (ran : run step s as = some (s', results)) (final : G s') : I s' := by
  have kept : G s' → I s' :=
    run_invariant (fun s a s' result before stepped after => keeps s a s' result (before (back s a s' result stepped after))
      stepped after) (fun _ => start) ran
  exact kept final

/-- A run without the result that is waited for has no more actions that count than its rank
and its setbacks allow. -/
theorem run_rank (rank : σ → Nat) (counts setback : α → Bool) (awaited : β → Prop)
    (back : ∀ s a s' result, step s a = some (s', result) → G s' → G s)
    (round : ∀ s a s' result, I s → step s a = some (s', result) → G s' → (∃ b, result = some b ∧ awaited b) ∨
        (I s' ∧ rank s' + (if counts a then 1 else 0) ≤ rank s + (if setback a then 1 else 0))) (start : I s)
    (ran : run step s as = some (s', results)) (final : G s') :
    (∃ b ∈ results, awaited b) ∨ (I s' ∧ rank s' + as.countP counts ≤ rank s + as.countP setback) := by
  induction as generalizing s results with
  | nil =>
    obtain ⟨rfl, -⟩ := by exact ran
    exact .inr ⟨start, by simp⟩
  | cons a as ih =>
    obtain ⟨s₁, result, rest, stepped, later, rfl⟩ := run_cons.mp ran
    rcases round s a s₁ result start stepped (run_back back later final) with ⟨b, rfl, isAwaited⟩ | ⟨kept, less⟩
    · exact .inl ⟨b, by simp, isAwaited⟩
    rcases ih kept later with ⟨b, member, isAwaited⟩ | ⟨kept', less'⟩
    · exact .inl ⟨b, by simp [member], isAwaited⟩
    · refine .inr ⟨kept', ?_⟩
      rw [List.countP_cons, List.countP_cons]
      omega

end Run

end SystemdPort.Lib
