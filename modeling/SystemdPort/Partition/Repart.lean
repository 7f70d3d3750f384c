/-
# Partition.Repart — sharing out space by weights

`scale_by_weight()` of `src/partition/repart.c`, which `systemd-repart` shares out free space with.  Numbers
are of 64 bits, as natural numbers, and products wrap around; they are halved until no product does.

Each rounding goes down (`scaleLoop_mul_le`), so that shares never add up to more than there is.
-/
import Mathlib.Tactic

namespace SystemdPort.Repart

set_option autoImplicit false

/-- `UINT64_MAX` -/
def uint64Max : Nat := 2 ^ 64 - 1

/-- The loop of `scale_by_weight()`, which ends because the weight gets smaller. -/
def scaleLoop (value weight weightSum : Nat) : Nat :=
  if weight = 0 then 0
  else if weight = weightSum then value
  else if value ≤ uint64Max / weight then value * weight % 2 ^ 64 / weightSum
  else scaleLoop value (weight / 2) (weightSum / 2 + weightSum % 2)
termination_by weight

/-- `scale_by_weight()`, with the assertion it begins with. -/
def scaleByWeight (value weight weightSum : Nat) : Option Nat :=
  if weightSum ≥ weight then some (scaleLoop value weight weightSum) else none

/-- A share is no more than its part of the value. -/
theorem scaleLoop_mul_le {value weight weightSum : Nat} (part : weight ≤ weightSum) :
    scaleLoop value weight weightSum * weightSum ≤ value * weight := by
  fun_induction scaleLoop value weight weightSum with
  | case1 => simp
  | case2 => exact le_refl _
  | case3 => exact (Nat.div_mul_le_self _ _).trans (Nat.mod_le _ _)
  | case4 weight weightSum positive _ _ ih =>
    generalize scaleLoop value (weight / 2) (weightSum / 2 + weightSum % 2) = share at *
    calc share * weightSum ≤ share * (2 * (weightSum / 2 + weightSum % 2)) := Nat.mul_le_mul_left _ (by omega)
      _ = 2 * (share * (weightSum / 2 + weightSum % 2)) := by ring
      _ ≤ 2 * (value * (weight / 2)) := Nat.mul_le_mul_left 2 (ih (by omega))
      _ = value * (2 * (weight / 2)) := by ring
      _ ≤ value * weight := Nat.mul_le_mul_left _ (by omega)

theorem scaleByWeight_ok {value weight weightSum : Nat} (part : weight ≤ weightSum) :
    ∃ share, scaleByWeight value weight weightSum = some share ∧ share ≤ value * weight / weightSum := by
  refine ⟨_, if_pos part, ?_⟩
  rcases Nat.eq_zero_or_pos weightSum with rfl | positive
  · obtain rfl : weight = 0 := by omega
    rw [scaleLoop, if_pos rfl]
    exact Nat.zero_le _
  · exact (Nat.le_div_iff_mul_le positive).mpr (scaleLoop_mul_le part)

theorem mapM_scaleByWeight_ok {value weightSum : Nat} {weights : List Nat} (parts : ∀ weight ∈ weights, weight ≤ weightSum) :
    ∃ shares, weights.mapM (scaleByWeight value · weightSum) = some shares ∧
      shares.sum ≤ value * weights.sum / weightSum := by
  induction weights with
  | nil => exact ⟨[], rfl, by simp⟩
  | cons weight weights ih =>
    obtain ⟨part, parts⟩ := List.forall_mem_cons.mp parts
    obtain ⟨share, first, bound⟩ := @scaleByWeight_ok value _ _ part
    obtain ⟨shares, rest, bounds⟩ := ih parts
    refine ⟨share :: shares, by simp [first, rest], ?_⟩
    rw [List.sum_cons, List.sum_cons, mul_add]
    exact (add_le_add bound bounds).trans Nat.div_add_div_le_add_div

/-- A weight gets at most its part of the value, and weights that add up to the sum get at most the value. -/
theorem scaleByWeight_le (value weightSum : Nat) :
    (∀ weight ≤ weightSum, ∃ share, scaleByWeight value weight weightSum = some share ∧
      share ≤ value * weight / weightSum) ∧
    ∀ weights : List Nat, weights.sum = weightSum →
      ∃ shares, weights.mapM (scaleByWeight value · weightSum) = some shares ∧ shares.sum ≤ value := by
  refine ⟨fun weight => scaleByWeight_ok, ?_⟩
  rintro weights rfl
  obtain ⟨shares, done, bound⟩ := @mapM_scaleByWeight_ok value _ weights fun weight => List.le_sum_of_mem
  exact ⟨shares, done, bound.trans (Nat.div_le_of_le_mul (mul_comm _ _).le)⟩

/-- Half of the largest value, for one of two weights that are too large to multiply with it. -/
theorem scaleByWeight_le_half : ∃ share, scaleByWeight uint64Max (2 ^ 31) (2 ^ 32) = some share ∧
    share ≤ uint64Max * 2 ^ 31 / 2 ^ 32 :=
  (scaleByWeight_le uint64Max (2 ^ 32)).1 (2 ^ 31) (by decide)

end SystemdPort.Repart
