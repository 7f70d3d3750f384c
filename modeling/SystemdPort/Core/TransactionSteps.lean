/-
# Core.TransactionSteps — activation as a sequence of deletions

Until the jobs are merged, every pass of `transaction_activate()` deletes jobs one
by one.  `PassStep` is a step of a pass as its function computes it; `Drop` lists the
deletions that can happen in one, with the reason for each (`PassStep.drops`).
`prepare_cases` takes a successful `transactionPrepare` apart: steps up to a
transaction whose order was verified, steps up to one whose jobs merge, the merge,
and a last pass that drops redundant jobs.
-/
import SystemdPort.Core.TransactionBuild
import SystemdPort.Lib.Exec

namespace SystemdPort.Core

open Lib Lib.Exec Relation List

set_option autoImplicit false
set_option linter.unusedSectionVars false

variable {U : Type} [DecidableEq U]

/-- The passes that delete jobs. -/
inductive Pass where
  | minimizeImpact | dropRedundant | collectGarbage | verifyOrder | deleteUnmergeable
  deriving DecidableEq

/-- The passes that spare jobs which matter to the anchor. -/
def Pass.spares : Pass → Bool
  | minimizeImpact | verifyOrder | deleteUnmergeable => true
  | dropRedundant | collectGarbage => false

/-- One deletion that a pass makes. -/
inductive Drop (states : U → UnitActiveState) (m : Manager U) (tr : Transaction U) :
    Pass → Transaction U → Prop
  | unmarked {pass : Pass} {j : Job U} (spares : pass.spares = true) (member : j ∈ tr.jobs)
      (unmarked : j.mattersToAnchor = false) : Drop states m tr pass (transactionDeleteJob tr j.ref true)
  | redundant {j : Job U} (member : j ∈ tr.jobs)
      (all : ∀ k ∈ tr.jobs, k.unit = j.unit → keepsUnit states m tr k = false) :
      Drop states m tr .dropRedundant (transactionDeleteJob tr j.ref false)
  | garbage {j : Job U} (member : j ∈ tr.jobs) (other : tr.anchorJob ≠ some j.ref)
      (unneeded : ∀ l ∈ tr.links, l.object ≠ j.ref) :
      Drop states m tr .collectGarbage (transactionDeleteJob tr j.ref true)

/-- Some number of deletions. -/
def Drops (states : U → UnitActiveState) (m : Manager U) : Transaction U → Transaction U → Prop :=
  ReflTransGen fun tr tr' => ∃ pass, Drop states m tr pass tr'

/-- No unit has two jobs. -/
def Transaction.Single (tr : Transaction U) : Prop := (tr.jobs.map Job.unit).Nodup

/-- A job of the transaction, of a unit whose jobs are not all redundant. -/
def Stays (states : U → UnitActiveState) (m : Manager U) (tr : Transaction U) (j : Job U) : Prop :=
  j ∈ tr.jobs ∧ ∃ k ∈ tr.jobs, k.unit = j.unit ∧ keepsUnit states m tr k = true

section Runs

variable (order : HashOrder U) (states : U → UnitActiveState) (m : Manager U) (units : Units U)

/-- A step of a pass: a round of its loop, the deletion of a unit that breaks a cycle, or
of one of the jobs of a unit that do not merge. -/
def PassStep (pass : Pass) (tr tr' : Transaction U) : Prop :=
  match pass with
  | .minimizeImpact => minimizeImpactStep order states m tr = some tr'
  | .dropRedundant => dropRedundantStep order states m tr = some tr'
  | .collectGarbage => collectGarbageStep order tr = some tr'
  | .verifyOrder => transactionVerifyOrder order m units tr = .ok (tr', false)
  | .deleteUnmergeable => ∃ u, deleteOneUnmergeableJob tr (tr.unitJobs u) = .ok tr'

/-- Some number of steps. -/
def Run : Transaction U → Transaction U → Prop :=
  ReflTransGen fun tr tr' => ∃ pass, PassStep order states m units pass tr tr'

end Runs

section Steps

variable {order : HashOrder U} {states : U → UnitActiveState} {m : Manager U} {units : Units U}
  {mode : JobMode} {tr tr' : Transaction U}

variable {u : U} {j k : Job U} {pass : Pass}

theorem mem_unitJobs : j ∈ tr.unitJobs u ↔ j ∈ tr.jobs ∧ j.unit = u := by
  simp [Transaction.unitJobs]

theorem mem_of_head (found : tr.head u = some j) : j ∈ tr.jobs ∧ j.unit = u :=
  ⟨mem_of_find?_eq_some found, by simpa using find?_some found⟩

theorem exists_head (member : j ∈ tr.jobs) : ∃ h, tr.head j.unit = some h := by
  cases found : tr.head j.unit with
  | some h => exact ⟨h, rfl⟩
  | none =>
    have := find?_eq_none.mp found j member
    simp at this

theorem mem_heads : j ∈ tr.heads order ↔ j ∈ tr.jobs ∧ tr.head j.unit = some j := by
  simp only [Transaction.heads, mem_filterMap, order.mem_keys]
  constructor
  · rintro ⟨u, -, found⟩
    obtain ⟨member, unit⟩ := mem_of_head found
    exact ⟨member, unit ▸ found⟩
  · rintro ⟨member, found⟩
    exact ⟨j.unit, ⟨j, member, rfl⟩, found⟩

theorem Drop.deleted (drop : Drop states m tr pass tr') : ∃ j ∈ tr.jobs, ∃ dd, Deleted dd j.ref tr tr' := by
  cases drop with
  | redundant member _ => exact ⟨_, member, false, deleteJob_deleted tr _ false⟩
  | unmarked _ member | garbage member => exact ⟨_, member, true, deleteJob_deleted tr _ true⟩

theorem Drop.length_lt (drop : Drop states m tr pass tr') : tr'.jobs.length < tr.jobs.length := by
  obtain ⟨j, member, _, deleted⟩ := drop.deleted
  exact deleted.length_lt member rfl

theorem Drops.sublist (drops : Drops states m tr tr') : tr'.jobs.Sublist tr.jobs := by
  induction drops with
  | refl => exact List.Sublist.refl _
  | tail _ drop ih =>
    obtain ⟨pass, drop⟩ := drop
    obtain ⟨j, -, _, deleted⟩ := drop.deleted
    exact deleted.jobs_sub.trans ih

theorem minimizeImpactStep_drop (stepped : minimizeImpactStep order states m tr = some tr') :
    Drop states m tr .minimizeImpact tr' := by
  simp only [minimizeImpactStep, Option.map_eq_some_iff] at stepped
  obtain ⟨j, found, rfl⟩ := stepped
  obtain ⟨u, -, member⟩ := mem_flatMap.mp (mem_of_find?_eq_some found)
  have chosen := find?_some found
  simp only [Bool.and_eq_true, Bool.not_eq_true'] at chosen
  exact .unmarked rfl (mem_unitJobs.mp member).1 chosen.1

theorem dropRedundantStep_drop (stepped : dropRedundantStep order states m tr = some tr') :
    Drop states m tr .dropRedundant tr' := by
  simp only [dropRedundantStep, Option.map_eq_some_iff] at stepped
  obtain ⟨j, found, rfl⟩ := stepped
  refine .redundant (mem_heads.mp (mem_of_find?_eq_some found)).1 fun k hk unit => ?_
  have chosen := find?_some found
  simp only [Bool.not_eq_true', any_eq_false, Bool.not_eq_true] at chosen
  exact chosen k (mem_unitJobs.mpr ⟨hk, unit⟩)

theorem collectGarbageStep_drop (stepped : collectGarbageStep order tr = some tr') :
    Drop states m tr .collectGarbage tr' := by
  simp only [collectGarbageStep, Option.map_eq_some_iff] at stepped
  obtain ⟨j, found, rfl⟩ := stepped
  have chosen := find?_some found
  simp only [Bool.and_eq_true, decide_eq_true_eq, Bool.not_eq_true', any_eq_false] at chosen
  exact .garbage (mem_heads.mp (mem_of_find?_eq_some found)).1 chosen.1 chosen.2

/-- Deleting a unit none of whose jobs matters. -/
theorem deleteUnit_drops (unmarked : unitMattersToAnchor tr u = false) :
    ReflTransGen (fun a b => Drop states m a .verifyOrder b) tr (transactionDeleteUnit tr u) ∧
      (transactionDeleteUnit tr u).head u = none := by
  let Here := ReflTransGen (fun a b => Drop states m a .verifyOrder b) tr
  have round : ∀ a b, Here a → ((a.head u).map fun j => transactionDeleteJob a j.ref true) = some b →
      Here b ∧ b.jobs.length < a.jobs.length := by
    intro a b here stepped
    obtain ⟨j, found, rfl⟩ := Option.map_eq_some_iff.mp stepped
    obtain ⟨member, unit⟩ := mem_of_head found
    have drops : Drops states m tr a := ReflTransGen.mono (fun _ _ drop => ⟨_, drop⟩) _ _ here
    have off : j.mattersToAnchor = false := by
      simp only [unitMattersToAnchor, any_eq_false, Bool.not_eq_true] at unmarked
      exact unmarked j (mem_unitJobs.mpr ⟨drops.sublist.subset member, unit⟩)
    have drop : Drop states m a .verifyOrder (transactionDeleteJob a j.ref true) := .unmarked rfl member off
    exact ⟨here.tail drop, drop.length_lt⟩
  obtain ⟨drops, done⟩ := exhaust_rule Here (fun a : Transaction U => a.jobs.length) round _ tr .refl (le_refl _)
  exact ⟨drops, Option.map_eq_none_iff.mp done⟩

/-- Breaking a cycle deletes the jobs of a unit, none of which matters. -/
theorem verifyOrder_drops (broken : transactionVerifyOrder order m units tr = .ok (tr', false)) :
    TransGen (fun a b => Drop states m a .verifyOrder b) tr tr' := by
  unfold transactionVerifyOrder at broken
  split at broken
  · simp at broken
  · split at broken
    · rename_i k victim
      cases broken
      have chosen := find?_some victim
      simp only [Bool.and_eq_true, Bool.not_eq_true'] at chosen
      obtain ⟨drops, gone⟩ := (deleteUnit_drops chosen.2 : ReflTransGen (fun a b => Drop states m a _ b) tr _ ∧ _)
      rcases reflTransGen_iff_eq_or_transGen.mp drops with same | drops
      · rw [same] at gone
        simp [gone] at chosen
      · exact drops
    · simp at broken
  · simp at broken

theorem Drops.anchorJob_eq (drops : Drops states m tr tr') : tr'.anchorJob = tr.anchorJob := by
  induction drops with
  | refl => rfl
  | tail _ drop ih =>
    obtain ⟨pass, drop⟩ := drop
    obtain ⟨j, -, _, deleted⟩ := drop.deleted
    exact deleted.anchor.trans ih

theorem firstUnmergeable_mem {js : List (Job U)} (found : firstUnmergeable js = some (j, k)) : j ∈ js ∧ k ∈ js := by
  induction js with
  | nil => simp [firstUnmergeable] at found
  | cons x xs ih =>
    unfold firstUnmergeable at found
    split at found
    · rename_i y hit
      cases found
      exact ⟨by simp, by simp [mem_of_find?_eq_some hit]⟩
    · obtain ⟨hj, hk⟩ := ih found
      exact ⟨by simp [hj], by simp [hk]⟩

/-- The job chosen is one of the two, and does not matter to the anchor. -/
theorem unmergeableVictim_spec {d : Job U} (chosen : unmergeableVictim tr j k = some d) :
    (d = j ∨ d = k) ∧ d.mattersToAnchor = false := by
  unfold unmergeableVictim at chosen
  cases hj : j.mattersToAnchor <;> cases hk : k.mattersToAnchor <;> simp only [hj, hk] at chosen
  all_goals
    simp only [Bool.not_false, Bool.not_true, Bool.and_true, Bool.and_false, if_true, if_false, reduceCtorEq,
      Option.some.injEq] at chosen
  · split_ifs at chosen <;> simp only [Option.some.injEq] at chosen <;> subst chosen <;> simp [hj, hk]
  · subst chosen
    simp [hj]
  · subst chosen
    simp [hk]

theorem deleteOneUnmergeable_drop (deleted : deleteOneUnmergeableJob tr (tr.unitJobs u) = .ok tr') :
    Drop states m tr .deleteUnmergeable tr' := by
  unfold deleteOneUnmergeableJob at deleted
  split at deleted
  · simp at deleted
  rename_i a b pair
  split at deleted
  · simp at deleted
  rename_i d chosen
  cases deleted
  obtain ⟨ha, hb⟩ := firstUnmergeable_mem pair
  obtain ⟨which, unmarked⟩ := unmergeableVictim_spec chosen
  refine .unmarked rfl ?_ unmarked
  rcases which with rfl | rfl
  · exact (mem_unitJobs.mp ha).1
  · exact (mem_unitJobs.mp hb).1

/-- Every step makes deletions of its pass, and at least one. -/
theorem PassStep.drops (step : PassStep order states m units pass tr tr') :
    TransGen (fun a b => Drop states m a pass b) tr tr' := by
  cases pass with
  | minimizeImpact => exact .single (minimizeImpactStep_drop step)
  | dropRedundant => exact .single (dropRedundantStep_drop step)
  | collectGarbage => exact .single (collectGarbageStep_drop step)
  | verifyOrder => exact verifyOrder_drops step
  | deleteUnmergeable =>
    obtain ⟨u, deleted⟩ := step
    exact .single (deleteOneUnmergeable_drop deleted)

theorem PassStep.length_lt (step : PassStep order states m units pass tr tr') :
    tr'.jobs.length < tr.jobs.length := by
  replace step := step.drops
  induction step with
  | single drop => exact drop.length_lt
  | tail _ drop ih => exact drop.length_lt.trans ih

theorem Run.drops (run : Run order states m units tr tr') : Drops states m tr tr' := by
  induction run with
  | refl => exact .refl
  | tail _ step ih =>
    obtain ⟨pass, step⟩ := step
    exact ih.trans (ReflTransGen.mono (fun _ _ drop => ⟨pass, drop⟩) _ _ step.drops.to_reflTransGen)

/-- A loop over the jobs ends when there is nothing left to do. -/
theorem exhaust_steps {step : Transaction U → Option (Transaction U)}
    (less : ∀ a b, step a = some b → b.jobs.length < a.jobs.length) (tr : Transaction U) :
    ReflTransGen (fun a b => step a = some b) tr (exhaust step tr.jobs.length tr) ∧
      step (exhaust step tr.jobs.length tr) = none :=
  exhaust_rule _ (fun a => a.jobs.length)
    (fun a b here stepped => ⟨.tail here stepped, less a b stepped⟩) _ _ .refl (le_refl _)

theorem exhaust_run {step : Transaction U → Option (Transaction U)}
    (round : ∀ a b, step a = some b → PassStep order states m units pass a b) (tr : Transaction U) :
    Run order states m units tr (exhaust step tr.jobs.length tr) :=
  ReflTransGen.mono (fun a b stepped => ⟨pass, round a b stepped⟩) _ _
    (exhaust_steps (fun a b stepped => (round a b stepped).length_lt) tr).1

theorem collectUnlessIsolate_run : Run order states m units tr (collectUnlessIsolate order mode tr) := by
  unfold collectUnlessIsolate
  split
  · exact .refl
  · exact exhaust_run (fun a b (round : PassStep order states m units .collectGarbage a b) => round) tr

theorem orderRound_again (round : orderRound order m units mode tr = .ok (tr', false)) :
    Run order states m units tr tr' ∧ tr'.jobs.length < tr.jobs.length := by
  have collected : Run order states m units tr (collectUnlessIsolate order mode tr) := collectUnlessIsolate_run
  have step : PassStep order states m units .verifyOrder (collectUnlessIsolate order mode tr) tr' := round
  exact ⟨collected.tail ⟨_, step⟩, step.length_lt.trans_le collected.drops.sublist.length_le⟩

theorem orderRound_done (round : orderRound order m units mode tr = .ok (tr', true)) :
    Run order states m units tr tr' ∧ ∃ v, searchOrder order m units tr' = .ok v := by
  unfold orderRound transactionVerifyOrder at round
  split at round
  · rename_i v searched
    cases round
    exact ⟨collectUnlessIsolate_run, v, searched⟩
  · split at round <;> simp at round
  · simp at round

theorem checkMergeable_step {us : List U} (checked : checkMergeable states tr us = .ok (some tr')) :
    PassStep order states m units .deleteUnmergeable tr tr' := by
  induction us with
  | nil => simp [checkMergeable] at checked
  | cons u us ih =>
    unfold checkMergeable at checked
    split at checked
    · exact ih checked
    · rename_i j js list
      split at checked
      · exact ih checked
      · simp at checked
      · split at checked
        · rename_i tr₁ dropped
          cases checked
          exact ⟨u, list ▸ dropped⟩
        · simp at checked

theorem mergeRound_again (round : mergeRound order states mode tr = .ok (tr', false)) :
    Run order states m units tr tr' ∧ tr'.jobs.length < tr.jobs.length := by
  unfold mergeRound transactionMergeJobs at round
  split at round
  · simp at round
  · simp at round
  · rename_i tr₁ merged
    cases round
    split at merged
    · simp at merged
    · rename_i checked
      cases merged
      have step : PassStep order states m units .deleteUnmergeable tr tr₁ := checkMergeable_step checked
      have collected : Run order states m units tr₁ (collectUnlessIsolate order mode tr₁) := collectUnlessIsolate_run
      exact ⟨.head ⟨_, step⟩ collected, collected.drops.sublist.length_le.trans_lt step.length_lt⟩
    · split at merged <;> simp at merged

theorem mergeRound_done (round : mergeRound order states mode tr = .ok (tr', true)) :
    (order.keys tr.jobs).foldlM (mergeUnit states) tr = .ok tr' := by
  unfold mergeRound transactionMergeJobs at round
  split at round
  · simp at round
  · rename_i tr₁ merged
    cases round
    split at merged
    · simp at merged
    · simp at merged
    · split at merged <;> simp only [reduceCtorEq, Except.ok.injEq, Prod.mk.injEq, and_true] at merged
      subst merged
      assumption
  · simp at round

theorem Transaction.Single.unitJobs_cons {u : U} {j : Job U} {js : List (Job U)} (single : tr.Single)
    (list : tr.unitJobs u = j :: js) : js = [] := by
  cases js with
  | nil => rfl
  | cons k ks =>
    have units : ∀ i ∈ j :: k :: ks, i.unit = u := fun i hi => (mem_unitJobs.mp (list ▸ hi)).2
    have nodup : ((tr.unitJobs u).map Job.unit).Nodup := single.sublist (filter_sublist.map Job.unit)
    simp [list, units j (by simp), units k (by simp)] at nodup

theorem checkMergeable_single (single : tr.Single) (us : List U) : checkMergeable states tr us = .ok none := by
  induction us with
  | nil => rfl
  | cons u us ih =>
    rw [checkMergeable]
    split
    · exact ih
    · rename_i list
      rw [single.unitJobs_cons list]
      exact ih

theorem mergeUnits_single (single : tr.Single) (us : List U) : us.foldlM (mergeUnit states) tr = .ok tr := by
  induction us with
  | nil => rfl
  | cons u us ih =>
    rw [foldlM_cons, mergeUnit]
    split
    · exact ih
    · rename_i list
      rw [single.unitJobs_cons list]
      exact ih

/-- Where no unit has two jobs, there is nothing to merge. -/
theorem mergeRound_single (single : tr.Single) : mergeRound order states mode tr = .ok (tr, true) := by
  simp only [mergeRound, transactionMergeJobs, checkMergeable_single single, mergeUnits_single single]

theorem dropRedundantStep_eq_none_iff :
    dropRedundantStep order states m tr = none ↔ ∀ j ∈ tr.jobs, Stays states m tr j := by
  have any : ∀ u, (tr.unitJobs u).any (keepsUnit states m tr) = true ↔
      ∃ k ∈ tr.jobs, k.unit = u ∧ keepsUnit states m tr k = true := by
    simp [Transaction.unitJobs]
  simp only [dropRedundantStep, Option.map_eq_none_iff, find?_eq_none, Bool.not_eq_true', Bool.not_eq_false, any]
  constructor
  · intro kept j hj
    obtain ⟨h, head⟩ := exists_head hj
    obtain ⟨member, unit⟩ := mem_of_head head
    exact ⟨hj, unit ▸ kept h (mem_heads.mpr ⟨member, unit ▸ head⟩)⟩
  · intro kept j hj
    exact (kept j (mem_heads.mp hj).1).2

theorem prepare_cases (done : transactionPrepare order states m units mode tr = .ok tr') :
    ∃ dropped verified mergeable merged,
      Run order states m units (transactionFindJobsThatMatterToAnchor tr) dropped ∧
      (∀ j ∈ dropped.jobs, Stays states m dropped j) ∧ Run order states m units dropped verified ∧
      (∃ v, searchOrder order m units verified = .ok v) ∧ Run order states m units verified mergeable ∧
      (order.keys mergeable.jobs).foldlM (mergeUnit states) mergeable = .ok merged ∧
      tr' = transactionDropRedundant order states m merged ∧ (verified.Single → merged = verified) := by
  set marked := transactionFindJobsThatMatterToAnchor tr
  set minimized := if mode = .fail then transactionMinimizeImpact order states m marked else marked
    with hmin
  have first : Run order states m units marked minimized := by
    rw [hmin]
    split
    · exact exhaust_run (fun a b (round : PassStep order states m units .minimizeImpact a b) => round) marked
    · exact .refl
  have second : Run order states m units minimized (transactionDropRedundant order states m minimized) :=
    exhaust_run (fun a b (round : PassStep order states m units .dropRedundant a b) => round) minimized
  set dropped := transactionDropRedundant order states m minimized
  obtain ⟨verified, ordered, done⟩ := except_bind_eq_ok.mp done
  obtain ⟨merged, mergedOk, done⟩ := except_bind_eq_ok.mp done
  dsimp only at done
  split at done <;> cases done
  obtain ⟨c, here, finished⟩ := retry_rule (Run order states m units dropped) (fun a => a.jobs.length)
    (fun a b here round =>
      have again : Run order states m units a b ∧ _ := orderRound_again round
      ⟨here.trans again.1, again.2⟩) _ _ _ .refl (le_refl _) ordered
  obtain ⟨rest, searched⟩ : Run order states m units _ _ ∧ _ := orderRound_done finished
  obtain ⟨mergeable, here', finished'⟩ := retry_rule (Run order states m units verified)
    (fun a => a.jobs.length)
    (fun a b here round =>
      have again : Run order states m units a b ∧ _ := mergeRound_again round
      ⟨here.trans again.1, again.2⟩) _ _ _ .refl (le_refl _) mergedOk
  refine ⟨dropped, verified, mergeable, merged, first.trans second, ?_, here.trans rest, searched, here',
    mergeRound_done finished', rfl, fun single => ?_⟩
  · exact dropRedundantStep_eq_none_iff.mp
      (exhaust_steps (fun a b step => (dropRedundantStep_drop step).length_lt) minimized).2
  · have once : mergeRound order states mode verified = .ok (verified, true) := mergeRound_single single
    cases count : verified.jobs.length <;> simpa [count, retry, once] using mergedOk.symm

end Steps

end SystemdPort.Core
