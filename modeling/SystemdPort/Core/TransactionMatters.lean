/-
# Core.TransactionMatters — what matters to the anchor is protected

`transaction_activate()` first marks what the anchor job needs by links that
matter.  The marks are closed under those links (`markJobs_guarded`), so a job that
is not marked has no marked dependents, and deleting it with its dependents takes
no marked job away (`Drop.unmarked_keeps`).

Two passes delete marked jobs all the same: a redundant job goes whether it is
marked or not, and what only a redundant job needed goes as garbage.  `Spared`
says for each pass what it may delete, `matters_protected` that activation keeps to
it and that the anchor job is there at the end.
-/
import SystemdPort.Core.TransactionMerge

namespace SystemdPort.Core

open Lib Relation List

set_option autoImplicit false
set_option linter.unusedSectionVars false

variable {U : Type} [DecidableEq U]

/-- What a marked job needs by a link that matters is marked. -/
def Transaction.Closed (tr : Transaction U) : Prop :=
  ∀ l ∈ tr.links, l.matters = true → ∀ j ∈ tr.jobs, j.ref = l.subject → j.mattersToAnchor = true →
    ∃ k ∈ tr.jobs, k.ref = l.object ∧ k.mattersToAnchor = true

/-- A well-formed transaction whose marks are closed and contain the anchor. -/
structure Transaction.Guarded (m : Manager U) (tr : Transaction U) : Prop extends tr.Wf m where
  closed : tr.Closed
  anchorMarked : ∀ j ∈ tr.jobs, tr.anchorJob = some j.ref → j.mattersToAnchor = true

/-- What a pass may delete in a step from `a` to `b`.  A pass that spares marked jobs
deletes none of them; a redundant job goes with a unit none of whose jobs is the
anchor, does anything or changes an installed job; garbage is not the anchor and
nothing needs it. -/
def Spared (states : U → UnitActiveState) (m : Manager U) (pass : Pass) (a b : Transaction U) : Prop :=
  match pass with
  | .minimizeImpact | .verifyOrder | .deleteUnmergeable =>
    ∀ j ∈ a.jobs, j.mattersToAnchor = true → j ∈ b.jobs
  | .dropRedundant =>
    ∀ j ∈ a.jobs, j ∉ b.jobs → ∀ k ∈ a.jobs, k.unit = j.unit →
      a.anchorJob ≠ some k.ref ∧ jobTypeIsRedundant k.type (states k.unit) = true ∧
        changesExistingJob m k = false
  | .collectGarbage =>
    ∀ j ∈ a.jobs, j ∉ b.jobs → a.anchorJob ≠ some j.ref ∧ ∀ l ∈ a.links, l.object ≠ j.ref

section Matters

variable {states : U → UnitActiveState} {m : Manager U} {tr tr' : Transaction U}

theorem edge_mattering_iff (x y : Nat) : Edge tr.mattering x y ↔ Requires tr.links x y := by
  simp only [Edge, Transaction.mattering, mem_map, mem_filter, Bool.and_eq_true, decide_eq_true_eq]
  constructor
  · rintro ⟨l, ⟨hl, subject, matters⟩, object⟩
    exact ⟨l, hl, matters, subject, object⟩
  · rintro ⟨l, hl, matters, subject, object⟩
    exact ⟨l, ⟨hl, subject, matters⟩, object⟩

/-- Marking marks the anchor job and what it needs, and nothing else. -/
theorem markJobs_spec (built : tr.Built m) : ∃ anchor ∈ tr.jobs, tr.anchorJob = some anchor.ref ∧
      ∃ mark : Job U → Job U, transactionFindJobsThatMatterToAnchor tr = { tr with jobs := tr.jobs.map mark } ∧
        ∀ j ∈ tr.jobs, (mark j = j ∨ mark j = { j with mattersToAnchor := true }) ∧
          ((mark j).mattersToAnchor = true ↔ ReflTransGen (Requires tr.links) anchor.ref j.ref) := by
  obtain ⟨anchor, member, isAnchor⟩ := built.anchor
  have inside : ∀ x ∈ tr.jobs.map Job.ref, ∀ y ∈ tr.mattering x, y ∈ tr.jobs.map Job.ref := by
    intro x _ y hy
    obtain ⟨l, hl, -, -, rfl⟩ := (edge_mattering_iff x y).mp hy
    obtain ⟨k, hk, same⟩ := (built.links l hl).2
    exact mem_map.mpr ⟨k, hk, same⟩
  have reach : ∀ y, y ∈ sweep tr.mattering tr.jobs.length [] anchor.ref ↔
      ReflTransGen (Requires tr.links) anchor.ref y := by
    intro y
    have := mem_sweep_iff inside (y := y) (mem_map_of_mem member)
    rw [length_map] at this
    rw [this]
    constructor
    · exact ReflTransGen.mono (fun a b => (edge_mattering_iff a b).mp) _ _
    · exact ReflTransGen.mono (fun a b => (edge_mattering_iff a b).mpr) _ _
  refine ⟨anchor, member, isAnchor, fun j =>
    if j.ref ∈ sweep tr.mattering tr.jobs.length [] anchor.ref then { j with mattersToAnchor := true }
    else j, ?_, fun j hj => ?_⟩
  · simp [transactionFindJobsThatMatterToAnchor, isAnchor]
  · rw [← reach]
    by_cases marked : j.ref ∈ sweep tr.mattering tr.jobs.length [] anchor.ref
    · simp [marked]
    · simp [marked, built.unmarked j hj]

/-- After marking, the marks are closed. -/
theorem markJobs_guarded (built : tr.Built m) : (transactionFindJobsThatMatterToAnchor tr).Guarded m := by
  obtain ⟨anchor, member, isAnchor, mark, result, marks⟩ := markJobs_spec built
  rw [result]
  have ref : ∀ j ∈ tr.jobs, (mark j).ref = j.ref ∧ (mark j).installable = j.installable := by
    intro j hj
    rcases (marks j hj).1 with same | same <;> rw [same] <;> exact ⟨rfl, rfl⟩
  have refs : (tr.jobs.map mark).map Job.ref = tr.jobs.map Job.ref := by
    rw [List.map_map]
    exact map_congr_left fun j hj => (ref j hj).1
  have exists_mark : ∀ r, (∃ j ∈ tr.jobs, j.ref = r) → ∃ j ∈ tr.jobs.map mark, j.ref = r := by
    rintro r ⟨j, hj, rfl⟩
    exact ⟨mark j, mem_map_of_mem hj, (ref j hj).1⟩
  refine ⟨⟨?_, ?_, ?_, ?_, ?_⟩, ?_, ?_⟩
  · unfold Keyed.Unique
    rw [refs]
    exact built.unique
  · intro j' hj'
    obtain ⟨j, hj, rfl⟩ := mem_map.mp hj'
    rw [(ref j hj).1]
    exact built.fresh j hj
  · intro l hl
    exact ⟨exists_mark _ (built.links l hl).1, exists_mark _ (built.links l hl).2⟩
  · obtain ⟨j, hj, same⟩ := exists_mark anchor.ref ⟨anchor, member, rfl⟩
    exact ⟨j, hj, by rw [same]; exact isAnchor⟩
  · intro j' hj'
    obtain ⟨j, hj, rfl⟩ := mem_map.mp hj'
    rw [(ref j hj).2]
    exact built.installable j hj
  · intro l hl matters j' hj' subject marked
    obtain ⟨j, hj, rfl⟩ := mem_map.mp hj'
    obtain ⟨k, hk, object⟩ := (built.links l hl).2
    refine ⟨mark k, mem_map_of_mem hk, (ref k hk).1.trans object, ?_⟩
    rw [(marks k hk).2, object]
    rw [(marks j hj).2] at marked
    exact marked.tail ⟨l, hl, matters, by rw [← subject, (ref j hj).1], rfl⟩
  · intro j' hj' isAnchor'
    obtain ⟨j, hj, rfl⟩ := mem_map.mp hj'
    rw [(marks j hj).2]
    have same : anchor.ref = j.ref := by
      rw [(ref j hj).1] at isAnchor'
      exact Option.some.inj (isAnchor.symm.trans isAnchor')
    rw [same]

/-- Marks follow chains of links that matter. -/
theorem Transaction.Guarded.chain (guarded : tr.Guarded m) {j : Job U} (member : j ∈ tr.jobs)
    (marked : j.mattersToAnchor = true) {r : Nat} (chain : ReflTransGen (Requires tr.links) j.ref r) :
    ∃ k ∈ tr.jobs, k.ref = r ∧ k.mattersToAnchor = true := by
  induction chain with
  | refl => exact ⟨j, member, rfl, marked⟩
  | tail _ needs ih =>
    obtain ⟨l, hl, matters, rfl, rfl⟩ := needs
    obtain ⟨k, hk, same, on⟩ := ih
    exact guarded.closed l hl matters k hk same on

/-- Deleting an unmarked job takes no marked one with it. -/
theorem Drop.unmarked_keeps (guarded : tr.Guarded m) {d : Job U} (member : d ∈ tr.jobs)
    (unmarked : d.mattersToAnchor = false) {j : Job U} (hj : j ∈ tr.jobs)
    (marked : j.mattersToAnchor = true) : j ∈ (transactionDeleteJob tr d.ref true).jobs := by
  rw [mem_deleteJob_iff guarded.toWf]
  refine ⟨hj, fun chain => ?_⟩
  obtain ⟨k, hk, same, on⟩ := guarded.chain hj marked chain
  rw [guarded.unique.eq hk member same, unmarked] at on
  simp at on

/-- Marks stay closed when no job is left that needs a deleted one. -/
theorem Deleted.guarded {dd : Bool} {r : Nat} (guarded : tr.Guarded m) (deleted : Deleted dd r tr tr')
    (anchor : ∀ j ∈ tr.jobs, tr.anchorJob = some j.ref → j ∈ tr'.jobs)
    (kept : ∀ l ∈ tr'.links, ∀ k ∈ tr.jobs, k.ref = l.object → k.mattersToAnchor = true → k ∈ tr'.jobs) :
    tr'.Guarded m := by
  obtain ⟨a, ha, isAnchor⟩ := guarded.anchor
  have wf : tr'.Wf m := deleted.wf guarded.toWf ⟨a, anchor a ha isAnchor, by rw [deleted.anchor]; exact isAnchor⟩
  refine ⟨wf, fun l hl matters j hj subject on => ?_, fun j hj isAnchor' => ?_⟩
  · obtain ⟨k, hk, object, on'⟩ := guarded.closed l (deleted.links_sub.subset hl) matters j
      (deleted.jobs_sub.subset hj) subject on
    exact ⟨k, kept l hl k hk object on', object, on'⟩
  · rw [deleted.anchor] at isAnchor'
    exact guarded.anchorMarked j (deleted.jobs_sub.subset hj) isAnchor'

/-- A redundant job goes alone, and the anchor job is not one. -/
theorem redundant_spared (unique : Keyed.Unique Job.ref tr.jobs) (drop : Drop states m tr .dropRedundant tr') :
    Spared states m .dropRedundant tr tr' ∧ ∀ j ∈ tr.jobs, tr.anchorJob = some j.ref → j ∈ tr'.jobs := by
  cases drop with
  | unmarked spares _ _ => simp [Pass.spares] at spares
  | @redundant d member all =>
    have alone : ∀ j, j ∈ (transactionDeleteJob tr d.ref false).jobs ↔ _ := mem_deleteJob_alone (Or.inl rfl)
    have reasons : ∀ k ∈ tr.jobs, k.unit = d.unit → tr.anchorJob ≠ some k.ref ∧
        jobTypeIsRedundant k.type (states k.unit) = true ∧ changesExistingJob m k = false := by
      intro k hk unit
      simpa [keepsUnit, and_assoc] using all k hk unit
    refine ⟨fun j hj gone k hk unit => ?_, fun j hj isAnchor => ?_⟩
    · have same : j.ref = d.ref := by
        by_contra ne
        exact gone ((alone j).mpr ⟨hj, ne⟩)
      rw [unique.eq hj member same] at unit
      exact reasons k hk unit
    · refine (alone j).mpr ⟨hj, fun same => ?_⟩
      rw [unique.eq hj member same] at isAnchor
      exact (reasons d member rfl).1 isAnchor

/-- Every drop deletes only what its pass may, and keeps the marks closed. -/
theorem Drop.guarded {pass : Pass} (guarded : tr.Guarded m) (drop : Drop states m tr pass tr') :
    tr'.Guarded m ∧ Spared states m pass tr tr' := by
  cases drop with
  | @unmarked pass d spares member unmarked =>
    have kept : ∀ j ∈ tr.jobs, j.mattersToAnchor = true →
        j ∈ (transactionDeleteJob tr d.ref true).jobs := fun j hj on =>
      Drop.unmarked_keeps guarded member unmarked hj on
    refine ⟨Deleted.guarded guarded (deleteJob_deleted tr d.ref true)
      (fun j hj isAnchor => kept j hj (guarded.anchorMarked j hj isAnchor))
      (fun _ _ k hk _ on => kept k hk on), ?_⟩
    cases pass with
    | minimizeImpact | verifyOrder | deleteUnmergeable => exact kept
    | dropRedundant | collectGarbage => simp [Pass.spares] at spares
  | @redundant d member all =>
    have drop : Drop states m tr .dropRedundant (transactionDeleteJob tr d.ref false) := .redundant member all
    have deleted := deleteJob_deleted tr d.ref false
    have alone : ∀ j, j ∈ (transactionDeleteJob tr d.ref false).jobs ↔ _ := mem_deleteJob_alone (Or.inl rfl)
    refine ⟨Deleted.guarded guarded deleted (redundant_spared guarded.unique drop).2
      (fun l hl k hk object _ => ?_), (redundant_spared guarded.unique drop).1⟩
    exact (alone k).mpr ⟨hk, fun same => deleted.unlinked l hl (object.symm.trans same)⟩
  | @garbage d member other unneeded =>
    have deleted := deleteJob_deleted tr d.ref true
    have alone : ∀ j, j ∈ (transactionDeleteJob tr d.ref true).jobs ↔ _ := mem_deleteJob_alone (Or.inr unneeded)
    refine ⟨Deleted.guarded guarded deleted (fun j hj isAnchor => ?_)
      (fun l hl k hk object _ => ?_), fun j hj gone => ?_⟩
    · refine (alone j).mpr ⟨hj, fun same => other ?_⟩
      rwa [← same]
    · exact (alone k).mpr ⟨hk, fun same => deleted.unlinked l hl (object.symm.trans same)⟩
    · have same : j.ref = d.ref := by
        by_contra ne
        exact gone ((alone j).mpr ⟨hj, ne⟩)
      exact same ▸ ⟨other, unneeded⟩

/-- So does every step of a pass. -/
theorem PassStep.guarded {order : HashOrder U} {units : Units U} {pass : Pass} (guarded : tr.Guarded m)
    (step : PassStep order states m units pass tr tr') : tr'.Guarded m ∧ Spared states m pass tr tr' := by
  have spared : ∀ {a b c : Transaction U}, (∀ j ∈ a.jobs, j.mattersToAnchor = true → j ∈ b.jobs) →
      (∀ j ∈ b.jobs, j.mattersToAnchor = true → j ∈ c.jobs) → ∀ j ∈ a.jobs, j.mattersToAnchor = true → j ∈ c.jobs :=
    fun first rest j hj on => rest j (first j hj on) on
  cases pass with
  | minimizeImpact => exact Drop.guarded guarded (minimizeImpactStep_drop step)
  | dropRedundant => exact Drop.guarded guarded (dropRedundantStep_drop step)
  | collectGarbage => exact Drop.guarded guarded (collectGarbageStep_drop step)
  | deleteUnmergeable =>
    obtain ⟨u, deleted⟩ := step
    exact Drop.guarded guarded (deleteOneUnmergeable_drop deleted)
  | verifyOrder =>
    -- the jobs of the unit are deleted one by one
    replace step := step.drops
    induction step with
    | single drop => exact Drop.guarded guarded drop
    | tail _ drop ih =>
      obtain ⟨guarded', kept⟩ := Drop.guarded ih.1 drop
      exact ⟨guarded', spared ih.2 kept⟩

theorem Run.guarded {order : HashOrder U} {units : Units U} (guarded : tr.Guarded m)
    (run : Run order states m units tr tr') : tr'.Guarded m := by
  induction run with
  | refl => exact guarded
  | tail _ step ih =>
    obtain ⟨pass, step⟩ := step
    exact (PassStep.guarded ih step).1

/-- Redundant jobs dropped after the merge: the anchor job stays. -/
theorem redundantDrops_keep {order : HashOrder U} (unique : Keyed.Unique Job.ref tr.jobs)
    (steps : ReflTransGen (fun a b => dropRedundantStep order states m a = some b) tr tr') :
    Keyed.Unique Job.ref tr'.jobs ∧ tr'.anchorJob = tr.anchorJob ∧
      ∀ j ∈ tr.jobs, tr.anchorJob = some j.ref → j ∈ tr'.jobs := by
  induction steps with
  | refl => exact ⟨unique, rfl, fun _ hj _ => hj⟩
  | tail _ step ih =>
    obtain ⟨unique', same, kept⟩ := ih
    have drop := dropRedundantStep_drop step
    obtain ⟨d, -, _, deleted⟩ := drop.deleted
    refine ⟨unique'.sublist (deleted.jobs_sub.map Job.ref), deleted.anchor.trans same, ?_⟩
    intro j hj isAnchor
    exact (redundant_spared unique' drop).2 j (kept j hj isAnchor) (same.trans isAnchor)

end Matters

/-! ## The whole preparation -/

/-- Marks are closed until jobs are merged, and each pass deletes only what it may; merging leaves every
unit with a marked job one, and the anchor job is still there. -/
theorem matters_protected {sys : System U} {order : HashOrder U} {depth nextRef : Nat} {m : Manager U}
    {req : Request U} {tr final : Transaction U} (older : ∀ x j, m.find x = some j → x < nextRef)
    (built : buildTransaction sys depth m nextRef req = some (.ok tr))
    (done : transactionPrepare order sys.state m sys.units req.mode tr = .ok final) :
    let marked := transactionFindJobsThatMatterToAnchor tr
    marked.Closed ∧ ∃ mergeable merged,
      Run order sys.state m sys.units marked mergeable ∧
      (order.keys mergeable.jobs).foldlM (mergeUnit sys.state) mergeable = .ok merged ∧
      ReflTransGen (fun a b => dropRedundantStep order sys.state m a = some b) merged final ∧
      (∀ a b pass, Run order sys.state m sys.units marked a → PassStep order sys.state m sys.units pass a b →
        a.Closed ∧ b.Closed ∧ Spared sys.state m pass a b) ∧
      (∀ j ∈ mergeable.jobs, j.mattersToAnchor = true →
        ∃ k ∈ merged.jobs, k.unit = j.unit ∧ k.mattersToAnchor = true) ∧
      (∀ a b, ReflTransGen (fun a b => dropRedundantStep order sys.state m a = some b) merged a →
        dropRedundantStep order sys.state m a = some b → Spared sys.state m .dropRedundant a b) ∧
      ∃ a ∈ tr.jobs, tr.anchorJob = some a.ref ∧ ∃ j ∈ final.jobs, j.ref = a.ref ∧ j.unit = a.unit := by
  have well := buildTransaction_built older built
  have guarded := markJobs_guarded well
  obtain ⟨_, verified, mergeable, merged, first, -, second, -, third, mergedOk, rfl, -⟩ := prepare_cases done
  have run := (first.trans second).trans third
  have unique := (Run.guarded guarded run).unique
  obtain ⟨unique', -, marks⟩ := mergeUnits_keeps unique mergedOk
  have last : ReflTransGen _ merged (transactionDropRedundant order sys.state m merged) :=
    (exhaust_steps (fun a b step => (dropRedundantStep_drop step).length_lt) merged).1
  refine ⟨guarded.closed, mergeable, merged, run, mergedOk, last, ?_, marks.marks, ?_, ?_⟩
  · intro a b pass path step
    have here := Run.guarded guarded path
    have next := PassStep.guarded here step
    exact ⟨here.closed, next.1.closed, next.2⟩
  · intro a b path step
    exact (redundant_spared (redundantDrops_keep unique' path).1 (dropRedundantStep_drop step)).1
  · obtain ⟨a, ha, isAnchor, mark, result, marked⟩ := markJobs_spec well
    have anchorJob : mergeable.anchorJob = some a.ref := by
      rwa [Drops.anchorJob_eq (Run.drops run), result]
    obtain ⟨j, hj, isAnchor'⟩ := (Run.guarded guarded run).anchor
    have ref : j.ref = a.ref := Option.some.inj (isAnchor'.symm.trans anchorJob)
    have unit : j.unit = a.unit := by
      have inside := (Drops.sublist (Run.drops run)).subset hj
      rw [result] at inside
      obtain ⟨a', ha', rfl⟩ := mem_map.mp inside
      have refs : (mark a').ref = a'.ref ∧ (mark a').unit = a'.unit := by
        rcases (marked a' ha').1 with same | same <;> simp [same]
      rw [refs.2, well.unique.eq ha' ha (refs.1.symm.trans ref)]
    obtain ⟨s, hs, sRef, sUnit⟩ := marks.anchor j hj isAnchor'
    obtain ⟨-, -, kept⟩ := redundantDrops_keep unique' last
    have stays := kept s hs (by rw [marks.anchorJob, isAnchor', sRef])
    exact ⟨a, ha, isAnchor, s, stays, sRef.trans ref, sUnit.trans unit⟩

/-! ## A chain of requirements

`a` requires `b`, which requires `c`; `b` is active although `c` is not. -/

inductive ChainUnit where
  | a | b | c
  deriving DecidableEq

def requiresChain : System ChainUnit where
  units :=
    { dependencies
        | .pullInStart, .a => [.b]
        | .pullInStart, .b => [.c]
        | .propagateStop, .b | .propagateRestart, .b | .propagateStartFailure, .b => [.a]
        | .propagateStop, .c | .propagateRestart, .c | .propagateStartFailure, .c => [.b]
        | _, _ => []
      after_iff_before := by intro u v; cases u <;> cases v <;> decide }
  allUnits := [.a, .b, .c]
  state u := if u = .b then .active else .inactive

/-- `systemctl start a`: the start of `c` is needed and not redundant, but it was
pulled in only by the start of `b`, which is redundant, and is collected with it. -/
theorem requiresChain_job_collected : ∃ tr final,
    buildTransaction requiresChain 4 {} 1 ⟨.start, .a, .replace⟩ = some (.ok tr) ∧
    transactionPrepare .newestFirst requiresChain.state {} requiresChain.units .replace tr = .ok final ∧
    ∃ j ∈ (transactionFindJobsThatMatterToAnchor tr).jobs, j.mattersToAnchor = true ∧
      jobTypeIsRedundant j.type (requiresChain.state j.unit) = false ∧ j.unit ∉ final.jobs.map Job.unit :=
  ⟨_, _, rfl, rfl, by decide⟩

theorem requiresChain_prepares : ∃ tr final,
    buildTransaction requiresChain 4 {} 1 ⟨.start, .a, .replace⟩ = some (.ok tr) ∧
    transactionPrepare .newestFirst requiresChain.state {} requiresChain.units .replace tr = .ok final :=
  ⟨_, _, rfl, rfl⟩

theorem requiresChain_anchor_kept : ∃ tr final,
    buildTransaction requiresChain 4 {} 1 ⟨.start, .a, .replace⟩ = some (.ok tr) ∧
    transactionPrepare .newestFirst requiresChain.state {} requiresChain.units .replace tr = .ok final ∧
    (transactionFindJobsThatMatterToAnchor tr).Closed ∧
    ∃ a ∈ tr.jobs, tr.anchorJob = some a.ref ∧ ∃ j ∈ final.jobs, j.ref = a.ref ∧ j.unit = a.unit := by
  obtain ⟨tr, final, built, done⟩ := requiresChain_prepares
  obtain ⟨closed, _, _, -, -, -, -, -, -, anchor⟩ :=
    matters_protected (by simp [Manager.find, Keyed.lookup]) built done
  exact ⟨tr, final, built, done, closed, anchor⟩

end SystemdPort.Core
