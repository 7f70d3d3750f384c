/-
# Core.JobMerge — merging the jobs of a unit, in any order

`job_type_merge_and_collapse()` is folded over the jobs of a unit in whatever order they
are linked.  A merged type merges with another one exactly if both types it was made of do
(`mergeable_merged`), and two types can be merged in either order (`merge_right_comm`), the
collapse after each merge included.  So the fold depends on the types alone.
-/
import SystemdPort.Core.TransactionMerge

namespace SystemdPort.Core

open Lib List

set_option autoImplicit false
set_option linter.unusedSectionVars false

variable {ts : List JobType}

/-! ## Types -/

section Types

variable {s : UnitActiveState}

/-- `job_type_merge_and_collapse()` for one type after the other. -/
def mergeFold (s : UnitActiveState) (t : JobType) (ts : List JobType) : Option JobType :=
  ts.foldlM (fun t k => jobTypeMergeAndCollapse t k s) t

theorem mergeFold_cons (t k : JobType) (ts : List JobType) :
    mergeFold s t (k :: ts) = (jobTypeMergeAndCollapse t k s).bind fun t => mergeFold s t ts := by
  rfl

theorem merge_comm : ∀ (a b : JobType) (s : UnitActiveState),
    jobTypeMergeAndCollapse a b s = jobTypeMergeAndCollapse b a s := by
  decide

theorem merge_right_comm : ∀ (t a b : JobType) (s : UnitActiveState), a.isMerging → b.isMerging →
    ((jobTypeMergeAndCollapse t a s).bind fun t => jobTypeMergeAndCollapse t b s) =
      (jobTypeMergeAndCollapse t b s).bind fun t => jobTypeMergeAndCollapse t a s := by
  decide

theorem mergeable_merged : ∀ (a b c : JobType) (s : UnitActiveState),
    a.isMerging → b.isMerging → c.isMerging → ∀ t ∈ jobTypeMergeAndCollapse a b s,
      (jobTypeIsMergeable t c ↔ jobTypeIsMergeable a c ∧ jobTypeIsMergeable b c) := by
  decide

variable {t : JobType} {ts' : List JobType}

theorem mergeFold_swap {a b : JobType} (ha : a.isMerging) (hb : b.isMerging) :
    mergeFold s t (a :: b :: ts) = mergeFold s t (b :: a :: ts) := by
  have swapped := congrArg (Option.bind · fun t => mergeFold s t ts) (merge_right_comm t a b s ha hb)
  simpa only [mergeFold_cons, Option.bind_assoc] using swapped

theorem mergeFold_perm (same : ts.Perm ts') (merging : ∀ k ∈ ts, k.isMerging) (t : JobType) :
    mergeFold s t ts = mergeFold s t ts' := by
  induction same generalizing t with
  | nil => rfl
  | cons k _ ih =>
    rw [mergeFold_cons]
    congr 1
    funext t'
    exact ih (fun x hx => merging x (mem_cons_of_mem k hx)) t'
  | swap a b _ => exact mergeFold_swap (merging b (by simp)) (merging a (by simp))
  | trans first _ ih ih' =>
    rw [ih merging t]
    exact ih' (fun x hx => merging x (first.mem_iff.mpr hx)) t

/-- The first type of the list, merged with the others. -/
def mergeList (s : UnitActiveState) : List JobType → Option JobType
  | [] => none
  | t :: ts => mergeFold s t ts

theorem mergeList_perm (same : ts.Perm ts') (merging : ∀ k ∈ ts, k.isMerging) : mergeList s ts = mergeList s ts' := by
  induction same with
  | nil => rfl
  | cons k rest _ => exact mergeFold_perm rest (fun x hx => merging x (mem_cons_of_mem k hx)) k
  | swap a b _ => rw [mergeList, mergeList, mergeFold_cons, mergeFold_cons, merge_comm]
  | trans first _ ih ih' =>
    rw [ih merging]
    exact ih' fun x hx => merging x (first.mem_iff.mpr hx)

/-- The fold succeeds exactly if every two of the types merge. -/
theorem mergeFold_isSome_iff (merging : ∀ k ∈ t :: ts, k.isMerging) :
    (mergeFold s t ts).isSome ↔ (t :: ts).Pairwise fun a b => jobTypeIsMergeable a b := by
  induction ts generalizing t with
  | nil => simp [mergeFold]
  | cons k ts ih =>
    have ht : t.isMerging := merging t (by simp)
    have hk : k.isMerging := merging k (by simp)
    rw [mergeFold_cons]
    cases first : jobTypeMergeAndCollapse t k s with
    | none =>
      -- the second type does not merge with the first
      have apart : ¬ jobTypeIsMergeable t k := by
        simpa [jobTypeIsMergeable, jobTypeMergeAndCollapse] using first
      simp [apart]
    | some t' =>
      have together : jobTypeIsMergeable t k := by
        rw [jobTypeMergeAndCollapse, Option.map_eq_some_iff] at first
        obtain ⟨t'', merged, -⟩ := first
        rw [jobTypeIsMergeable, merged]
        rfl
      have ht' : t'.isMerging := (merge_orderClass t k s ht hk t' first).1
      have rest : ∀ x ∈ t' :: ts, x.isMerging := forall_mem_cons.mpr ⟨ht', fun x hx => merging x (by simp [hx])⟩
      have both : (∀ x ∈ ts, jobTypeIsMergeable t' x) ↔
          (∀ x ∈ ts, jobTypeIsMergeable t x) ∧ ∀ x ∈ ts, jobTypeIsMergeable k x := by
        rw [← forall₂_and]
        refine forall₂_congr fun x hx => ?_
        exact mergeable_merged t k x s ht hk (merging x (by simp [hx])) t' first
      rw [Option.bind_some, ih rest, pairwise_cons, pairwise_cons, pairwise_cons, forall_mem_cons]
      tauto

theorem mergeList_eq_none_iff (nonempty : ts ≠ []) (merging : ∀ k ∈ ts, k.isMerging) :
    mergeList s ts = none ↔ ¬ ts.Pairwise fun a b => jobTypeIsMergeable a b := by
  cases ts with
  | nil => exact absurd rfl nonempty
  | cons t ts => rw [← mergeFold_isSome_iff (s := s) merging, mergeList, Option.not_isSome_iff_eq_none]

end Types

/-! ## Jobs -/

variable {U : Type} [DecidableEq U]

section Jobs

variable {states : U → UnitActiveState} {tr : Transaction U}

variable {s : UnitActiveState} {t : JobType} {js : List (Job U)} {u : U} {j : Job U} {us : List U}
  {tr' : Transaction U}

theorem mergeTypes_eq {ks : List (Job U)} (ht : t.isMerging) (merging : ∀ k ∈ ks, k.type.isMerging) :
    mergeTypes s t ks = match mergeFold s t (ks.map Job.type) with
      | some t' => .merged t'
      | none => .unmergeable := by
  induction ks generalizing t with
  | nil => rfl
  | cons k ks ih =>
    have hk : k.type.isMerging := merging k (by simp)
    rw [mergeTypes, map_cons, mergeFold_cons]
    simp only [ht, hk]
    cases first : jobTypeMergeAndCollapse t k.type s with
    | none => rfl
    | some t' =>
      exact ih (merge_orderClass t k.type s ht hk t' first).1 fun x hx => merging x (mem_cons_of_mem k hx)

theorem firstUnmergeable_eq_none_iff :
    firstUnmergeable js = none ↔ (js.map Job.type).Pairwise fun a b => jobTypeIsMergeable a b := by
  induction js with
  | nil => simp [firstUnmergeable]
  | cons j js ih =>
    rw [firstUnmergeable, map_cons, pairwise_cons]
    cases found : js.find? fun k => !jobTypeIsMergeable j.type k.type with
    | none =>
      have all : ∀ t ∈ js.map Job.type, jobTypeIsMergeable j.type t := by
        intro t ht
        obtain ⟨k, hk, rfl⟩ := mem_map.mp ht
        simpa using find?_eq_none.mp found k hk
      exact ih.trans (iff_and_self.mpr fun _ => all)
    | some k =>
      have apart := find?_some found
      simp only [Bool.not_eq_true'] at apart
      simp only [reduceCtorEq, false_iff, not_and]
      intro all
      have := all k.type (mem_map_of_mem (mem_of_find?_eq_some found))
      simp [apart] at this

theorem mergeable_symm : ∀ a b : JobType, jobTypeIsMergeable a b → jobTypeIsMergeable b a := by
  decide

/-- Every two of the jobs merge. -/
def AllMerge (js : List (Job U)) : Prop :=
  (js.map Job.type).Pairwise fun a b => jobTypeIsMergeable a b

theorem AllMerge.perm {js' : List (Job U)} (all : AllMerge js) (same : js.Perm js') : AllMerge js' :=
  (same.map Job.type).pairwise all fun merges => mergeable_symm _ _ merges

theorem mem_of_unitJobs_eq (list : tr.unitJobs u = j :: js) : ∀ k ∈ j :: js, k ∈ tr.jobs ∧ k.unit = u := by
  intro k hk
  rw [← list] at hk
  exact mem_unitJobs.mp hk

/-- The jobs that share a unit are of the types that the merging table covers. -/
def Transaction.SharesMerging (tr : Transaction U) : Prop :=
  ∀ j ∈ tr.jobs, ∀ k ∈ tr.jobs, j.unit = k.unit → j ≠ k → j.type.isMerging

theorem Transaction.SharesMerging.unitJobs (shares : tr.SharesMerging) (unique : Keyed.Unique Job.ref tr.jobs)
    (list : tr.unitJobs u = j :: js) (more : js ≠ []) : ∀ k ∈ j :: js, k.type.isMerging := by
  have nodup : (j :: js).Nodup := by
    rw [← list]
    exact (List.Nodup.of_map Job.ref unique).filter _
  have members := mem_of_unitJobs_eq list
  have unit : ∀ k ∈ j :: js, ∀ x ∈ j :: js, k.unit = x.unit := fun k hk x hx =>
    (members k hk).2.trans (members x hx).2.symm
  obtain ⟨fresh, -⟩ := nodup_cons.mp nodup
  intro k hk
  rcases mem_cons.mp hk with rfl | later
  · obtain ⟨x, hx⟩ := exists_mem_of_ne_nil js more
    refine shares k (members k hk).1 x (members x (by simp [hx])).1 (unit k hk x (by simp [hx])) ?_
    rintro rfl
    exact fresh hx
  · refine shares k (members k hk).1 j (members j (by simp)).1 (unit k hk j (by simp)) ?_
    rintro rfl
    exact fresh later

theorem mergeTypes_eq_mergeList (merging : js ≠ [] → ∀ k ∈ j :: js, k.type.isMerging) :
    mergeTypes s j.type js = match mergeList s ((j :: js).map Job.type) with
      | some t => .merged t
      | none => .unmergeable := by
  cases js with
  | nil => rfl
  | cons k ks =>
    have all := merging (by simp)
    exact mergeTypes_eq (all j (by simp)) fun x hx => all x (mem_cons_of_mem j hx)

/-- The jobs of a unit merge to a type, or two of them do not merge. -/
theorem mergeTypes_cases (merging : js ≠ [] → ∀ k ∈ j :: js, k.type.isMerging) :
    (∃ t, mergeTypes s j.type js = .merged t) ∧ AllMerge (j :: js) ∨
      mergeTypes s j.type js = .unmergeable ∧ ¬ AllMerge (j :: js) := by
  by_cases more : js = []
  · subst more
    exact .inl ⟨⟨j.type, rfl⟩, pairwise_singleton _ _⟩
  have types : ∀ t ∈ (j :: js).map Job.type, t.isMerging := by
    intro t ht
    obtain ⟨k, hk, rfl⟩ := mem_map.mp ht
    exact merging more k hk
  rw [mergeTypes_eq_mergeList merging]
  have fails := mergeList_eq_none_iff (s := s) (by simp) types
  cases merged : mergeList s ((j :: js).map Job.type) with
  | none => exact .inr ⟨rfl, fails.mp merged⟩
  | some t =>
    refine .inl ⟨⟨t, rfl⟩, ?_⟩
    by_contra not
    rw [fails.mpr not] at merged
    cases merged

/-- When the first loop is through, the jobs of every unit merge. -/
theorem allMerge_of_checked (shares : tr.SharesMerging) (unique : Keyed.Unique Job.ref tr.jobs)
    (checked : checkMergeable states tr us = .ok none) : ∀ u ∈ us, AllMerge (tr.unitJobs u) := by
  induction us with
  | nil => simp
  | cons u us ih =>
    rw [checkMergeable] at checked
    rw [forall_mem_cons]
    split at checked
    · rename_i empty
      rw [empty]
      exact ⟨List.Pairwise.nil, ih checked⟩
    · rename_i j js list
      rw [list]
      obtain ⟨⟨t, merged⟩, all⟩ | ⟨unmergeable, -⟩ := mergeTypes_cases (s := states u) (shares.unitJobs unique list)
      · rw [merged] at checked
        exact ⟨all, ih checked⟩
      · rw [unmergeable] at checked
        dsimp only at checked
        split at checked <;> cases checked

/-- Merging the jobs of a unit leaves those of the others alone. -/
theorem Merged.unitJobs_perm (merged : Merged t j js tr tr') (unique : Keyed.Unique Job.ref tr.jobs)
    (members : ∀ k ∈ j :: js, k ∈ tr.jobs ∧ k.unit ≠ u) : (tr.unitJobs u).Perm (tr'.unitJobs u) := by
  have nodup : ∀ {tr : Transaction U}, Keyed.Unique Job.ref tr.jobs → (tr.unitJobs u).Nodup :=
    fun unique => (List.Nodup.of_map Job.ref unique).filter _
  rw [perm_ext_iff_of_nodup (nodup unique) (nodup merged.unique)]
  intro x
  rw [mem_unitJobs, mem_unitJobs]
  constructor
  · rintro ⟨hx, unit⟩
    refine ⟨(merged.others x ?_).mpr hx, unit⟩
    intro k hk same
    rw [unique.eq (members k hk).1 hx same] at hk
    exact (members x hk).2 unit
  · rintro ⟨hx, unit⟩
    by_cases away : ∀ k ∈ j :: js, k.ref ≠ x.ref
    · exact ⟨(merged.others x away).mp hx, unit⟩
    · push Not at away
      obtain ⟨s, -, sUnit, -, only, -⟩ := merged.survivor
      rw [only x hx away] at unit
      exact absurd (sUnit.symm.trans unit) (members j (by simp)).2

/-- Once the jobs of a unit are merged, it has no two jobs left. -/
theorem Merged.sharesMerging (merged : Merged t j js tr tr') (shares : tr.SharesMerging)
    (list : tr.unitJobs u = j :: js) : tr'.SharesMerging := by
  obtain ⟨s, -, sUnit, -, only, -⟩ := merged.survivor
  have jUnit : j.unit = u := (mem_of_unitJobs_eq list j (by simp)).2
  have here : ∀ x ∈ tr'.jobs, x.unit = u → x = s := by
    intro x hx unit
    by_cases away : ∀ k ∈ j :: js, k.ref ≠ x.ref
    · have old := (merged.others x away).mp hx
      have listed : x ∈ j :: js := by
        rw [← list]
        exact mem_unitJobs.mpr ⟨old, unit⟩
      exact absurd rfl (away x listed)
    · push Not at away
      exact only x hx away
  have there : ∀ x ∈ tr'.jobs, x.unit ≠ u → x ∈ tr.jobs := by
    intro x hx unit
    by_cases away : ∀ k ∈ j :: js, k.ref ≠ x.ref
    · exact (merged.others x away).mp hx
    · push Not at away
      rw [only x hx away] at unit
      exact absurd (sUnit.trans jUnit) unit
  intro x hx k hk same ne
  by_cases unit : x.unit = u
  · exact absurd ((here x hx unit).trans (here k hk (same ▸ unit)).symm) ne
  · exact shares x (there x hx unit) k (there k hk (same ▸ unit)) same ne

/-- The second loop never fails its assertion. -/
theorem secondLoop_ok (nodup : us.Nodup) (unique : Keyed.Unique Job.ref tr.jobs) (shares : tr.SharesMerging)
    (all : ∀ u ∈ us, AllMerge (tr.unitJobs u)) :
    ∃ tr', us.foldlM (mergeUnit states) tr = .ok tr' := by
  induction us generalizing tr with
  | nil => exact ⟨tr, rfl⟩
  | cons u us ih =>
    obtain ⟨fresh, nodup⟩ := nodup_cons.mp nodup
    rw [forall_mem_cons] at all
    rw [foldlM_cons, mergeUnit]
    cases list : tr.unitJobs u with
    | nil => exact ih nodup unique shares all.2
    | cons j js =>
      have members := mem_of_unitJobs_eq list
      rw [list] at all
      obtain ⟨⟨t, merges⟩, -⟩ | ⟨-, not⟩ := mergeTypes_cases (s := states u) (shares.unitJobs unique list)
      · have distinct : Keyed.Unique Job.ref (j :: js) := by
          rw [← list]
          exact unique.sublist (filter_sublist.map Job.ref)
        have units : ∀ k ∈ js, k.unit = j.unit := fun k hk =>
          (members k (by simp [hk])).2.trans (members j (by simp)).2.symm
        have merged := mergeUnitJobs_merged t j js tr unique (fun k hk => (members k hk).1) units distinct
        simp only [merges]
        refine ih nodup merged.unique (merged.sharesMerging shares list) ?_
        intro v hv
        refine (all.2 v hv).perm (merged.unitJobs_perm unique ?_)
        intro k hk
        refine ⟨(members k hk).1, ?_⟩
        rw [(members k hk).2]
        rintro rfl
        exact fresh hv
      · exact absurd all.1 not

end Jobs

/-- The jobs of a unit merge to the same type in every order, or in none: they do not exactly if
two of them do not merge, and `delete_one_unmergeable_job()` finds two. -/
theorem merge_any_order (order : HashOrder U) (states : U → UnitActiveState) (tr : Transaction U)
    (unique : Keyed.Unique Job.ref tr.jobs) (shares : tr.SharesMerging) :
    (∀ (s : UnitActiveState) (ts : List JobType), ts ≠ [] → (∀ t ∈ ts, t.isMerging) →
      (∀ ts', ts'.Perm ts → mergeList s ts' = mergeList s ts) ∧
      (mergeList s ts = none ↔ ¬ ts.Pairwise fun a b => jobTypeIsMergeable a b)) ∧
    (∀ u j js, tr.unitJobs u = j :: js →
      (mergeTypes (states u) j.type js = match mergeList (states u) ((j :: js).map Job.type) with
        | some t => .merged t
        | none => .unmergeable) ∧
      (mergeTypes (states u) j.type js = .unmergeable →
        deleteOneUnmergeableJob tr (j :: js) ≠ .error einval)) ∧
    (checkMergeable states tr (order.keys tr.jobs) = .ok none →
      ∃ tr', (order.keys tr.jobs).foldlM (mergeUnit states) tr = .ok tr' ∧
        transactionMergeJobs order states tr = .ok (tr', true)) := by
  refine ⟨?_, ?_, ?_⟩
  · intro s ts nonempty types
    refine ⟨?_, mergeList_eq_none_iff nonempty types⟩
    intro ts' same
    exact mergeList_perm same fun t ht => types t (same.mem_iff.mp ht)
  · intro u j js list
    have types := shares.unitJobs unique list
    refine ⟨mergeTypes_eq_mergeList types, ?_⟩
    intro unmergeable
    obtain ⟨⟨t, merges⟩, -⟩ | ⟨-, not⟩ := mergeTypes_cases (s := states u) types
    · rw [merges] at unmergeable
      cases unmergeable
    · rw [AllMerge, ← firstUnmergeable_eq_none_iff] at not
      obtain ⟨⟨a, b⟩, found⟩ := Option.ne_none_iff_exists'.mp not
      rw [deleteOneUnmergeableJob, found]
      dsimp only
      split <;> simp [enoexec, einval]
  · intro checked
    have all := allMerge_of_checked shares unique checked
    obtain ⟨tr', merged⟩ : ∃ tr', _ = Except.ok tr' := secondLoop_ok (order.nodup _) unique shares all
    refine ⟨tr', merged, ?_⟩
    simp only [transactionMergeJobs, checked, merged]

/-- Two units with two jobs each: the first pair merges, the second does not. -/
def mergePair : Transaction Bool where
  jobs := [⟨0, 0, true, .reload, .waiting, false, false, false, false⟩,
    ⟨1, 1, true, .start, .waiting, false, false, false, false⟩,
    ⟨2, 2, false, .stop, .waiting, false, false, false, false⟩,
    ⟨3, 3, false, .start, .waiting, false, false, false, false⟩]

theorem merge_any_order_pair :
    mergeList .inactive [.start, .reload] = mergeList .inactive [.reload, .start] ∧
      mergeList .inactive [.stop, .start] = none := by
  have whole := (merge_any_order HashOrder.newestFirst (fun _ => .inactive) mergePair
    (by unfold Keyed.Unique; decide) (by unfold Transaction.SharesMerging; decide)).1 .inactive
  refine ⟨?_, ?_⟩
  · exact (whole [.reload, .start] (by decide) (by decide)).1 _ (List.Perm.swap _ _ _)
  · exact (whole [.stop, .start] (by decide) (by decide)).2.mpr (by decide)

end SystemdPort.Core
