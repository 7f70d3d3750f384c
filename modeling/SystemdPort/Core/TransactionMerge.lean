/-
# Core.TransactionMerge — what merging the jobs of a unit keeps

`transaction_merge_jobs()` leaves one job per unit, of the type that all its jobs
merge to.  The job that stays is the anchor job if the unit has it, and it matters
to the anchor if one of the merged jobs did.  Its type is of the ordering class of
one of them (`mergeTypes_orderClass`), which is all that later code can tell about
the order from.
-/
import SystemdPort.Core.TransactionSteps

namespace SystemdPort.Core

open Lib Relation List

set_option autoImplicit false
set_option linter.unusedSectionVars false

variable {U : Type} [DecidableEq U]

/-- Every job continues one with its reference, and has the class of a job of its
unit. -/
def Descends (tr tr' : Transaction U) : Prop :=
  ∀ j' ∈ tr'.jobs, (∃ j ∈ tr.jobs, j.ref = j'.ref ∧ j.unit = j'.unit ∧ j.ignoreOrder = j'.ignoreOrder) ∧
    ∃ j ∈ tr.jobs, j.unit = j'.unit ∧ j.type.orderClass = j'.type.orderClass

/-- Units with a job that matters keep one, and the anchor job stays. -/
structure KeepsMarks (tr tr' : Transaction U) : Prop where
  anchorJob : tr'.anchorJob = tr.anchorJob
  marks : ∀ j ∈ tr.jobs, j.mattersToAnchor = true →
    ∃ j' ∈ tr'.jobs, j'.unit = j.unit ∧ j'.mattersToAnchor = true
  anchor : ∀ j ∈ tr.jobs, tr.anchorJob = some j.ref →
    ∃ j' ∈ tr'.jobs, j'.ref = j.ref ∧ j'.unit = j.unit

section Merge

variable {states : U → UnitActiveState} {tr tr' tr'' : Transaction U}

theorem Descends.refl (tr : Transaction U) : Descends tr tr :=
  fun j hj => ⟨⟨j, hj, rfl, rfl, rfl⟩, j, hj, rfl, rfl⟩

theorem Descends.trans (h : Descends tr tr') (h' : Descends tr' tr'') : Descends tr tr'' := by
  intro j'' hj''
  obtain ⟨⟨j', hj', same, unit, ignore⟩, k', hk', unit', class'⟩ := h' j'' hj''
  obtain ⟨⟨j, hj, same₀, unit₀, ignore₀⟩, -⟩ := h j' hj'
  obtain ⟨-, k, hk, unit₁, class₁⟩ := h k' hk'
  exact ⟨⟨j, hj, same₀.trans same, unit₀.trans unit, ignore₀.trans ignore⟩,
    k, hk, unit₁.trans unit', class₁.trans class'⟩

theorem KeepsMarks.refl (tr : Transaction U) : KeepsMarks tr tr :=
  ⟨rfl, fun j hj on => ⟨j, hj, rfl, on⟩, fun j hj _ => ⟨j, hj, rfl, rfl⟩⟩

theorem KeepsMarks.trans (h : KeepsMarks tr tr') (h' : KeepsMarks tr' tr'') : KeepsMarks tr tr'' := by
  refine ⟨h'.anchorJob.trans h.anchorJob, fun j hj on => ?_, fun j hj isAnchor => ?_⟩
  · obtain ⟨j', hj', unit, on'⟩ := h.marks j hj on
    obtain ⟨j'', hj'', unit', on''⟩ := h'.marks j' hj' on'
    exact ⟨j'', hj'', unit'.trans unit, on''⟩
  · obtain ⟨j', hj', same, unit⟩ := h.anchor j hj isAnchor
    obtain ⟨j'', hj'', same', unit'⟩ := h'.anchor j' hj' (by rw [h.anchorJob, isAnchor, same])
    exact ⟨j'', hj'', same'.trans same, unit'.trans unit⟩

theorem Drops.descends {m : Manager U} (drops : Drops states m tr tr') : Descends tr tr' :=
  fun j hj =>
    have member := drops.sublist.subset hj
    ⟨⟨j, member, rfl, rfl, rfl⟩, j, member, rfl, rfl⟩

/-- The type that jobs merge to is of the class of one of them. -/
theorem mergeTypes_orderClass {s : UnitActiveState} {t t' : JobType} {ks : List (Job U)}
    (merged : mergeTypes s t ks = .merged t') :
    t'.orderClass = t.orderClass ∨ ∃ k ∈ ks, t'.orderClass = k.type.orderClass := by
  induction ks generalizing t with
  | nil =>
    cases merged
    exact Or.inl rfl
  | cons k ks ih =>
    unfold mergeTypes at merged
    split at merged
    · simp at merged
    rename_i merging
    simp only [Bool.not_eq_true', Bool.not_eq_false, Bool.and_eq_true] at merging
    split at merged
    · simp at merged
    rename_i t₁ first
    have classes := (merge_orderClass _ _ s merging.1 merging.2 t₁ first).2
    rcases ih merged with same | ⟨x, hx, same⟩
    · rcases classes with left | right
      · exact Or.inl (same.trans left)
      · exact Or.inr ⟨k, by simp, same.trans right⟩
    · exact Or.inr ⟨x, by simp [hx], same⟩

theorem mem_mergeAndDelete_iff (unique : Keyed.Unique Job.ref tr.jobs) {j other : Job U}
    (hj : j ∈ tr.jobs) (ne : j.ref ≠ other.ref) (t : JobType) (x : Job U) :
    x ∈ (transactionMergeAndDeleteJob tr j other t).jobs ↔
      x = j.absorb t other ∨ (x ∈ tr.jobs ∧ x.ref ≠ j.ref ∧ x.ref ≠ other.ref) := by
  unfold transactionMergeAndDeleteJob
  rw [mem_deleteJob_alone]
  · simp only [Keyed.mem_modify_iff]
    constructor
    · rintro ⟨⟨hx, away⟩ | ⟨k, hk, same, rfl⟩, other'⟩
      · exact Or.inr ⟨hx, away, other'⟩
      · rw [unique.eq hk hj same]
        exact Or.inl rfl
    · rintro (rfl | ⟨hx, away, other'⟩)
      · exact ⟨Or.inr ⟨j, hj, rfl, rfl⟩, ne⟩
      · exact ⟨Or.inl ⟨hx, away⟩, other'⟩
  · refine Or.inr fun l hl => ?_
    obtain ⟨l', -, rfl⟩ := mem_map.mp hl
    simp only [JobDependency.redirect]
    split
    · exact ne
    · assumption

theorem mergeAndDelete_unique (unique : Keyed.Unique Job.ref tr.jobs) (j other : Job U) (t : JobType) :
    Keyed.Unique Job.ref (transactionMergeAndDeleteJob tr j other t).jobs := by
  have modified : Keyed.Unique Job.ref (Keyed.modify Job.ref j.ref (·.absorb t other) tr.jobs) :=
    unique.modify fun _ => rfl
  exact modified.sublist ((deleteJob_deleted _ other.ref true).jobs_sub.map Job.ref)

theorem mergeAndDelete_anchorJob (j other : Job U) (t : JobType) :
    (transactionMergeAndDeleteJob tr j other t).anchorJob = tr.anchorJob :=
  (deleteJob_deleted _ other.ref true).anchor

/-- What is left of the jobs `j :: ks` of a unit: one job, of type `t` if there was
anything to merge. -/
structure Merged (t : JobType) (j : Job U) (ks : List (Job U)) (tr tr' : Transaction U) : Prop where
  unique : Keyed.Unique Job.ref tr'.jobs
  anchorJob : tr'.anchorJob = tr.anchorJob
  others : ∀ x, (∀ k ∈ j :: ks, k.ref ≠ x.ref) → (x ∈ tr'.jobs ↔ x ∈ tr.jobs)
  survivor : ∃ s ∈ tr'.jobs, s.unit = j.unit ∧ (∃ k ∈ j :: ks, k.ref = s.ref ∧ k.ignoreOrder = s.ignoreOrder) ∧
    (∀ x ∈ tr'.jobs, (∃ k ∈ j :: ks, k.ref = x.ref) → x = s) ∧
    (s.type = t ∨ s = j) ∧ (s.mattersToAnchor = true ↔ ∃ k ∈ j :: ks, k.mattersToAnchor = true) ∧
    ∀ k ∈ j :: ks, tr.anchorJob = some k.ref → s.ref = k.ref

/-- One merge: `j` takes over from `other`, and the merge of the rest follows. -/
theorem Merged.step {t : JobType} {j other first : Job U} {ks rest : List (Job U)}
    (unique : Keyed.Unique Job.ref tr.jobs) (hj : j ∈ tr.jobs) (ne : j.ref ≠ other.ref)
    (same : ∀ k, k ∈ first :: rest ↔ k = j ∨ k = other ∨ k ∈ ks) (unit : first.unit = j.unit)
    (known : ∀ k ∈ ks, k.ref ≠ j.ref ∧ k.ref ≠ other.ref) (lesser : tr.anchorJob ≠ some other.ref)
    (below : Merged t (j.absorb t other) ks (transactionMergeAndDeleteJob tr j other t) tr') :
    Merged t first rest tr tr' := by
  obtain ⟨s, hs, sUnit, ⟨k₀, hk₀, sRef⟩, only, type, marks, anchor⟩ := below.survivor
  have from' : ∀ k ∈ j.absorb t other :: ks, ∃ k' ∈ first :: rest, k'.ref = k.ref ∧ k'.ignoreOrder = k.ignoreOrder :=
    forall_mem_cons.mpr ⟨⟨j, (same j).mpr (.inl rfl), rfl, rfl⟩, fun k hk => ⟨k, (same k).mpr (.inr (.inr hk)), rfl, rfl⟩⟩
  refine ⟨below.unique, below.anchorJob.trans (mergeAndDelete_anchorJob j other t), ?_, ?_⟩
  · intro x away
    have away' : ∀ k ∈ j.absorb t other :: ks, k.ref ≠ x.ref := by
      intro k hk
      obtain ⟨k', hk', same', -⟩ := from' k hk
      exact same' ▸ away k' hk'
    rw [below.others x away', mem_mergeAndDelete_iff unique hj ne]
    have notJ : j.ref ≠ x.ref := away j ((same j).mpr (Or.inl rfl))
    have notOther : other.ref ≠ x.ref := away other ((same other).mpr (Or.inr (Or.inl rfl)))
    constructor
    · rintro (rfl | ⟨hx, -⟩)
      · exact absurd rfl notJ
      · exact hx
    · exact fun hx => Or.inr ⟨hx, Ne.symm notJ, Ne.symm notOther⟩
  · refine ⟨s, hs, sUnit.trans unit.symm, ?_, ?_, Or.inl ?_, ?_, ?_⟩
    · obtain ⟨k', hk', same', ignore⟩ := from' k₀ hk₀
      exact ⟨k', hk', same'.trans sRef.1, ignore.trans sRef.2⟩
    · rintro x hx ⟨k, hk, kx⟩
      rcases (same k).mp hk with rfl | rfl | hk
      · exact only x hx ⟨k.absorb t other, by simp, kx⟩
      · exfalso
        by_cases listed : ∀ k' ∈ j.absorb t k :: ks, k'.ref ≠ x.ref
        · have := (below.others x listed).mp hx
          rcases (mem_mergeAndDelete_iff unique hj ne t x).mp this with rfl | ⟨-, -, away⟩
          · exact ne kx.symm
          · exact away kx.symm
        · push Not at listed
          obtain ⟨k', hk', same'⟩ := listed
          rcases mem_cons.mp hk' with rfl | hk'
          · exact ne (same'.trans kx.symm)
          · exact (known k' hk').2 (same'.trans kx.symm)
      · exact only x hx ⟨k, by simp [hk], kx⟩
    · rcases type with type | rfl
      · exact type
      · rfl
    · rw [marks]
      constructor
      · rintro ⟨k, hk, on⟩
        rcases mem_cons.mp hk with rfl | hk
        · simp only [Job.absorb, Bool.or_eq_true] at on
          rcases on with on | on
          · exact ⟨j, (same j).mpr (Or.inl rfl), on⟩
          · exact ⟨other, (same other).mpr (Or.inr (Or.inl rfl)), on⟩
        · exact ⟨k, (same k).mpr (Or.inr (Or.inr hk)), on⟩
      · rintro ⟨k, hk, on⟩
        rcases (same k).mp hk with rfl | rfl | hk
        · exact ⟨_, mem_cons_self, by simp [Job.absorb, on]⟩
        · exact ⟨_, mem_cons_self, by simp [Job.absorb, on]⟩
        · exact ⟨k, by simp [hk], on⟩
    · intro k hk isAnchor
      have isAnchor' : (transactionMergeAndDeleteJob tr j other t).anchorJob = some k.ref :=
        (mergeAndDelete_anchorJob j other t).trans isAnchor
      rcases (same k).mp hk with rfl | rfl | hk
      · exact anchor (k.absorb t other) (by simp) isAnchor'
      · exact absurd isAnchor lesser
      · exact anchor k (by simp [hk]) isAnchor'

theorem mergeUnitJobs_merged (t : JobType) (j : Job U) (ks : List (Job U)) (tr : Transaction U)
    (unique : Keyed.Unique Job.ref tr.jobs) (members : ∀ k ∈ j :: ks, k ∈ tr.jobs)
    (units : ∀ k ∈ ks, k.unit = j.unit) (distinct : Keyed.Unique Job.ref (j :: ks)) :
    Merged t j ks tr (mergeUnitJobs t j ks tr) := by
  induction ks generalizing j tr with
  | nil =>
    refine ⟨unique, rfl, fun x _ => Iff.rfl, j, members j (by simp), rfl, ⟨j, by simp, rfl, rfl⟩, ?_,
      Or.inr rfl, by simp, by simp⟩
    rintro x hx ⟨k, hk, same⟩
    obtain rfl : k = j := by simpa using hk
    exact unique.eq hx (members k (by simp)) same.symm
  | cons k ks ih =>
    have hj : j ∈ tr.jobs := members j (by simp)
    have hk : k ∈ tr.jobs := members k (by simp)
    have apartJ := nodup_cons.mp distinct
    have apartK := nodup_cons.mp apartJ.2
    have ne : j.ref ≠ k.ref := fun same => apartJ.1 (by simp [same])
    have away : ∀ x ∈ ks, x.ref ≠ j.ref ∧ x.ref ≠ k.ref := by
      intro x hx
      refine ⟨fun same => apartJ.1 ?_, fun same => apartK.1 ?_⟩
      · rw [← same]
        exact mem_map_of_mem (by simp [hx])
      · rw [← same]
        exact mem_map_of_mem hx
    unfold mergeUnitJobs
    split
    · rename_i isAnchor
      have below := ih (k.absorb t j) (transactionMergeAndDeleteJob tr k j t)
        (mergeAndDelete_unique unique k j t)
        (fun x hx => by
          rw [mem_mergeAndDelete_iff unique hk ne.symm]
          rcases mem_cons.mp hx with rfl | hx
          · exact Or.inl rfl
          · exact Or.inr ⟨members x (by simp [hx]), (away x hx).2, (away x hx).1⟩)
        (fun x hx => by
          rw [units x (by simp [hx])]
          exact (units k (by simp)).symm)
        apartJ.2
      refine below.step unique hk ne.symm ?_ (units k (by simp)).symm (fun x hx => ⟨(away x hx).2, (away x hx).1⟩) ?_
      · simp only [mem_cons]
        tauto
      · rw [isAnchor]
        exact fun same => ne (Option.some.inj same).symm
    · rename_i lesser
      have below := ih (j.absorb t k) (transactionMergeAndDeleteJob tr j k t)
        (mergeAndDelete_unique unique j k t)
        (fun x hx => by
          rw [mem_mergeAndDelete_iff unique hj ne]
          rcases mem_cons.mp hx with rfl | hx
          · exact Or.inl rfl
          · exact Or.inr ⟨members x (by simp [hx]), away x hx⟩)
        (fun x hx => units x (by simp [hx]))
        (by
          refine nodup_cons.mpr ⟨fun inside => apartJ.1 ?_, apartK.2⟩
          exact mem_cons_of_mem _ inside)
      exact below.step unique hj ne (by simp) rfl away lesser

theorem mergeUnit_keeps (unique : Keyed.Unique Job.ref tr.jobs) {u : U} (done : mergeUnit states tr u = .ok tr') :
    Keyed.Unique Job.ref tr'.jobs ∧ Descends tr tr' ∧ KeepsMarks tr tr' := by
  unfold mergeUnit at done
  split at done
  · cases done
    exact ⟨unique, .refl tr, .refl tr⟩
  rename_i j js list
  split at done <;> cases done
  rename_i t merging
  have members : ∀ k ∈ j :: js, k ∈ tr.jobs ∧ k.unit = u := by
    intro k hk
    rw [← list] at hk
    exact mem_unitJobs.mp hk
  have same : ∀ k ∈ js, k.unit = j.unit := fun k hk =>
    (members k (by simp [hk])).2.trans (members j (by simp)).2.symm
  have distinct : Keyed.Unique Job.ref (j :: js) := by
    rw [← list]
    exact unique.sublist (filter_sublist.map Job.ref)
  have merged := mergeUnitJobs_merged t j js tr unique (fun k hk => (members k hk).1) same distinct
  obtain ⟨s, hs, sUnit, ⟨k₀, hk₀, sRef⟩, only, type, marks, anchor⟩ := merged.survivor
  have sUnit : s.unit = u := sUnit.trans (members j (by simp)).2
  refine ⟨merged.unique, fun x hx => ?_, merged.anchorJob, fun x hx on => ?_, fun x hx isAnchor => ?_⟩
  · by_cases away : ∀ k ∈ j :: js, k.ref ≠ x.ref
    · have old := (merged.others x away).mp hx
      exact ⟨⟨x, old, rfl, rfl, rfl⟩, x, old, rfl, rfl⟩
    · push Not at away
      obtain rfl := only x hx away
      refine ⟨⟨k₀, (members k₀ hk₀).1, sRef.1, (members k₀ hk₀).2.trans sUnit.symm, sRef.2⟩, ?_⟩
      have found : ∃ k ∈ j :: js, k.type.orderClass = x.type.orderClass := by
        rcases type with type | rfl
        · rw [type]
          rcases mergeTypes_orderClass merging with left | ⟨k, hk, right⟩
          · exact ⟨j, by simp, left.symm⟩
          · exact ⟨k, by simp [hk], right.symm⟩
        · exact ⟨x, by simp, rfl⟩
      obtain ⟨k, hk, cls⟩ := found
      exact ⟨k, (members k hk).1, (members k hk).2.trans sUnit.symm, cls⟩
  · by_cases here : x.unit = u
    · have listed : x ∈ j :: js := by
        rw [← list]
        exact mem_unitJobs.mpr ⟨hx, here⟩
      exact ⟨s, hs, sUnit.trans here.symm, marks.mpr ⟨x, listed, on⟩⟩
    · refine ⟨x, (merged.others x fun k hk same => here ?_).mpr hx, rfl, on⟩
      rw [← unique.eq (members k hk).1 hx same]
      exact (members k hk).2
  · by_cases here : x.unit = u
    · have listed : x ∈ j :: js := by
        rw [← list]
        exact mem_unitJobs.mpr ⟨hx, here⟩
      exact ⟨s, hs, anchor x listed isAnchor, sUnit.trans here.symm⟩
    · refine ⟨x, (merged.others x fun k hk same => here ?_).mpr hx, rfl, rfl⟩
      rw [← unique.eq (members k hk).1 hx same]
      exact (members k hk).2

theorem mergeUnits_keeps {us : List U} (unique : Keyed.Unique Job.ref tr.jobs)
    (done : us.foldlM (mergeUnit states) tr = .ok tr') :
    Keyed.Unique Job.ref tr'.jobs ∧ Descends tr tr' ∧ KeepsMarks tr tr' := by
  induction us generalizing tr with
  | nil =>
    cases done
    exact ⟨unique, .refl _, .refl _⟩
  | cons u us ih =>
    rw [foldlM_cons] at done
    obtain ⟨tr₁, first, rest⟩ := Exec.except_bind_eq_ok.mp done
    obtain ⟨unique₁, descends₁, marks₁⟩ := mergeUnit_keeps unique first
    obtain ⟨unique₂, descends₂, marks₂⟩ := ih unique₁ rest
    exact ⟨unique₂, descends₁.trans descends₂, marks₁.trans marks₂⟩

end Merge

end SystemdPort.Core
