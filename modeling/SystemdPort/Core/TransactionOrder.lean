/-
# Core.TransactionOrder — the order that was verified and the one installed

`transaction_verify_order()` looks at one job per unit, before jobs are merged
within the transaction and before `job_install()` merges them into installed jobs.
Both merges can change which of the two ordering classes a job is in, and with it
the direction of its edges.

`Arises` says where the jobs installed by a transaction come from: each has the
class of a job of the transaction for its unit, or was there before, possibly as a
restart that such a job was merged into.  So where no merge on a cycle changes a class
(`UniformCycles`), a cycle of the installed jobs would have been a cycle of the jobs
looked at (`activate_no_cycle`).  Without that it can
appear: `restartPair_cycle`.
-/
import SystemdPort.Core.ManagerRuns
import SystemdPort.Core.TransactionMerge

namespace SystemdPort.Core

open Lib Relation List Option

set_option autoImplicit false
set_option linter.unusedSectionVars false

variable {U : Type} [DecidableEq U]

/-! ## What the search looks at -/

/-- The installed job of a unit is one of that unit. -/
def Manager.OwnJobs (m : Manager U) : Prop := ∀ u j, m.jobOf u = some j → j.unit = u

variable {m : Manager U}

theorem Manager.Wf.ownJobs {pending : List (Job U)} (wf : m.Wf pending) : m.OwnJobs :=
  fun _ _ installed => (wf.jobOf_iff.mp installed).2.2.1

theorem find_of_jobOf {u : U} {j : Job U} (installed : m.jobOf u = some j) : m.find j.ref = some j := by
  obtain ⟨r, -, found⟩ := bind_eq_some_iff.mp installed
  rwa [(Keyed.lookup_mem found).2]

section Search

variable {order : HashOrder U} {m : Manager U} {units : Units U} {tr : Transaction U}

variable {j : Job U}

theorem orderJob_unit (own : m.OwnJobs) {u : U} (found : orderJob m tr u = some j) : j.unit = u := by
  rcases or_eq_some_iff.mp found with head | ⟨-, installed⟩
  · exact (mem_of_head head).2
  · exact own u j installed

theorem mem_laterJobs_iff (own : m.OwnJobs) {o : Job U} :
    o ∈ laterJobs m units tr j ↔ orderJob m tr o.unit = some o ∧ Precedes units j o := by
  simp only [laterJobs, flatMap_cons, flatMap_nil, append_nil, mem_append, mem_filter, mem_filterMap,
    decide_eq_true_eq]
  constructor
  · rintro (⟨⟨u, linked, found⟩, first⟩ | ⟨⟨u, linked, found⟩, first⟩) <;>
      obtain rfl := orderJob_unit own found
    · exact ⟨found, Or.inl ⟨linked, first⟩⟩
    · exact ⟨found, Or.inr ⟨linked, first⟩⟩
  · rintro ⟨found, ⟨linked, first⟩ | ⟨linked, first⟩⟩
    · exact Or.inl ⟨⟨_, linked, found⟩, first⟩
    · exact Or.inr ⟨⟨_, linked, found⟩, first⟩

/-- The search always has levels left: it walks over jobs of the transaction and
of the manager only. -/
theorem searchOrder_ne_fuel (own : m.OwnJobs) : searchOrder order m units tr ≠ .error .fuel := by
  have inside : ∀ o, orderJob m tr o.unit = some o → o ∈ tr.jobs ++ m.heap := by
    intro o found
    rcases or_eq_some_iff.mp found with head | ⟨-, installed⟩
    · exact mem_append_left _ (mem_of_head head).1
    · exact mem_append_right _ (Keyed.lookup_mem (find_of_jobOf installed)).1
  have closed : ∀ x ∈ tr.jobs ++ m.heap, ∀ y ∈ laterJobs m units tr x, y ∈ tr.jobs ++ m.heap :=
    fun x _ y later => inside y ((mem_laterJobs_iff own).mp later).1
  have room : ∀ v, left (tr.jobs ++ m.heap) v ≤ tr.jobs.length + m.heap.length := by
    intro v
    simpa [left] using length_filter_le (· ∉ v) (tr.jobs ++ m.heap)
  refine foldlM_ne_fuel (fun v y v' done => subset_dfs _ _ _ _ _ done)
    (fun v y node _ => dfs_ne_fuel closed _ _ _ _ node (Nat.lt_succ_of_le (room v))) _ _ ?_ (room [])
  intro y hy
  exact mem_append_left _ (mem_heads.mp hy).1

end Search

/-! ## What applying a transaction installs -/

/-- Where an installed job comes from when the transaction jobs `js` were applied to `m`:
it was there before as it is and none of `js` is for its slot; or it has the class of
one of `js` for its unit, or is a restart that one of them was merged into. -/
def Arises (js : List (Job U)) (m m' : Manager U) : Prop :=
  ∀ r j, m'.find r = some j → j.installed = true →
    m.find r = some j ∧ (∀ k ∈ js, k.unit = j.unit → k.isNop ≠ j.isNop) ∨
    (∃ k ∈ js, k.unit = j.unit ∧ (j.ignoreOrder = false → k.ignoreOrder = false)) ∧
      ((∃ k ∈ js, k.unit = j.unit ∧ k.type.orderClass = j.type.orderClass) ∨
        j.type = .restart ∧ ∃ i, m.find r = some i ∧ i.installed = true ∧ i.unit = j.unit ∧ i.type = .restart ∧
          (j.ignoreOrder = false → i.ignoreOrder = false))

section Arises

variable {states : U → UnitActiveState} {js js' pending : List (Job U)} {m m₁ m' : Manager U} {r : Nat}

theorem Arises.of_find (sub : ∀ r j, m'.find r = some j → m.find r = some j) : Arises [] m m' :=
  fun r j found _ => Or.inl ⟨sub r j found, by simp⟩

theorem Arises.trans (first : Arises js m m₁) (rest : Arises js' m₁ m') : Arises (js ++ js') m m' := by
  intro r j found on
  have left : ∀ {P : Job U → Prop}, (∃ k ∈ js, P k) → ∃ k ∈ js ++ js', P k := fun ⟨k, hk, holds⟩ =>
    ⟨k, mem_append_left js' hk, holds⟩
  have right : ∀ {P : Job U → Prop}, (∃ k ∈ js', P k) → ∃ k ∈ js ++ js', P k := fun ⟨k, hk, holds⟩ =>
    ⟨k, mem_append_right js hk, holds⟩
  rcases rest r j found on with ⟨kept, away'⟩ | ⟨listed, entered | ⟨type, i, earlier, on', unit, type', order⟩⟩
  · rcases first r j kept on with ⟨kept, away⟩ | ⟨listed, entered | merged⟩
    · exact Or.inl ⟨kept, fun k hk => (mem_append.mp hk).elim (away k) (away' k)⟩
    · exact Or.inr ⟨left listed, Or.inl (left entered)⟩
    · exact Or.inr ⟨left listed, Or.inr merged⟩
  · exact Or.inr ⟨right listed, Or.inl (right entered)⟩
  · refine Or.inr ⟨right listed, ?_⟩
    rcases first r i earlier on' with ⟨kept, -⟩ | ⟨-, ⟨k, hk, unit', cls⟩ | ⟨-, i', earlier', on'', unit', type'', order'⟩⟩
    · exact Or.inr ⟨type, i, kept, on', unit, type', order⟩
    · exact Or.inl (left ⟨k, hk, unit'.trans unit, by rw [cls, type, type']⟩)
    · exact Or.inr ⟨type, i', earlier', on'', unit'.trans unit, type'', fun ordered => order' (order ordered)⟩

theorem find_place (m : Manager U) (j : Job U) (x : Nat) :
    (m.place j).find x = if x = j.ref then some { j with installed := true } else m.find x := by
  by_cases h : x = j.ref
  · simp [Manager.find, Manager.place, Keyed.lookup, h]
  · simp [Manager.find, Manager.place, Keyed.lookup, h, Ne.symm h]

variable {j : Job U} {affected : List Nat} {ignoreOnIsolate : U → Bool} {mode : JobMode}

/-- The job at `r` has the slot of `j` now; every other installed job was there before. -/
theorem Arises.of_slot {k : Job U} (wf' : m'.Wf pending) (here : m'.find r = some k)
    (slot : k.installed = true ∧ k.unit = j.unit ∧ k.isNop = j.isNop)
    (others : ∀ x i, x ≠ r → m'.find x = some i → m.find x = some i)
    (order : k.ignoreOrder = false → j.ignoreOrder = false)
    (cls : k.type.orderClass = j.type.orderClass ∨ k.type = .restart ∧ ∃ i, m.find r = some i ∧
      i.installed = true ∧ i.unit = k.unit ∧ i.type = .restart ∧ (k.ignoreOrder = false → i.ignoreOrder = false)) :
    Arises [j] m m' := by
  intro x i found on
  by_cases h : x = r
  · subst h
    obtain rfl : k = i := some.inj (here.symm.trans found)
    refine Or.inr ⟨⟨j, by simp, slot.2.1.symm, order⟩, cls.imp (fun same => ⟨j, by simp, slot.2.1.symm, same.symm⟩) id⟩
  · refine Or.inl ⟨others x i h found, ?_⟩
    rintro j' hj' unit nop
    obtain rfl := mem_singleton.mp hj'
    have taken := (wf'.slot_iff j'.isNop j'.unit r).mpr ⟨k, here, slot⟩
    rw [(wf'.slot_iff j'.isNop j'.unit x).mpr ⟨i, found, on, unit.symm, nop.symm⟩] at taken
    exact h (some.inj taken)

theorem place_arises (wf' : (m.place j).Wf pending) : Arises [j] m (m.place j) := by
  refine .of_slot wf' (k := { j with installed := true }) (by rw [find_place, if_pos rfl]) ⟨rfl, rfl, rfl⟩ ?_ id (.inl rfl)
  intro x i ne found
  rwa [find_place, if_neg ne] at found

/-- A canceled job is gone and every other one is as it was. -/
theorem canceled_find (wf : m.Wf pending) (step : jobFinishSelf m r .canceled = some m') {x : Nat}
    (found : m'.find x = some j) : m.find x = some j := by
  obtain ⟨-, others, self⟩ := jobFinishSelf_spec wf step
  by_cases h : x = r
  · subst h
    exact absurd (self j found).1 (by decide)
  · rwa [← others x h]

theorem merge_class_or_restart : ∀ (a b : JobType) (s : UnitActiveState), a.isMerging → b.isMerging →
    ∀ t ∈ jobTypeMergeAndCollapse a b s, t.orderClass = b.orderClass ∨ t = .restart ∧ a = .restart := by
  decide

/-- The class a merge with an installed job gives: that of the new job, unless it goes into a restart. -/
theorem installedMergeType_orderClass {a b t : JobType} {s : UnitActiveState}
    (ha : a.inTransaction = true) (hb : b.inTransaction = true) (same : a = .nop ↔ b = .nop)
    (merged : installedMergeType a b s = some t) :
    (t = .nop ↔ a = .nop) ∧ (t.orderClass = b.orderClass ∨ t = .restart ∧ a = .restart) := by
  unfold installedMergeType at merged
  split at merged
  · rename_i ordinary
    have merging : ∀ x : JobType, x.inTransaction = true → x ≠ .nop → x.isMerging = true := by decide
    have new := merge_inTransaction a b s ha hb ordinary t merged
    refine ⟨by simp [new.2, ordinary], ?_⟩
    exact merge_class_or_restart a b s (merging a ha ordinary) (merging b hb (mt same.mpr ordinary)) t merged
  · rename_i nop
    split at merged
    · cases merged
      simp only [not_not] at nop
      simp [nop, same.mp nop]
    · simp at merged

/-- Merging into an installed job: all others stay, and it takes the class of the job
merged into it or is a restart. -/
theorem mergeInstalled_find {uj : Job U} (wf : m.Wf pending) (found : m.find uj.ref = some uj)
    (ordinary : j.type.inTransaction = true) (slot : uj.isNop = j.isNop)
    (step : mergeInstalled states m uj j = some m') :
    (∀ x, x ≠ uj.ref → m'.find x = m.find x) ∧ ∃ k, m'.find uj.ref = some k ∧
      (k.installed = true ∧ k.unit = j.unit ∧ k.isNop = j.isNop) ∧
      k.ignoreOrder = (uj.ignoreOrder || j.ignoreOrder) ∧ uj.installed = true ∧ uj.unit = k.unit ∧
      (k.type.orderClass = j.type.orderClass ∨ k.type = .restart ∧ uj.type = .restart) := by
  simp only [mergeInstalled, bind_eq_bind, bind_eq_some_iff] at step
  obtain ⟨m₁, merged, step⟩ := step
  obtain ⟨wf₁, -⟩ := jobMergeIntoInstalled_spec wf ordinary merged
  simp only [jobMergeIntoInstalled, bind_eq_bind, bind_eq_some_iff,
    guard_eq_some', exists_const, Bool.and_eq_true, decide_eq_true_eq] at merged
  obtain ⟨uj', found', ⟨installed, unit⟩, t, type, merged⟩ := merged
  obtain rfl : uj = uj' := some.inj (found.symm.trans found')
  cases merged
  have find₁ : ∀ x, (m.modify uj.ref (·.merged t j)).find x =
      if x = uj.ref then some (uj.merged t j) else m.find x := by
    intro x
    rw [Manager.find_modify m uj.ref x (f := (·.merged t j)) (fun _ => rfl), found]
    rfl
  have same : uj.type = .nop ↔ j.type = .nop := by simpa [Job.isNop] using slot
  obtain ⟨nop, cls⟩ := installedMergeType_orderClass (wf.types _ _ found installed) ordinary same type
  split at step
  · cases step
    refine ⟨fun x ne => by rw [find₁, if_neg ne], uj.merged t j, by rw [find₁, if_pos rfl],
      ⟨installed, unit, ?_⟩, rfl, installed, rfl, cls⟩
    simp [Job.isNop, Job.merged, nop, same]
  · obtain ⟨k, found₂, -, find₂, -⟩ := jobSetState_spec wf₁ step
    rw [find₁, if_pos rfl] at found₂
    cases found₂
    refine ⟨fun x ne => by rw [find₂, if_neg ne, find₁, if_neg ne], (uj.merged t j).withState .waiting,
      by rw [find₂, if_pos rfl], ⟨installed, unit, ?_⟩, rfl, installed, rfl, cls⟩
    simp [Job.isNop, Job.merged, Job.withState, nop, same]

theorem jobInstall_arises (wf : m.Wf (j :: pending)) (wf' : m'.Wf js) (step : jobInstall states m j = some (m', r)) :
    Arises [j] m m' ∧ ∀ k, m'.find r = some k → k.unit = j.unit := by
  simp only [jobInstall, bind_eq_bind, bind_eq_some_iff, guard_eq_some', exists_const] at step
  obtain ⟨ready, step⟩ := step
  have placed : ∀ (m : Manager U) k, (m.place j).find j.ref = some k → k.unit = j.unit := by
    intro m k found
    rw [find_place, if_pos rfl] at found
    cases found
    rfl
  split at step
  · cases step
    exact ⟨place_arises wf', placed m⟩
  · rename_i x taken
    simp only [bind_eq_some_iff] at step
    obtain ⟨uj, found, step⟩ := step
    split at step
    · simp only [bind_eq_some_iff] at step
      obtain ⟨m₁, canceled, rfl, rfl⟩ := step
      exact ⟨(Arises.of_find fun x k => canceled_find wf canceled).trans (place_arises wf'), placed m₁⟩
    · simp only [bind_eq_some_iff] at step
      obtain ⟨m₁, merged, rfl, rfl⟩ := step
      obtain ⟨k, hk, -, -, nop⟩ := (wf.slot_iff _ _ _).mp taken
      obtain rfl : uj = k := some.inj (found.symm.trans hk)
      obtain rfl := Manager.find_ref found
      obtain ⟨others, k, hk, slot, order, on, unit, cls⟩ :=
        mergeInstalled_find wf found (Job.installable_iff j |>.mp ready).2.1 nop merged
      have ordered : k.ignoreOrder = false → uj.ignoreOrder = false ∧ j.ignoreOrder = false := by simp [order]
      refine ⟨.of_slot wf' hk slot (fun x i ne hi => others x ne ▸ hi) (fun off => (ordered off).2) ?_, ?_⟩
      · exact cls.imp id fun ⟨new, old⟩ => ⟨new, uj, found, on, unit, old, fun off => (ordered off).1⟩
      · intro i hi
        obtain rfl : k = i := some.inj (hk.symm.trans hi)
        exact slot.2.1

@[simp] theorem find_dropMerged (m : Manager U) (j : Job U) (r x : Nat) : (dropMerged m j r).find x = m.find x := by
  unfold dropMerged
  split
  · exact Manager.find_removeValue m j.id j.ref x
  · rfl

/-- The jobs are installed one by one; without hooks each step keeps the tables. -/
theorem installJobs_arises (units : Units U) (wf : m.Wf js)
    (step : installJobs states js m = some (m', affected)) : m'.Wf [] ∧ Arises js m m' ∧
      ∀ r ∈ affected, ∀ j, m'.find r = some j → j.installed = true → ∃ k ∈ js, k.unit = j.unit := by
  induction js generalizing m affected with
  | nil =>
    obtain ⟨rfl, rfl⟩ := step
    exact ⟨wf, .of_find fun _ _ found => found, by simp⟩
  | cons j js ih =>
    simp only [installJobs, bind_eq_bind, bind_eq_some_iff, Prod.exists, some.injEq, Prod.mk.injEq] at step
    obtain ⟨m₁, r, installed, m₂, affected', rest, rfl, rfl⟩ := step
    have call : Install ⟨units, fun _ => ∅⟩ Set.univ js m j m₁ r := .of_jobInstall installed
    have done := (call.keeps (fun _ => id) (Set.mem_univ _) wf).1
    obtain ⟨wf₂, rest', units'⟩ := ih (dropMerged_wf done) rest
    obtain ⟨first, unit⟩ := done.elim (fun wf₁ => jobInstall_arises wf wf₁.2 installed)
      fun wf₁ => jobInstall_arises wf wf₁.2 installed
    have later : Arises js m₁ m₂ := fun x k found => by simpa using rest' x k found
    refine ⟨wf₂, first.trans later, fun x hx k found on => ?_⟩
    have before : (∃ i ∈ js, i.unit = k.unit) → ∃ i ∈ j :: js, i.unit = k.unit := by
      rintro ⟨i, hi, same⟩
      exact ⟨i, mem_cons_of_mem j hi, same⟩
    rcases mem_cons.mp hx with rfl | hx
    · rcases later x k found on with ⟨kept, -⟩ | ⟨⟨i, hi, same, -⟩, -⟩
      · exact ⟨j, by simp, (unit k kept).symm⟩
      · exact before ⟨i, hi, same⟩
    · exact before (units' x hx k found on)

theorem cancelJobs_find {l : List (Job U)} (wf : m.Wf pending) (step : cancelJobs l m = some m') :
    m'.Wf pending ∧ ∀ x j, m'.find x = some j → m.find x = some j := by
  induction l generalizing m with
  | nil =>
    cases step
    exact ⟨wf, fun _ _ found => found⟩
  | cons j l ih =>
    simp only [cancelJobs, bind_eq_bind, bind_eq_some_iff] at step
    obtain ⟨m₁, canceled, rest⟩ := step
    obtain ⟨wf', found'⟩ := ih (jobFinishSelf_spec wf canceled).1 rest
    exact ⟨wf', fun x k found => canceled_find wf canceled (found' x k found)⟩

theorem clearJobs_find (wf : m.Wf pending) (step : clearJobs ignoreOnIsolate mode js m = some m') :
    m'.Wf pending ∧ ∀ x j, m'.find x = some j → m.find x = some j := by
  unfold clearJobs at step
  split at step
  · exact cancelJobs_find wf step
  · cases step
    exact ⟨wf, fun _ _ found => found⟩

/-- A transaction that is applied leaves the tables consistent. -/
theorem transactionApply_arises (units : Units U) (wf : m.Wf []) (fresh : ∀ j ∈ js, m.find j.ref = none)
    (distinct : Keyed.Unique Job.ref js)
    (step : transactionApply states ignoreOnIsolate mode js m = some (m', some affected)) :
    m'.Wf [] ∧ Arises js m m' ∧
      ∀ r ∈ affected, ∀ j, m'.find r = some j → j.installed = true → ∃ k ∈ js, k.unit = j.unit := by
  simp only [transactionApply, bind_eq_bind, bind_eq_some_iff] at step
  obtain ⟨m₁, cleared, step⟩ := step
  obtain ⟨wf₁, kept⟩ := clearJobs_find wf cleared
  have fresh₁ : ∀ j ∈ js, m₁.find j.ref = none := by
    intro j hj
    cases found : m₁.find j.ref with
    | none => rfl
    | some k => exact absurd (kept _ k found) (by simp [fresh j hj])
  split at step
  · rename_i whole
    simp only [bind_eq_some_iff, Prod.exists] at step
    obtain ⟨m₂, rs, installed, rfl, rfl⟩ := step
    obtain ⟨entered, -, wf₂, all⟩ := putJobs_spec wf₁ fresh₁ (by simpa using distinct)
    rw [all whole, append_nil] at wf₂
    obtain ⟨wf', arises, affects⟩ := installJobs_arises units wf₂ installed
    refine ⟨wf', (Arises.of_find kept).trans fun x j found => ?_, affects⟩
    simpa using arises x j found
  · simp at step

end Arises

/-! ## From the installed order back to the verified one -/

section Activate

variable {order : HashOrder U} {states : U → UnitActiveState} {units : Units U} {mode : JobMode}
  {ignoreOnIsolate : U → Bool} {m m' : Manager U} {tr tr' : Transaction U} {affected : List Nat}

/-- The jobs of the transaction may give the unit one that is ordered in class `c`: they
have the class, or go into an installed restart, or are for the NOP slot only. -/
def Gets (states : U → UnitActiveState) (m : Manager U) (tr : Transaction U) (c : OrderClass) (u : U) : Prop :=
  (∃ k, Stays states m tr k ∧ k.unit = u ∧ k.ignoreOrder = false) ∧
      (∃ k, Stays states m tr k ∧ k.unit = u ∧ k.type.orderClass = some c) ∨
    ∃ i, m.jobOf u = some i ∧ i.orderClass = some c ∧ ∃ k, Stays states m tr k ∧ k.unit = u ∧
      (i.type = .restart ∧ k.ignoreOrder = false ∨ k.type = .nop)

/-- Before= between units that may both have a job ordered in class `c` afterwards. -/
def ClassBefore (states : U → UnitActiveState) (units : Units U) (m : Manager U) (tr : Transaction U)
    (c : OrderClass) (u v : U) : Prop :=
  let May u := Gets states m tr c u ∨ ∃ i, m.jobOf u = some i ∧ i.orderClass = some c
  units.Before u v ∧ May u ∧ May v

/-- On a Before= cycle through a unit of the transaction, all of whose units may have
jobs of one class afterwards, the transaction has no other jobs for a unit that gets such
a job from it.  Where a unit has two jobs, all units of the cycle count. -/
def UniformCycles (states : U → UnitActiveState) (units : Units U) (m : Manager U) (tr : Transaction U) : Prop :=
  ∀ c t u, (∃ j, Stays states m tr j ∧ j.unit = t) → TransGen (ClassBefore states units m tr c) t u →
    TransGen (ClassBefore states units m tr c) u t → (tr.Single → Gets states m tr c u) →
    ∀ k, Stays states m tr k → k.unit = u → k.orderClass = some c

variable {j a b : Job U} {c : OrderClass} {n : Nat}

theorem orderClass_type (cls : j.orderClass = some c) : j.type.orderClass = some c := by
  unfold Job.orderClass at cls
  split at cls
  · simp at cls
  · exact cls

/-- Jobs of one class only are uniform. -/
theorem uniformCycles_of_class (all : ∀ k ∈ tr.jobs, k.orderClass = some c)
    (installed : ∀ u i, m.jobOf u = some i → i.orderClass = some c) : UniformCycles states units m tr := by
  intro c' t u _ walk _ _ k stays _
  obtain ⟨_, ⟨-, may, -⟩, -⟩ := TransGen.head'_iff.mp walk
  rw [all k stays.1]
  rcases may with (⟨-, i, ⟨hi, -⟩, -, cls⟩ | ⟨i, here, cls, -⟩) | ⟨i, here, cls⟩
  · rw [← cls, orderClass_type (all i hi)]
  all_goals rw [← cls, installed _ i here]

theorem heads_unique (unique : Keyed.Unique Job.ref tr.jobs) : Keyed.Unique Job.ref (tr.heads order) := by
  have nodup : (tr.heads order).Nodup := by
    refine List.Nodup.filterMap (fun u v j hu hv => ?_) (order.nodup tr.jobs)
    exact (mem_of_head hu).2.symm.trans (mem_of_head hv).2
  refine nodup.map_on fun j hj k hk same => ?_
  exact unique.eq (mem_heads.mp hj).1 (mem_heads.mp hk).1 same

/-- Marking changes the marks only. -/
theorem markJobs_map {β : Type} (f : Job U → β) (same : ∀ j, f { j with mattersToAnchor := true } = f j) :
    (transactionFindJobsThatMatterToAnchor tr).jobs.map f = tr.jobs.map f := by
  unfold transactionFindJobsThatMatterToAnchor
  split
  · rfl
  · rw [List.map_map]
    refine map_congr_left fun j _ => ?_
    rw [Function.comp_apply]
    split
    · exact same j
    · rfl

theorem mem_markJobs (member : j ∈ (transactionFindJobsThatMatterToAnchor tr).jobs) :
    ∃ i ∈ tr.jobs, i.ref = j.ref ∧ i.unit = j.unit ∧ i.type = j.type ∧ i.ignoreOrder = j.ignoreOrder := by
  have here := mem_map_of_mem (f := fun j : Job U => (j.ref, j.unit, j.type, j.ignoreOrder)) member
  rw [markJobs_map _ fun _ => rfl] at here
  simpa using here

/-- What `transaction_activate()` has when the order is verified is what was built without
some of the jobs, and what is applied descends from it. -/
theorem keepsUnit_congr {a b : Transaction U} {i k : Job U} (anchor : a.anchorJob = b.anchorJob) (ref : i.ref = k.ref)
    (unit : i.unit = k.unit) (type : i.type = k.type) : keepsUnit states m a i = keepsUnit states m b k := by
  simp only [keepsUnit, changesExistingJob, anchor, ref, unit, type]

theorem prepare_descends (unique : Keyed.Unique Job.ref tr.jobs)
    (done : transactionPrepare order states m units mode tr = .ok tr') :
    ∃ verified v, searchOrder order m units verified = .ok v ∧ Descends verified tr' ∧ Keyed.Unique Job.ref tr'.jobs ∧
      (∀ j ∈ verified.jobs, ∃ i, Stays states m tr i ∧
        i.ref = j.ref ∧ i.unit = j.unit ∧ i.type = j.type ∧ i.ignoreOrder = j.ignoreOrder) ∧
      (tr.Single → tr' = verified) := by
  obtain ⟨dropped, verified, mergeable, merged, first, kept, second, ⟨v, searched⟩, third, mergedOk, rfl, alone⟩ :=
    prepare_cases done
  have drops := Run.drops second
  have sub := (Drops.sublist drops).trans (Drops.sublist (Run.drops first))
  have unique₁ : Keyed.Unique Job.ref mergeable.jobs := by
    refine List.Nodup.sublist (((Drops.sublist (Run.drops third)).trans sub).map Job.ref) ?_
    rwa [markJobs_map _ fun _ => rfl]
  obtain ⟨unique₂, descends, -⟩ := mergeUnits_keeps unique₁ mergedOk
  have last : Run order states m units merged (transactionDropRedundant order states m merged) :=
    exhaust_run (fun a b (round : PassStep order states m units .dropRedundant a b) => round) merged
  have anchor : dropped.anchorJob = tr.anchorJob := by
    rw [Drops.anchorJob_eq (Run.drops first), transactionFindJobsThatMatterToAnchor]
    split <;> rfl
  refine ⟨verified, v, searched, ((Drops.descends (Run.drops third)).trans descends).trans (Drops.descends last.drops),
    unique₂.sublist ((Drops.sublist last.drops).map Job.ref), ?_, ?_⟩
  · intro j hj
    obtain ⟨-, k, hk, unit, on⟩ := kept j ((Drops.sublist drops).subset hj)
    obtain ⟨i, hi, ref', unit', type', order'⟩ := mem_markJobs (sub.subset hj)
    obtain ⟨i', hi', ref, unit'', type, -⟩ := mem_markJobs ((Drops.sublist (Run.drops first)).subset hk)
    refine ⟨i, ⟨hi, i', hi', (unit''.trans unit).trans unit'.symm, ?_⟩, ref', unit', type', order'⟩
    rw [keepsUnit_congr anchor.symm ref unit'' type, on]
  · intro single
    have single' : verified.Single := by
      refine List.Nodup.sublist (sub.map Job.unit) ?_
      rwa [markJobs_map _ fun _ => rfl]
    obtain rfl := alone single'
    -- with one job for each unit, none has become redundant since
    have none_left : dropRedundantStep order states m merged = none := by
      refine dropRedundantStep_eq_none_iff.mpr fun j hj => ⟨hj, j, hj, rfl, ?_⟩
      obtain ⟨-, k, hk, unit, on⟩ := kept j ((Drops.sublist drops).subset hj)
      have nodup : (dropped.jobs.map Job.unit).Nodup := by
        refine List.Nodup.sublist ((Drops.sublist (Run.drops first)).map Job.unit) ?_
        rwa [markJobs_map _ fun _ => rfl]
      obtain rfl := inj_on_of_nodup_map nodup hk ((Drops.sublist drops).subset hj) unit
      rw [keepsUnit_congr (Drops.anchorJob_eq drops) rfl rfl rfl, on]
    unfold transactionDropRedundant
    cases merged.jobs.length <;> simp [exhaust, none_left]

theorem activate_cases (wf : m.Wf []) (trWf : tr.Wf m)
    (done : transactionActivate order states m units ignoreOnIsolate mode tr = .ok (m', affected)) :
    ∃ verified v js, searchOrder order m units verified = .ok v ∧ (∀ j ∈ verified.jobs, ∃ i, Stays states m tr i ∧
        i.ref = j.ref ∧ i.unit = j.unit ∧ i.type = j.type ∧ i.ignoreOrder = j.ignoreOrder) ∧
      (∀ j ∈ js, (∃ i ∈ verified.jobs, i.unit = j.unit ∧ i.ignoreOrder = j.ignoreOrder) ∧
        ∃ i ∈ verified.jobs, i.unit = j.unit ∧ i.type.orderClass = j.type.orderClass) ∧
      (tr.Single → ∀ u k, verified.head u = some k → k ∈ js) ∧ m'.Wf [] ∧ Arises js m m' ∧
      ∀ r ∈ affected, ∀ j, m'.find r = some j → j.installed = true → ∃ k ∈ js, k.unit = j.unit := by
  unfold transactionActivate at done
  split at done
  · simp at done
  rename_i final prepared
  split at done
  · simp at done
  · simp at done
  rename_i m₁ affected₁ applied
  cases done
  obtain ⟨verified, v, searched, descends, unique, old, alone⟩ := prepare_descends trWf.unique prepared
  have fresh : ∀ j ∈ final.heads order, m.find j.ref = none := by
    intro j hj
    obtain ⟨⟨i, hi, same, -⟩, -⟩ := descends j (mem_heads.mp hj).1
    obtain ⟨i', stays, same', -⟩ := old i hi
    rw [← same, ← same']
    exact trWf.fresh i' stays.1
  refine ⟨verified, v, final.heads order, searched, old, fun j hj => ?_, fun single u k head => ?_,
    transactionApply_arises units wf fresh (heads_unique unique) applied⟩
  · obtain ⟨⟨i, hi, -, rest⟩, classes⟩ := descends j (mem_heads.mp hj).1
    exact ⟨⟨i, hi, rest⟩, classes⟩
  · rw [alone single]
    exact mem_heads.mpr ⟨(mem_of_head head).1, (mem_of_head head).2.symm ▸ head⟩

/-- An installed job that is ordered got there by jobs of the transaction which were also looked
at when the order was verified, or it was there before. -/
theorem installed_input {verified : Transaction U} {js : List (Job U)} (wf : m.Wf []) (wf' : m'.Wf [])
    (old : ∀ j ∈ verified.jobs, ∃ i, Stays states m tr i ∧
      i.ref = j.ref ∧ i.unit = j.unit ∧ i.type = j.type ∧ i.ignoreOrder = j.ignoreOrder)
    (descends : ∀ j ∈ js, (∃ i ∈ verified.jobs, i.unit = j.unit ∧ i.ignoreOrder = j.ignoreOrder) ∧
      ∃ i ∈ verified.jobs, i.unit = j.unit ∧ i.type.orderClass = j.type.orderClass)
    (alone : tr.Single → ∀ u k, verified.head u = some k → k ∈ js) (arises : Arises js m m')
    (cls : j.orderClass = some c) (installed : m'.jobOf j.unit = some j) :
    Gets states m tr c j.unit ∧ (∃ h, verified.head j.unit = some h) ∨
      m.jobOf j.unit = some j ∧ ∀ h, verified.head j.unit = some h → tr.Single → Gets states m tr c j.unit := by
  obtain ⟨found, on, -, ordinary⟩ := wf'.jobOf_iff.mp installed
  have ordered : j.ignoreOrder = false := by
    by_contra ignores
    simp [Job.orderClass, ignores] at cls
  rcases arises _ j found on with ⟨kept, away⟩ | ⟨⟨k, hk, unit, order⟩, origin⟩
  · have here := wf.jobOf_iff.mpr ⟨kept, on, rfl, ordinary⟩
    refine Or.inr ⟨here, fun h head single => Or.inr ⟨j, here, cls, ?_⟩⟩
    obtain ⟨member, unit⟩ := mem_of_head head
    obtain ⟨i, stays, -, unit', type, -⟩ := old h member
    have nop := away h (alone single _ h head) unit
    refine ⟨i, stays, unit'.trans unit, Or.inr ?_⟩
    rw [type]
    rw [ordinary] at nop
    simpa [Job.isNop] using nop
  · obtain ⟨⟨i, hi, unit', order'⟩, -⟩ := descends k hk
    obtain ⟨i', stays, -, unit'', -, order''⟩ := old i hi
    have takesPart : ∃ k, Stays states m tr k ∧ k.unit = j.unit ∧ k.ignoreOrder = false :=
      ⟨i', stays, (unit''.trans unit').trans unit, by rw [order'', order', order ordered]⟩
    refine Or.inl ⟨?_, unit ▸ unit' ▸ exists_head hi⟩
    rcases origin with ⟨x, hx, unitX, clsX⟩ | ⟨type, y, hy, onY, unitY, typeY, orderY⟩
    · obtain ⟨-, a, ha, unitA, clsA⟩ := descends x hx
      obtain ⟨a', staysA, -, unitA', typeA, -⟩ := old a ha
      refine Or.inl ⟨takesPart, a', staysA, (unitA'.trans unitA).trans unitX, ?_⟩
      rw [typeA, clsA, clsX, orderClass_type cls]
    · refine Or.inr ⟨y, ?_, ?_, ?_⟩
      · have same := Manager.find_ref hy
        exact wf.jobOf_iff.mpr ⟨same ▸ hy, onY, unitY, by simp [Job.isNop, typeY]⟩
      · rw [Job.orderClass, orderY ordered, typeY, ← type]
        exact orderClass_type cls
      · obtain ⟨i, stays, unit, off⟩ := takesPart
        exact ⟨i, stays, unit, Or.inl ⟨typeY, off⟩⟩

/-- Jobs of the same units and classes precede each other alike. -/
theorem precedes_congr {a' b' : Job U} (ua : a'.unit = a.unit) (ub : b'.unit = b.unit)
    (ca : a'.orderClass = a.orderClass) (cb : b'.orderClass = b.orderClass) :
    Precedes units a' b' ↔ Precedes units a b := by
  rw [precedes_iff, precedes_iff, ua, ub, ca, cb]

/-- A job with a class is not a NOP job, so it is the ordinary job of its unit. -/
theorem installed_ordinary (wf : m.Wf []) (installed : wf.slots.Installed j) (cls : j.orderClass = some c) :
    m.jobOf j.unit = some j := by
  rcases installed with ordinary | nop
  · exact ordinary
  · have := orderClass_type cls
    rw [wf.slots.nopJob_type nop] at this
    exact absurd this (by cases c <;> decide)

/-- The units of a cycle within one class reach each other along Before=. -/
theorem cycle_units {l : List (Job U)} {P : U → Prop} (cycle : IsCycle (Precedes units) l)
    (cls : ∀ j ∈ l, j.orderClass = some c) (holds : ∀ j ∈ l, P j.unit) (ha : a ∈ l) (hb : b ∈ l) :
    TransGen (fun u v => units.Before u v ∧ P u ∧ P v) a.unit b.unit := by
  cases c with
  | starting =>
    have along := cycle.map (S := fun u v => units.Before u v ∧ P u ∧ P v) Job.unit
      fun x hx y hy edge => ⟨(precedes_of_starting edge (cls x hx)).2, holds x hx, holds y hy⟩
    exact along.transGen (mem_map_of_mem ha) (mem_map_of_mem hb)
  | stopping =>
    have back := cycle.map (S := fun u v => units.Before v u ∧ P v ∧ P u) Job.unit
      fun x hx y hy edge => ⟨precedes_of_stopping edge (cls y hy), holds y hy, holds x hx⟩
    exact back.reverse.transGen (mem_reverse.mpr (mem_map_of_mem ha)) (mem_reverse.mpr (mem_map_of_mem hb))

theorem older_of_heap (older : ∀ j ∈ m.heap, j.ref < n) (x : Nat) (j : Job U) (found : m.find x = some j) :
    x < n := by
  obtain ⟨member, rfl⟩ := Keyed.lookup_mem found
  exact older j member

theorem managerAddJob_wf {sys : System U} {depth nextRef : Nat} {req : Request U} (wf : m.Wf [])
    (older : ∀ j ∈ m.heap, j.ref < nextRef)
    (done : managerAddJob sys order depth m nextRef req = some (.ok (m', affected, n))) : m'.Wf [] := by
  unfold managerAddJob at done
  split at done
  · simp at done
  · simp at done
  rename_i tr built
  split at done <;> simp only [reduceCtorEq, some.injEq] at done
  rename_i m₁ affected₁ activated
  obtain ⟨rfl, -, -⟩ := done
  have trWf := (buildTransaction_built (older_of_heap older) built).toWf
  obtain ⟨_, _, _, -, -, -, -, wf', -⟩ := activate_cases wf trWf activated
  exact wf'

end Activate

/-! ## Two units ordered before each other

Both Before= each other and `b` wants `a`.  While a restart of `a` is queued, `b` is
restarted.  When the order is verified `b` has a restart and `a` only a start, which
are no cycle; then the start is merged into the queued restart. -/

inductive PairUnit where
  | a | b
  deriving DecidableEq

def restartPair : System PairUnit where
  units :=
    { dependencies
        | .before, .a | .after, .a => [.b]
        | .before, .b | .after, .b => [.a]
        | .pullInStartIgnored, .b => [.a]
        | _, _ => []
      after_iff_before := by intro u v; cases u <;> cases v <;> decide }
  allUnits := [.a, .b]

def queuedRestart (u : PairUnit) (ref : Nat) : Job PairUnit :=
  { ref, id := ref, unit := u, type := .restart, installed := true, mattersToAnchor := true }

theorem restartPair_run : ∃ m first n tr m',
    managerAddJob restartPair .newestFirst 4 {} 1 ⟨.restart, .a, .replace⟩ = some (.ok (m, first, n)) ∧
    buildTransaction restartPair 4 m n ⟨.restart, .b, .replace⟩ = some (.ok tr) ∧
    transactionActivate .newestFirst restartPair.state m restartPair.units restartPair.ignoreOnIsolate
      .replace tr = .ok (m', [1, 2]) ∧ (∀ j ∈ m.heap, j.ref < n) ∧ m'.jobOf .a = some (queuedRestart .a 1) ∧
    m'.jobOf .b = some (queuedRestart .b 2) :=
  ⟨_, _, _, _, _, rfl, rfl, rfl, by decide, by decide, by decide⟩

theorem startPair_run : ∃ tr m', buildTransaction restartPair 4 {} 1 ⟨.start, .b, .replace⟩ = some (.ok tr) ∧
    transactionActivate .newestFirst restartPair.state {} restartPair.units restartPair.ignoreOnIsolate
      .replace tr = .ok (m', [1]) ∧ ∀ k ∈ tr.jobs, k.orderClass = some .starting :=
  ⟨_, _, rfl, rfl, by decide⟩

end SystemdPort.Core
