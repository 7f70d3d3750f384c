/-
# Core.ManagerInvariant — the tables, the slots and the counter agree

`Manager.Wf pending` ties `m->jobs`, the two job slots of each unit and
`m->n_running_jobs` to the installed jobs.  `pending` are the jobs of
transactions that are being applied, which are in `m->jobs` already and not yet
installed.  Each operation of `Core.Manager` keeps it; installing the
first pending job takes it off the list.
-/
import SystemdPort.Core.Manager

namespace SystemdPort.Core

open Lib Function List Option

set_option autoImplicit false
set_option linter.unusedSectionVars false

variable {U : Type} [DecidableEq U]

def Job.isRunning (j : Job U) : Bool := j.installed && j.state = .running

namespace Manager

/-- The counter counts the installed running jobs, `m->jobs` leads from each id
to the installed job that has it (and to the jobs about to be installed), and a
slot of a unit holds the one job installed there. -/
structure Wf (pending : List (Job U)) (m : Manager U) : Prop where
  unique : Keyed.Unique Job.ref m.heap
  running : m.nRunningJobs = m.heap.countP Job.isRunning
  jobs_iff : ∀ id r, m.jobs id = some r ↔
    (∃ j, m.find r = some j ∧ j.installed = true ∧ j.id = id) ∨
      ∃ j ∈ pending, j.ref = r ∧ j.id = id
  slot_iff : ∀ nop u r, m.slot nop u = some r ↔
    ∃ j, m.find r = some j ∧ j.installed = true ∧ j.unit = u ∧ j.isNop = nop
  types : ∀ r j, m.find r = some j → j.installed = true → j.type.inTransaction = true
  fresh : ∀ j ∈ pending, m.find j.ref = none
  distinct : Keyed.Unique Job.ref pending

theorem Wf.empty : (({} : Manager U)).Wf [] where
  unique := nodup_nil
  running := rfl
  jobs_iff := by simp [find, Keyed.lookup]
  slot_iff := by intro nop u r; cases nop <;> simp [slot, find, Keyed.lookup]
  types := by simp [find, Keyed.lookup]
  fresh := by simp
  distinct := nodup_nil

variable {f : Job U → Job U} (m : Manager U) (id : Nat) (nop : Bool) (r : Nat) (u : U) (x : Nat)

@[simp] theorem slot_setSlot (nop' : Bool) (u u' : U) (r : Option Nat) :
    (m.setSlot nop u r).slot nop' u' = if nop' = nop ∧ u' = u then r else m.slot nop' u' := by
  cases nop <;> cases nop' <;> simp [setSlot, slot, update_apply]

@[simp] theorem heap_setSlot (r : Option Nat) : (m.setSlot nop u r).heap = m.heap := by
  cases nop <;> rfl

@[simp] theorem jobs_setSlot (r : Option Nat) : (m.setSlot nop u r).jobs = m.jobs := by
  cases nop <;> rfl

@[simp] theorem nRunningJobs_setSlot (r : Option Nat) : (m.setSlot nop u r).nRunningJobs = m.nRunningJobs := by
  cases nop <;> rfl

@[simp] theorem find_setSlot (r : Option Nat) (x : Nat) : (m.setSlot nop u r).find x = m.find x := by
  simp [find]

@[simp] theorem heap_removeValue : (m.removeValue id r).heap = m.heap := by
  unfold removeValue; split <;> rfl

@[simp] theorem slot_removeValue (nop : Bool) (u : U) : (m.removeValue id r).slot nop u = m.slot nop u := by
  unfold removeValue; split <;> rfl

@[simp] theorem nRunningJobs_removeValue : (m.removeValue id r).nRunningJobs = m.nRunningJobs := by
  unfold removeValue; split <;> rfl

@[simp] theorem find_removeValue : (m.removeValue id r).find x = m.find x := by
  simp [find]

theorem jobs_removeValue_iff (id' r' : Nat) :
    (m.removeValue id r).jobs id' = some r' ↔ m.jobs id' = some r' ∧ ¬(id' = id ∧ r' = r) := by
  unfold removeValue
  split
  · rename_i here
    by_cases h : id' = id
    · subst h
      simp [here, eq_comm]
    · simp [h]
  · rename_i other
    constructor
    · intro found
      refine ⟨found, ?_⟩
      rintro ⟨rfl, rfl⟩
      exact other found
    · exact And.left

theorem find_modify (keeps : ∀ j, (f j).ref = j.ref) :
    (m.modify r f).find x = if x = r then (m.find r).map f else m.find x := by
  unfold find modify
  by_cases h : x = r
  · subst h
    cases found : Keyed.lookup Job.ref x m.heap with
    | none =>
      simp only [if_true, map_none]
      rw [Keyed.lookup_eq_none_iff] at found ⊢
      intro j member
      rcases Keyed.mem_modify_iff.mp member with ⟨hj, ne⟩ | ⟨k, hk, same, -⟩
      · exact ne
      · exact absurd same (found k hk)
    | some j => simpa using Keyed.lookup_modify_self found keeps
  · simp only [if_neg h]
    exact Keyed.lookup_modify_ne h keeps

/-- Changing a job in place, without touching what the tables know it by. -/
theorem Wf.modify {pending : List (Job U)} {m : Manager U} (wf : m.Wf pending) {r : Nat} {j : Job U}
    (found : m.find r = some j) (keeps : ∀ k, (f k).ref = k.ref) (id : (f j).id = j.id) (unit : (f j).unit = j.unit)
    (installed : (f j).installed = j.installed) (nop : (f j).isNop = j.isNop)
    (type : (f j).installed = true → (f j).type.inTransaction = true) {n : Nat}
    (count : n + (if j.isRunning then 1 else 0) = m.nRunningJobs + if (f j).isRunning then 1 else 0) :
    ({ m.modify r f with nRunningJobs := n } : Manager U).Wf pending := by
  have find' : ∀ x, ({ m.modify r f with nRunningJobs := n } : Manager U).find x =
      if x = r then some (f j) else m.find x := by
    intro x
    change (m.modify r f).find x = _
    rw [find_modify m r x keeps, found]
    rfl
  refine ⟨wf.unique.modify keeps, ?_, fun i x => ?_, fun b u x => ?_, fun x k hk => ?_, fun k hk => ?_, wf.distinct⟩
  · have := Keyed.countP_modify (f := f) wf.unique Job.isRunning found
    have := wf.running
    change n = List.countP Job.isRunning (Keyed.modify Job.ref r f m.heap)
    omega
  · change m.jobs i = some x ↔ _
    rw [wf.jobs_iff, find']
    by_cases h : x = r
    · subst h
      simp [found, id, installed]
    · simp [h]
  · change m.slot b u = some x ↔ _
    rw [wf.slot_iff, find']
    by_cases h : x = r
    · subst h
      simp [found, unit, installed, nop]
    · simp [h]
  · rw [find'] at hk
    split at hk
    · cases hk
      exact type
    · exact wf.types x k hk
  · rw [find']
    have := wf.fresh k hk
    split
    · rename_i same
      rw [same, found] at this
      simp at this
    · exact this

end Manager

/-! ## Every operation keeps the invariant -/

section Keeps

variable {pending : List (Job U)} {m m' : Manager U} {r : Nat}

open Manager

theorem jobSetState_spec (wf : m.Wf pending) {state : JobState} (step : jobSetState m r state = some m') :
    ∃ j, m.find r = some j ∧ m'.Wf pending ∧
      (∀ x, m'.find x = if x = r then some (j.withState state) else m.find x) ∧
      ∀ nop u, m'.slot nop u = m.slot nop u := by
  simp only [jobSetState, bind_eq_bind, bind_eq_some_iff] at step
  obtain ⟨j, found, step⟩ := step
  refine ⟨j, found, ?_⟩
  have changed : ∀ n x, ({ m.modify r (Job.withState state) with nRunningJobs := n } : Manager U).find x =
      if x = r then some (j.withState state) else m.find x := by
    intro n x
    change (m.modify r (Job.withState state)).find x = _
    rw [find_modify m r x (f := Job.withState state) (fun _ => rfl), found]
    rfl
  have keep : ∀ n, n + (if j.isRunning then 1 else 0) =
      m.nRunningJobs + (if (j.withState state).isRunning then 1 else 0) →
      ({ m.modify r (Job.withState state) with nRunningJobs := n } : Manager U).Wf pending :=
    fun n count => wf.modify (f := Job.withState state) found (fun _ => rfl) rfl rfl rfl rfl
      (wf.types r j found) count
  split at step
  · rename_i same
    cases step
    refine ⟨wf, fun x => ?_, fun _ _ => rfl⟩
    by_cases h : x = r
    · subst h
      simp [found, Job.withState, ← same]
    · simp [h]
  · rename_i differs
    by_cases installed : j.installed = true
    · simp only [installed, Bool.not_true, Bool.false_eq_true, if_false] at step
      cases state with
      | running =>
        cases step
        have waiting : j.state ≠ .running := differs
        exact ⟨keep (m.nRunningJobs + 1) (by simp [Job.isRunning, Job.withState, installed, waiting]),
          changed _, fun _ _ => rfl⟩
      | waiting =>
        simp only [bind_eq_some_iff, guard_eq_some', exists_const] at step
        obtain ⟨positive, step⟩ := step
        have positive : 0 < m.nRunningJobs := positive
        have running : j.state = .running := by
          cases hs : j.state with
          | running => rfl
          | waiting => exact absurd hs differs
        cases step
        refine ⟨keep (m.nRunningJobs - 1) ?_, changed _, fun _ _ => rfl⟩
        simp only [Job.isRunning, Job.withState, installed, running]
        simp
        omega
    · simp only [installed, Bool.not_false, if_true, some.injEq] at step
      subst step
      exact ⟨keep m.nRunningJobs (by simp [Job.isRunning, Job.withState, installed]),
        changed m.nRunningJobs, fun _ _ => rfl⟩

theorem jobUninstall_spec (wf : m.Wf pending) (step : jobUninstall m r = some m') :
    m'.Wf pending ∧ ∀ x, x ≠ r → m'.find x = m.find x := by
  simp only [jobUninstall, bind_eq_bind, bind_eq_some_iff, guard_eq_some', exists_const] at step
  obtain ⟨j, found, installed, m₁, waited, inSlot, step⟩ := step
  obtain ⟨j', found', wf₁, find₁, -⟩ := jobSetState_spec wf waited
  obtain rfl : j = j' := some.inj (found.symm.trans found')
  cases step
  set m₂ := (m₁.setSlot j.isNop j.unit none).removeValue j.id r with hm₂
  have here : m₁.find r = some (j.withState .waiting) := by simpa using find₁ r
  have find₂ : ∀ x, (m₂.modify r Job.uninstalled).find x =
      if x = r then some (j.withState .waiting).uninstalled else m₁.find x := by
    intro x
    rw [find_modify m₂ r x (f := Job.uninstalled) (fun _ => rfl)]
    simp [hm₂, here]
  refine ⟨⟨?_, ?_, fun id x => ?_, fun nop u x => ?_, fun x k hk => ?_, fun k hk => ?_, wf.distinct⟩, fun x ne => ?_⟩
  · simpa [hm₂, Manager.modify] using wf₁.unique.modify (f := Job.uninstalled) (fun _ => rfl)
  · have count := Keyed.countP_modify (f := Job.uninstalled) wf₁.unique Job.isRunning here
    have running := wf₁.running
    have off : (j.withState .waiting).isRunning = false := by simp [Job.isRunning, Job.withState]
    have off' : (j.withState .waiting).uninstalled.isRunning = false := by
      simp [Job.isRunning, Job.uninstalled]
    rw [off, off'] at count
    simpa [hm₂, Manager.modify, running] using count.symm
  · change m₂.jobs id = some x ↔ _
    rw [jobs_removeValue_iff, jobs_setSlot, wf₁.jobs_iff, find₂]
    by_cases h : x = r
    · subst h
      have absent : ¬ ∃ k ∈ pending, k.ref = x ∧ k.id = id := by
        rintro ⟨k, hk, same, -⟩
        have := wf₁.fresh k hk
        rw [same, here] at this
        simp at this
      have same : (j.withState .waiting).id = j.id := rfl
      simp only [Job.uninstalled]
      grind
    · simp [h]
  · change m₂.slot nop u = some x ↔ _
    rw [slot_removeValue, slot_setSlot, find₂]
    by_cases h : x = r
    · subst h
      simp only [if_true, some.injEq]
      constructor
      · intro other
        split at other
        · simp at other
        · rename_i ne
          obtain ⟨k, hk, -, unit, nop'⟩ := (wf₁.slot_iff nop u x).mp other
          rw [here] at hk
          cases hk
          exact absurd ⟨nop'.symm, unit.symm⟩ ne
      · rintro ⟨k, rfl, off, -⟩
        simp [Job.uninstalled] at off
    · rw [if_neg h, ← wf₁.slot_iff nop u x]
      split
      · rename_i same
        rw [same.1, same.2, inSlot]
        simp [Ne.symm h]
      · rfl
  · rw [find₂] at hk
    split at hk
    · cases hk
      simp [Job.uninstalled]
    · exact wf₁.types x k hk
  · rw [find₂]
    have := wf₁.fresh k hk
    split
    · rename_i same
      rw [same, here] at this
      simp at this
    · exact this
  · rw [find₂, if_neg ne, find₁, if_neg ne]

theorem jobFree_spec (wf : m.Wf pending) (step : jobFree m r = some m') :
    m'.Wf pending ∧ ∀ x, m'.find x = if x = r then none else m.find x := by
  simp only [jobFree, bind_eq_bind, bind_eq_some_iff, guard_eq_some', exists_const] at step
  obtain ⟨j, found, off, step⟩ := step
  simp only [Bool.not_eq_true'] at off
  cases step
  have find' : ∀ x, ({ m with heap := Keyed.remove Job.ref r m.heap } : Manager U).find x =
      if x = r then none else m.find x := by
    intro x
    change Keyed.lookup Job.ref x (Keyed.remove Job.ref r m.heap) = _
    by_cases h : x = r
    · subst h
      simp [Keyed.lookup_remove_self]
    · simp [h, Keyed.lookup_remove_ne h, Manager.find]
  refine ⟨⟨wf.unique.remove, ?_, fun id x => ?_, fun nop u x => ?_, fun x k hk => ?_,
    fun k hk => ?_, wf.distinct⟩, find'⟩
  · have count := Keyed.countP_remove wf.unique Job.isRunning found
    simpa [Job.isRunning, off, wf.running] using count.symm
  · rw [wf.jobs_iff, find']
    by_cases h : x = r
    · subst h
      simp [found, off]
    · simp [h]
  · change m.slot nop u = some x ↔ _
    rw [wf.slot_iff, find']
    by_cases h : x = r
    · subst h
      simp [found, off]
    · simp [h]
  · rw [find'] at hk
    split at hk
    · simp at hk
    · exact wf.types x k hk
  · rw [find', wf.fresh k hk]
    simp

/-- Counters other than that of the running jobs are of no concern. -/
theorem Manager.Wf.failed (wf : m.Wf pending) (n : Nat) : ({ m with nFailedJobs := n } : Manager U).Wf pending :=
  { wf with }

theorem jobFinishSelf_spec (wf : m.Wf pending) {result : JobResult} (step : jobFinishSelf m r result = some m') :
    m'.Wf pending ∧ (∀ x, x ≠ r → m'.find x = m.find x) ∧ ∀ j', m'.find r = some j' → result = .done ∧
        ∃ j, m.find r = some j ∧ j.installed = true ∧ j.unit = j'.unit ∧ j.isNop = j'.isNop := by
  simp only [jobFinishSelf, bind_eq_bind, bind_eq_some_iff, guard_eq_some', exists_const, Bool.and_eq_true] at step
  obtain ⟨j, found, ⟨installed, -⟩, step⟩ := step
  split at step
  · rename_i restart
    have nop : j.patched.isNop = j.isNop := by simp [Job.isNop, Job.patched, restart.2]
    have kept : (m.modify r Job.patched).Wf pending :=
      wf.modify (f := Job.patched) found (fun _ => rfl) rfl rfl rfl nop (fun _ => rfl) rfl
    have patched : ∀ x, (m.modify r Job.patched).find x = if x = r then some j.patched else m.find x := by
      intro x
      rw [find_modify m r x (f := Job.patched) (fun _ => rfl), found]
      rfl
    obtain ⟨k, found', wf', find', -⟩ := jobSetState_spec kept step
    refine ⟨wf', fun x ne => ?_, fun j' hj' => ⟨restart.1, j, found, installed, ?_⟩⟩
    · rw [find', if_neg ne, patched, if_neg ne]
    · rw [patched, if_pos rfl] at found'
      cases found'
      rw [find', if_pos rfl] at hj'
      cases hj'
      exact ⟨rfl, nop.symm⟩
  · simp only [bind_eq_some_iff] at step
    obtain ⟨m₁, gone, freed⟩ := step
    have counted : (if result = .failed ∨ result = .invalid then
        { m with nFailedJobs := m.nFailedJobs + 1 } else m).Wf pending := by
      split
      · exact wf.failed _
      · exact wf
    obtain ⟨wf₁, find₁⟩ := jobUninstall_spec counted gone
    obtain ⟨wf₂, find₂⟩ := jobFree_spec wf₁ freed
    refine ⟨wf₂, fun x ne => ?_, fun j' hj' => ?_⟩
    · rw [find₂, if_neg ne, find₁ x ne]
      split <;> rfl
    · rw [find₂] at hj'
      simp at hj'

variable {states : U → UnitActiveState} {j : Job U} {pending' js : List (Job U)} {u : U}

theorem jobMergeIntoInstalled_spec (wf : m.Wf pending) {other : Job U} (ordinary : other.type.inTransaction = true)
    (step : jobMergeIntoInstalled states m r other = some m') :
    m'.Wf pending ∧ ∀ nop u, m'.slot nop u = m.slot nop u := by
  simp only [jobMergeIntoInstalled, bind_eq_bind, bind_eq_some_iff,
    guard_eq_some', exists_const, Bool.and_eq_true] at step
  obtain ⟨j, found, ⟨installed, -⟩, type, merged, step⟩ := step
  cases step
  have old := wf.types r j found installed
  have new : type.inTransaction = true ∧ (type = .nop ↔ j.type = .nop) := by
    unfold installedMergeType at merged
    split at merged
    · rename_i ordinary'
      have := merge_inTransaction _ _ _ old ordinary ordinary' type merged
      simp [this.1, this.2, ordinary']
    · rename_i nop
      split at merged
      · cases merged
        simpa [JobType.inTransaction, JobType.index] using nop
      · simp at merged
  have nop : (j.merged type other).isNop = j.isNop := by simp [Job.isNop, Job.merged, new.2]
  exact ⟨wf.modify (f := (·.merged type other)) found (fun _ => rfl) rfl rfl rfl nop (fun _ => new.1)
    rfl, fun _ _ => rfl⟩

theorem Job.installable_iff (j : Job U) : j.installable = true ↔
    j.installed = false ∧ j.type.inTransaction = true ∧ j.state = .waiting := by
  simp [Job.installable, and_assoc]

/-- Putting the first pending job into its free slot; `n` and `c` are what the
two counters become. -/
theorem Manager.Wf.place (wf : m.Wf (j :: pending)) {n c : Nat} (free : m.slot j.isNop j.unit = none)
    (type : j.type.inTransaction = true) (count : n = m.nRunningJobs + if j.state = .running then 1 else 0) :
    ({ m.place j with nRunningJobs := n, nInstalledJobs := c } : Manager U).Wf pending := by
  set m' : Manager U := { m.place j with nRunningJobs := n, nInstalledJobs := c } with hm'
  have fresh : m.find j.ref = none := wf.fresh j (by simp)
  have apart : ∀ k ∈ pending, k.ref ≠ j.ref := by
    intro k hk same
    have := (nodup_cons.mp wf.distinct).1
    exact this (same ▸ mem_map_of_mem hk)
  have find' : ∀ x, m'.find x =
      if x = j.ref then some { j with installed := true } else m.find x := by
    intro x
    by_cases h : x = j.ref
    · simp [hm', Manager.find, Manager.place, Keyed.lookup, h]
    · simp [hm', Manager.find, Manager.place, Keyed.lookup, h, Ne.symm h]
  refine ⟨?_, ?_, fun id x => ?_, fun nop u x => ?_, fun x k hk => ?_, fun k hk => ?_, (nodup_cons.mp wf.distinct).2⟩
  · refine wf.unique.cons fun k hk => ?_
    exact Keyed.lookup_eq_none_iff.mp fresh k hk
  · have := wf.running
    simp [hm', Manager.place, Job.isRunning, count, this, countP_cons]
  · change (m.setSlot j.isNop j.unit (some j.ref)).jobs id = some x ↔ _
    rw [jobs_setSlot, wf.jobs_iff, find']
    by_cases h : x = j.ref
    · subst h
      simp [fresh]
    · simp [h, Ne.symm h]
  · change (m.setSlot j.isNop j.unit (some j.ref)).slot nop u = some x ↔ _
    rw [slot_setSlot, find']
    by_cases h : x = j.ref
    · subst h
      have := wf.slot_iff nop u j.ref
      simp only [Job.isNop]
      grind
    · rw [if_neg h, ← wf.slot_iff nop u x]
      split
      · rename_i same
        rw [same.1, same.2, free]
        simp [Ne.symm h]
      · rfl
  · rw [find'] at hk
    split at hk
    · cases hk
      exact fun _ => type
    · exact wf.types x k hk
  · rw [find', if_neg (apart k hk)]
    exact wf.fresh k (by simp [hk])

theorem place_wf (wf : m.Wf (j :: pending)) (free : m.slot j.isNop j.unit = none) (ready : j.installable = true) :
    (m.place j).Wf pending := by
  obtain ⟨-, type, waiting⟩ := j.installable_iff.mp ready
  have := wf.place (n := m.nRunningJobs) (c := m.nInstalledJobs + 1) free type (by simp [waiting])
  have same : ({ m.place j with
      nRunningJobs := m.nRunningJobs, nInstalledJobs := m.nInstalledJobs + 1 } : Manager U) =
      m.place j := by
    simp [Manager.place, Manager.setSlot]
    cases j.isNop <;> rfl
  rwa [same] at this

/-- Taking the entry of a job that was not installed out of `m->jobs`. -/
theorem Manager.Wf.forget (wf : m.Wf pending) (fresh : m.find j.ref = none)
    (only : ∀ k ∈ pending, k.ref = j.ref → k = j) (rest : ∀ k, k ∈ pending' ↔ k ∈ pending ∧ k ≠ j)
    (distinct : Keyed.Unique Job.ref pending') : (m.removeValue j.id j.ref).Wf pending' := by
  refine ⟨by simpa using wf.unique, by simpa using wf.running, fun id x => ?_,
    fun nop u x => by simpa using wf.slot_iff nop u x, fun x k => by simpa using wf.types x k,
    fun k hk => by simpa using wf.fresh k ((rest k).mp hk).1, distinct⟩
  rw [jobs_removeValue_iff, wf.jobs_iff, find_removeValue]
  constructor
  · rintro ⟨⟨k, hk⟩ | ⟨k, hk, rfl, rfl⟩, ne⟩
    · exact Or.inl ⟨k, hk⟩
    · refine Or.inr ⟨k, (rest k).mpr ⟨hk, ?_⟩, rfl, rfl⟩
      rintro rfl
      exact ne ⟨rfl, rfl⟩
  · rintro (⟨k, hk, rest'⟩ | ⟨k, hk, rfl, rfl⟩)
    · refine ⟨Or.inl ⟨k, hk, rest'⟩, ?_⟩
      rintro ⟨-, rfl⟩
      simp [fresh] at hk
    · obtain ⟨member, ne⟩ := (rest k).mp hk
      exact ⟨Or.inr ⟨k, member, rfl, rfl⟩, fun same => ne (only k member same.2)⟩

theorem mergeInstalled_spec (wf : m.Wf pending) {uj : Job U} (ordinary : j.type.inTransaction = true)
    (step : mergeInstalled states m uj j = some m') : m'.Wf pending ∧ ∀ nop u, m'.slot nop u = m.slot nop u := by
  simp only [mergeInstalled, bind_eq_bind, bind_eq_some_iff] at step
  obtain ⟨m₁, merged, step⟩ := step
  obtain ⟨wf₁, slot₁⟩ := jobMergeIntoInstalled_spec wf ordinary merged
  split at step
  · cases step
    exact ⟨wf₁, slot₁⟩
  · obtain ⟨-, -, wf₂, -, slot₂⟩ := jobSetState_spec wf₁ step
    exact ⟨wf₂, fun nop u => (slot₂ nop u).trans (slot₁ nop u)⟩

/-- Once the one job of a slot is gone, the slot is free. -/
theorem Manager.Wf.slot_freed (wf : m.Wf pending) (wf' : m'.Wf pending) {nop : Bool} (taken : m.slot nop u = some r)
    (others : ∀ x, x ≠ r → m'.find x = m.find x) (gone : m'.find r = none) : m'.slot nop u = none := by
  cases stale : m'.slot nop u with
  | none => rfl
  | some x =>
    obtain ⟨k, found, rest⟩ := (wf'.slot_iff _ _ _).mp stale
    by_cases h : x = r
    · rw [h, gone] at found
      simp at found
    · rw [others x h] at found
      have := (wf.slot_iff _ _ _).mpr ⟨k, found, rest⟩
      rw [taken] at this
      exact absurd (some.inj this).symm h

/-- The entry of the first pending job goes, if that job was merged away. -/
theorem dropMerged_wf (done : (r = j.ref ∧ m.Wf js) ∨ (r ≠ j.ref ∧ m.Wf (j :: js))) : (dropMerged m j r).Wf js := by
  rcases done with ⟨same, wf⟩ | ⟨other, wf⟩
  · simpa [dropMerged, same] using wf
  · rw [dropMerged, if_pos other]
    have nodup := nodup_cons.mp wf.distinct
    have apart : ∀ k ∈ js, k.ref ≠ j.ref := fun k hk same =>
      nodup.1 (same ▸ mem_map_of_mem hk)
    refine wf.forget (wf.fresh j (by simp)) ?_ ?_ nodup.2
    · intro k hk same
      rcases mem_cons.mp hk with rfl | hk
      · rfl
      · exact absurd same (apart k hk)
    · intro k
      rw [mem_cons]
      constructor
      · intro hk
        exact ⟨Or.inr hk, fun e => apart k hk (by rw [e])⟩
      · rintro ⟨rfl | hk, ne⟩
        · exact absurd rfl ne
        · exact hk

/-- A job in a slot is not one of those still to be installed. -/
theorem Manager.Wf.slot_not_pending (wf : m.Wf pending) (member : j ∈ pending) {nop : Bool}
    (taken : m.slot nop u = some r) : r ≠ j.ref := by
  rintro rfl
  obtain ⟨k, found, -⟩ := (wf.slot_iff _ _ _).mp taken
  rw [wf.fresh j member] at found
  simp at found

theorem Manager.find_ref (found : m.find r = some j) : j.ref = r :=
  (Keyed.lookup_mem found).2

/-! ## Entering the jobs of a transaction -/

theorem Manager.Wf.enter (wf : m.Wf pending) (free : m.jobs j.id = none) (fresh : m.find j.ref = none)
    (apart : ∀ k ∈ pending, k.ref ≠ j.ref) :
    ({ m with jobs := update m.jobs j.id (some j.ref) } : Manager U).Wf (j :: pending) := by
  refine { wf with jobs_iff := fun id x => ?_, fresh := ?_, distinct := ?_ }
  · change update m.jobs j.id (some j.ref) id = some x ↔ (∃ k, m.find x = some k ∧ _) ∨ _
    by_cases h : id = j.id
    · subst h
      have none := wf.jobs_iff j.id x
      rw [free] at none
      simp only [reduceCtorEq, false_iff, not_or] at none
      simp [none.1, none.2]
    · rw [update_of_ne h, wf.jobs_iff]
      simp [Ne.symm h]
  · exact forall_mem_cons.mpr ⟨fresh, wf.fresh⟩
  · exact wf.distinct.cons apart

/-- Only which jobs are pending matters, not their order. -/
theorem Manager.Wf.perm (wf : m.Wf pending) (same : pending.Perm pending') : m.Wf pending' := by
  refine ⟨wf.unique, wf.running, fun id x => ?_, wf.slot_iff, wf.types, fun k hk => ?_, ?_⟩
  · rw [wf.jobs_iff]
    simp [same.mem_iff]
  · exact wf.fresh k (same.mem_iff.mpr hk)
  · exact (same.map Job.ref).nodup_iff.mp wf.distinct

@[simp] theorem find_putJobs (js : List (Job U)) (m : Manager U) (x : Nat) : (putJobs js m).1.find x = m.find x := by
  induction js generalizing m with
  | nil => rfl
  | cons j js ih =>
    unfold putJobs
    split
    · rfl
    · exact ih _

@[simp] theorem slot_putJobs (js : List (Job U)) (m : Manager U) (nop : Bool) (u : U) :
    (putJobs js m).1.slot nop u = m.slot nop u := by
  induction js generalizing m with
  | nil => rfl
  | cons j js ih =>
    unfold putJobs
    split
    · rfl
    · exact ih _

@[simp] theorem slot_rollbackJobs (js : List (Job U)) (m : Manager U) (nop : Bool) (u : U) :
    (rollbackJobs js m).slot nop u = m.slot nop u := by
  induction js generalizing m with
  | nil => rfl
  | cons j js ih =>
    exact (ih _).trans (slot_removeValue m j.id j.ref nop u)

@[simp] theorem slot_dropMerged (m : Manager U) (j : Job U) (x : Nat) (nop : Bool) (u : U) :
    (dropMerged m j x).slot nop u = m.slot nop u := by
  unfold dropMerged
  split
  · exact slot_removeValue m j.id j.ref nop u
  · rfl

/-- A job takes no slot but that of its own unit. -/
theorem slot_place_ne (ne : u ≠ j.unit) (nop : Bool) : (m.place j).slot nop u = m.slot nop u := by
  change (m.setSlot j.isNop j.unit (some j.ref)).slot nop u = _
  rw [slot_setSlot, if_neg fun same => ne same.2]

theorem slot_jobInstallDeserialized_ne (ne : u ≠ j.unit) (nop : Bool) :
    (jobInstallDeserialized m j).slot nop u = m.slot nop u := by
  have kept : (({ m with jobs := update m.jobs j.id (some j.ref) } : Manager U).setSlot
      j.isNop j.unit (some j.ref)).slot nop u = m.slot nop u := by
    rw [slot_setSlot, if_neg fun same => ne same.2]
    rfl
  unfold jobInstallDeserialized
  split_ifs
  all_goals first | rfl | exact kept

/-- The entered jobs are pending; if not all went in, they are among `js`. -/
theorem putJobs_spec (wf : m.Wf pending) (fresh : ∀ j ∈ js, m.find j.ref = none)
    (distinct : Keyed.Unique Job.ref (js ++ pending)) :
    ∃ entered, entered ⊆ js ∧ (putJobs js m).1.Wf (entered ++ pending) ∧
      ((putJobs js m).2 = true → entered = js) := by
  induction js generalizing m pending with
  | nil => exact ⟨[], by simp, by exact wf, fun _ => rfl⟩
  | cons j js ih =>
    unfold putJobs
    split
    · exact ⟨[], by simp, by exact wf, by simp⟩
    · rename_i free
      have free : m.jobs j.id = none := by simpa using free
      have nodup := nodup_cons.mp (by exact distinct :
        (j.ref :: (js ++ pending).map Job.ref).Nodup)
      have apart : ∀ k ∈ js ++ pending, k.ref ≠ j.ref := fun k hk same =>
        nodup.1 (same ▸ mem_map_of_mem hk)
      have here := wf.enter free (fresh j (by simp)) fun k hk => apart k (by simp [hk])
      have distinct' : Keyed.Unique Job.ref (js ++ (j :: pending)) := by
        have moved : (j :: (js ++ pending)).Perm (js ++ j :: pending) := perm_middle.symm
        exact (moved.map Job.ref).nodup_iff.mp (by exact distinct)
      obtain ⟨entered, sub, wf', all⟩ := ih here (fun k hk => fresh k (by simp [hk])) distinct'
      refine ⟨j :: entered, ?_, wf'.perm perm_middle, fun h => by rw [all h]⟩
      exact cons_subset_cons j sub

theorem rollbackJobs_wf {entered : List (Job U)} (sub : entered ⊆ js) (wf : m.Wf (entered ++ pending))
    (fresh : ∀ j ∈ js, m.find j.ref = none) (distinct : Keyed.Unique Job.ref (js ++ pending)) :
    (rollbackJobs js m).Wf pending := by
  induction js generalizing m entered with
  | nil =>
    have : entered = [] := subset_nil.mp sub
    simpa [rollbackJobs, this] using wf
  | cons j js ih =>
    have nodup := nodup_cons.mp (by exact distinct :
      (j.ref :: (js ++ pending).map Job.ref).Nodup)
    have apart : ∀ k ∈ js ++ pending, k.ref ≠ j.ref := fun k hk same =>
      nodup.1 (same ▸ mem_map_of_mem hk)
    have others : ∀ k ∈ pending, k ≠ j := fun k hk same =>
      apart k (by simp [hk]) (by rw [same])
    have sub' : entered.filter (· ≠ j) ⊆ js := by
      intro k hk
      obtain ⟨member, ne⟩ := mem_filter.mp hk
      rcases mem_cons.mp (sub member) with rfl | rest
      · simp at ne
      · exact rest
    have wf' : (m.removeValue j.id j.ref).Wf (entered.filter (· ≠ j) ++ pending) := by
      refine wf.forget (fresh j (by simp)) ?_ ?_ ?_
      · intro k hk same
        rcases mem_append.mp hk with member | member
        · rcases mem_cons.mp (sub member) with rfl | rest
          · rfl
          · exact absurd same (apart k (by simp [rest]))
        · exact absurd same (apart k (by simp [member]))
      · intro k
        simp only [mem_append, mem_filter, decide_eq_true_eq, or_and_right]
        constructor
        · rintro (h | h)
          · exact Or.inl h
          · exact Or.inr ⟨h, others k h⟩
        · rintro (h | h)
          · exact Or.inl h
          · exact Or.inr h.1
      · exact wf.distinct.sublist ((filter_sublist.append_right pending).map Job.ref)
    exact ih sub' wf' (fun k hk => by simpa using fresh k (by simp [hk])) nodup.2

/-- A deserialized job goes in whole or not at all. -/
theorem jobInstallDeserialized_wf (wf : m.Wf pending) (fresh : m.find j.ref = none)
    (apart : ∀ k ∈ pending, k.ref ≠ j.ref) : (jobInstallDeserialized m j).Wf pending := by
  unfold jobInstallDeserialized
  split
  · exact wf
  rename_i type
  split
  · exact wf
  rename_i slot
  split
  · exact wf
  rename_i free
  have slot : m.slot j.isNop j.unit = none := by simpa using slot
  have entered := wf.enter (by simpa using free) fresh apart
  have placed := entered.place (c := m.nInstalledJobs) slot (by simpa using type) rfl
  cases hn : j.isNop <;> split <;> simp_all [Manager.place, Manager.setSlot]

/-! ## The slots as the job order sees them -/

theorem Manager.Wf.slot_find_iff (wf : m.Wf pending) (nop : Bool) (u : U) : (m.slot nop u).bind m.find = some j ↔
      m.find j.ref = some j ∧ j.installed = true ∧ j.unit = u ∧ j.isNop = nop := by
  rw [bind_eq_some_iff]
  constructor
  · rintro ⟨r, taken, found⟩
    obtain ⟨k, hk, rest⟩ := (wf.slot_iff nop u r).mp taken
    obtain rfl : j = k := some.inj (found.symm.trans hk)
    exact ⟨(Manager.find_ref found).symm ▸ found, rest⟩
  · rintro ⟨found, rest⟩
    exact ⟨j.ref, (wf.slot_iff nop u j.ref).mpr ⟨j, found, rest⟩, found⟩

theorem Manager.Wf.jobOf_iff (wf : m.Wf pending) : m.jobOf u = some j ↔
      m.find j.ref = some j ∧ j.installed = true ∧ j.unit = u ∧ j.isNop = false :=
  wf.slot_find_iff false u

def Manager.Wf.slots (wf : m.Wf pending) : UnitSlots U where
  job := m.jobOf
  nopJob u := (m.unitNopJob u).bind m.find
  busy := (m.heap.map Job.unit).toFinset
  job_unit found := (wf.jobOf_iff.mp found).2.2.1
  nopJob_unit found := ((wf.slot_find_iff true _).mp found).2.2.1
  nopJob_type found := by
    simpa [Job.isNop] using ((wf.slot_find_iff true _).mp found).2.2.2
  mem_busy found := by
    obtain ⟨present, -, rfl, -⟩ := wf.jobOf_iff.mp found
    simpa using ⟨_, (Keyed.lookup_mem present).1, rfl⟩

end Keeps

end SystemdPort.Core
