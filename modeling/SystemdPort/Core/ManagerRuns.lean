/-
# Core.ManagerRuns — every way the installed jobs can change

`Core.Manager` has the bookkeeping of single operations.  A job that
finishes does more than that: it fails the jobs that depend on it, starts
OnFailure= units, and lets the units that trigger its own unit know
(`unit_trigger_notify()`).  OnFailure= and those hooks enqueue jobs of their own,
so a whole transaction can be applied in the middle of `job_install()`, between
the removal of a conflicting job and the assignment of the slot.

The relations below are the operations with everything that happens inside them.
`Calls S pending m m'` says that calls which install jobs on units in `S` only
lead from `m` to `m'`, while the jobs `pending` wait to be installed.  Which units
the `trigger_notify` hooks for `u` may enqueue jobs for is `env.enqueues u`.

`consistent_iff` settles when the manager stays consistent: exactly if no unit
can be enqueued by the hooks that run when its own job goes.
-/
import SystemdPort.Core.ManagerInvariant

namespace SystemdPort.Core

open Lib

set_option autoImplicit false
set_option linter.unusedSectionVars false

variable {U : Type} [DecidableEq U]

/-- What the manager's job code is run against: the dependencies and, for each
unit, the units that the `trigger_notify` hooks run for it may enqueue jobs for,
directly or by what they set off. -/
structure Env (U : Type) where
  units : Units U
  enqueues : U → Set U

/-- The error codes that `job_run_and_invalidate()` tells apart. -/
inductive RunResult where
  | eagain | ealready | ecomm | ebadr | enoexec | eproto | eopnotsupp | enolink | estale
  | otherError
  | success
  deriving DecidableEq

/-- The result a job finishes with; `none` when it goes on. -/
def RunResult.jobResult : RunResult → Option JobResult
  | eagain | success => none
  | ealready | ecomm => some .done
  | ebadr => some .skipped
  | enoexec => some .invalid
  | eproto => some .assert
  | eopnotsupp => some .unsupported
  | enolink => some .dependency
  | estale => some .once
  | otherError => some .failed

/-- What `job_run_and_invalidate()` gets for a job of type `t` in state `s`, where
`performed` is what `unit_start()`, `unit_stop()` or `unit_reload()` return. -/
def runResult (t : JobType) (s : UnitActiveState) (performed : RunResult) : RunResult :=
  match t with
  | .verifyActive =>
    if s.isActiveOrReloading then .ealready
    else if s = .activating then .eagain
    else .ebadr
  | .nop => .ealready
  | .reload => performed
  -- a unit type that supports neither starting nor stopping is waited for
  | _ => if performed = .ebadr then .success else performed

/-- Whether running the job calls into the unit. -/
def JobType.performs : JobType → Bool
  | .start | .stop | .restart | .reload => true
  | _ => false

/-- The units whose start jobs fail with a job of type `t` on `u` that finished. -/
def failTargets (units : Units U) (u : U) (t : JobType) (s : UnitActiveState) (result : JobResult)
    (recursive : Bool) : List U :=
  let failed :=
    if result ≠ .done ∧ recursive then
      match t with
      | .start | .verifyActive => units.dependencies .propagateStartFailure u
      | .stop => units.dependencies .propagateStopFailure u
      | _ => []
    else []
  let inactive :=
    if result = .done ∧ recursive ∧ (t = .start ∨ t = .reload) ∧ !s.isActiveOrReloading then
      units.dependencies .propagateInactiveStartAsFailure u
    else []
  failed ++ inactive

/-- The results that start OnFailure= units. -/
def JobResult.startsOnFailure : JobResult → Bool
  | .timeout | .dependency => true
  | _ => false

mutual

/-- `job_finish_and_invalidate()`. -/
inductive Finish (env : Env U) : Set U → List (Job U) → Manager U → Nat → JobResult → Bool →
    Manager U → Prop
  | patch {S : Set U} {pending : List (Job U)} {m m' : Manager U} {r : Nat} {j : Job U}
      {recursive : Bool} (found : m.find r = some j) (restart : j.type = .restart)
      (self : jobFinishSelf m r .done = some m') : Finish env S pending m r .done recursive m'
  | remove {S : Set U} {pending : List (Job U)} {m m₁ m₂ m₃ m' : Manager U} {r : Nat} {j : Job U}
      {result : JobResult} {recursive : Bool} {s : UnitActiveState} (found : m.find r = some j)
      (other : ¬(result = .done ∧ j.type = .restart)) (self : jobFinishSelf m r result = some m₁)
      (failed : FailDependencies env S pending
        (failTargets env.units j.unit j.type s result recursive) m₁ m₂)
      (quiet : result.startsOnFailure = false → m₃ = m₂)
      (onFailure : Calls env S pending m₂ m₃)
      (notified : Calls env (S ∩ env.enqueues j.unit) pending m₃ m') :
      Finish env S pending m r result recursive m'

/-- `job_fail_dependencies()` over the units the atom names. -/
inductive FailDependencies (env : Env U) : Set U → List (Job U) → List U → Manager U → Manager U →
    Prop
  | nil {S : Set U} {pending : List (Job U)} {m : Manager U} : FailDependencies env S pending [] m m
  | skip {S : Set U} {pending : List (Job U)} {m m' : Manager U} {u : U} {us : List U}
      (other : ∀ j, m.jobOf u = some j → j.type ≠ .start ∧ j.type ≠ .verifyActive)
      (rest : FailDependencies env S pending us m m') : FailDependencies env S pending (u :: us) m m'
  | fail {S : Set U} {pending : List (Job U)} {m m₁ m' : Manager U} {u : U} {us : List U} {j : Job U}
      (found : m.jobOf u = some j) (type : j.type = .start ∨ j.type = .verifyActive)
      (finished : Finish env S pending m j.ref .dependency true m₁)
      (rest : FailDependencies env S pending us m₁ m') : FailDependencies env S pending (u :: us) m m'

/-- `job_install()`; the number is the job that is then installed. -/
inductive Install (env : Env U) : Set U → List (Job U) → Manager U → Job U → Manager U → Nat → Prop
  | fresh {S : Set U} {pending : List (Job U)} {m : Manager U} {j : Job U}
      (ready : j.installable = true) (free : m.slot j.isNop j.unit = none) :
      Install env S pending m j (m.place j) j.ref
  | replace {S : Set U} {pending : List (Job U)} {m m' : Manager U} {j uj : Job U} {r : Nat}
      (ready : j.installable = true) (taken : m.slot j.isNop j.unit = some r)
      (found : m.find r = some uj) (conflict : jobTypeIsConflicting uj.type j.type = true)
      (canceled : Finish env S (j :: pending) m uj.ref .canceled false m') :
      Install env S pending m j (m'.place j) j.ref
  | merge {S : Set U} {pending : List (Job U)} {m m' : Manager U} {j uj : Job U} {r : Nat}
      {states : U → UnitActiveState} (ready : j.installable = true)
      (taken : m.slot j.isNop j.unit = some r) (found : m.find r = some uj)
      (mergeable : jobTypeIsConflicting uj.type j.type = false)
      (merged : mergeInstalled states m uj j = some m') : Install env S pending m j m' uj.ref

/-- The loop of `transaction_apply()` that installs the jobs. -/
inductive InstallJobs (env : Env U) : Set U → List (Job U) → List (Job U) → Manager U → Manager U →
    Prop
  | nil {S : Set U} {pending : List (Job U)} {m : Manager U} : InstallJobs env S pending [] m m
  | cons {S : Set U} {pending : List (Job U)} {m m₁ m' : Manager U} {j : Job U} {js : List (Job U)}
      {r : Nat} (allowed : j.unit ∈ S) (first : Install env S (js ++ pending) m j m₁ r)
      (rest : InstallJobs env S pending js (dropMerged m₁ j r) m') :
      InstallJobs env S pending (j :: js) m m'

/-- The loop of `transaction_apply()` that cancels jobs for an isolate or flush. -/
inductive CancelJobs (env : Env U) : Set U → List (Job U) → Manager U → Manager U → Prop
  | nil {S : Set U} {pending : List (Job U)} {m : Manager U} : CancelJobs env S pending m m
  | cons {S : Set U} {pending : List (Job U)} {m m₁ m' : Manager U} {j : Job U}
      (found : m.find j.ref = some j) (listed : m.jobs j.id = some j.ref)
      (canceled : Finish env S pending m j.ref .canceled false m₁)
      (rest : CancelJobs env S pending m₁ m') : CancelJobs env S pending m m'

/-- One call from outside. -/
inductive Call (env : Env U) : Set U → List (Job U) → Manager U → Manager U → Prop
  | apply {S : Set U} {pending : List (Job U)} {m m₁ m' : Manager U} {js : List (Job U)}
      (cleared : CancelJobs env S pending m m₁) (fresh : ∀ j ∈ js, m₁.find j.ref = none)
      (distinct : Keyed.Unique Job.ref (js ++ pending)) (all : (putJobs js m₁).2 = true)
      (installed : InstallJobs env S pending js (putJobs js m₁).1 m') : Call env S pending m m'
  | rollback {S : Set U} {pending : List (Job U)} {m m₁ : Manager U} {js : List (Job U)}
      (cleared : CancelJobs env S pending m m₁) (fresh : ∀ j ∈ js, m₁.find j.ref = none)
      (distinct : Keyed.Unique Job.ref (js ++ pending)) (some : (putJobs js m₁).2 = false) :
      Call env S pending m (rollbackJobs js (putJobs js m₁).1)
  | deserialized {S : Set U} {pending : List (Job U)} {m : Manager U} {j : Job U}
      (allowed : j.unit ∈ S) (fresh : m.find j.ref = none) (apart : ∀ k ∈ pending, k.ref ≠ j.ref) :
      Call env S pending m (jobInstallDeserialized m j)
  | finish {S : Set U} {pending : List (Job U)} {m m' : Manager U} {r : Nat} {result : JobResult}
      {recursive : Bool} (finished : Finish env S pending m r result recursive m') :
      Call env S pending m m'
  | uninstall {S : Set U} {pending : List (Job U)} {m m₁ m' : Manager U} {r : Nat}
      (uninstalled : jobUninstall m r = some m₁) (freed : jobFree m₁ r = some m') :
      Call env S pending m m'
  | run {S : Set U} {pending : List (Job U)} {m m₁ m₂ m' : Manager U} {r : Nat} {j : Job U}
      {s : UnitActiveState} {performed : RunResult} (found : m.find r = some j)
      (installed : j.installed = true) (waiting : j.state = .waiting)
      (runnable : jobIsRunnable env.units m.jobOf j = true)
      (running : jobSetState m r .running = some m₁)
      -- what `unit_start()` and the like do, which may take the job away
      (idle : j.type.performs = false → m₂ = m₁) (nested : Calls env S pending m₁ m₂)
      (settled : Settle env S pending m₂ (m₂.jobs j.id) (runResult j.type s performed) m') :
      Call env S pending m m'

/-- The end of `job_run_and_invalidate()`, for the job that is now found by the id. -/
inductive Settle (env : Env U) : Set U → List (Job U) → Manager U → Option Nat → RunResult →
    Manager U → Prop
  | vanished {S : Set U} {pending : List (Job U)} {m : Manager U} {result : RunResult} :
      Settle env S pending m none result m
  | notReady {S : Set U} {pending : List (Job U)} {m m' : Manager U} {r : Nat}
      (waiting : jobSetState m r .waiting = some m') : Settle env S pending m (some r) .eagain m'
  | ongoing {S : Set U} {pending : List (Job U)} {m : Manager U} {r : Nat} :
      Settle env S pending m (some r) .success m
  | finish {S : Set U} {pending : List (Job U)} {m m' : Manager U} {r : Nat} {result : RunResult}
      {outcome : JobResult} (final : result.jobResult = some outcome)
      (finished : Finish env S pending m r outcome true m') : Settle env S pending m (some r) result m'

/-- Any number of calls. -/
inductive Calls (env : Env U) : Set U → List (Job U) → Manager U → Manager U → Prop
  | none {S : Set U} {pending : List (Job U)} {m : Manager U} : Calls env S pending m m
  | cons {S : Set U} {pending : List (Job U)} {m m₁ m' : Manager U}
      (first : Call env S pending m m₁) (rest : Calls env S pending m₁ m') : Calls env S pending m m'

end

/-! ## What a call keeps -/

/-- The invariant is kept, and a free slot of a unit outside `S` stays free. -/
def Keeps (S : Set U) (pending : List (Job U)) (m m' : Manager U) : Prop :=
  m.Wf pending → m'.Wf pending ∧ ∀ u, u ∉ S → ∀ nop, m.slot nop u = none → m'.slot nop u = none

section Keeps

variable {S : Set U} {pending : List (Job U)} {m m₁ m' : Manager U} {r : Nat}

theorem Keeps.refl : Keeps S pending m m := fun wf => ⟨wf, fun _ _ _ free => free⟩

theorem Keeps.trans (first : Keeps S pending m m₁) (rest : Keeps S pending m₁ m') : Keeps S pending m m' := by
  intro wf
  obtain ⟨wf₁, free₁⟩ := first wf
  obtain ⟨wf', free'⟩ := rest wf₁
  exact ⟨wf', fun u out nop free => free' u out nop (free₁ u out nop free)⟩

theorem Keeps.mono {S' : Set U} (sub : S ⊆ S') (keeps : Keeps S pending m m') : Keeps S' pending m m' := by
  intro wf
  obtain ⟨wf', free⟩ := keeps wf
  exact ⟨wf', fun u out => free u fun inside => out (sub inside)⟩

/-- An operation that keeps the invariant and installs no job keeps free slots free. -/
theorem Keeps.of_find (wf' : m.Wf pending → m'.Wf pending)
    (known : m.Wf pending → ∀ x j, m'.find x = some j → j.installed = true →
      ∃ k, m.find x = some k ∧ k.installed = true ∧ k.unit = j.unit ∧ k.isNop = j.isNop) : Keeps S pending m m' := by
  intro wf
  refine ⟨wf' wf, fun u _ nop free => ?_⟩
  cases taken : m'.slot nop u with
  | none => rfl
  | some x =>
    obtain ⟨j, found, installed, unit, kind⟩ := ((wf' wf).slot_iff nop u x).mp taken
    obtain ⟨k, found', installed', unit', kind'⟩ := known wf x j found installed
    have := (wf.slot_iff nop u x).mpr ⟨k, found', installed', unit'.trans unit, kind'.trans kind⟩
    rw [free] at this
    simp at this

theorem jobFinishSelf_keeps {result : JobResult} (step : jobFinishSelf m r result = some m') :
    Keeps S pending m m' := by
  refine Keeps.of_find (fun wf => (jobFinishSelf_spec wf step).1) fun wf x j found installed => ?_
  obtain ⟨-, others, self⟩ := jobFinishSelf_spec wf step
  by_cases h : x = r
  · subst h
    exact (self j found).2
  · rw [others x h] at found
    exact ⟨j, found, installed, rfl, rfl⟩

theorem jobSetState_keeps {state : JobState} (step : jobSetState m r state = some m') : Keeps S pending m m' := by
  intro wf
  obtain ⟨-, -, wf', -, slot⟩ := jobSetState_spec wf step
  exact ⟨wf', fun u _ nop free => (slot nop u).trans free⟩

theorem uninstall_keeps (uninstalled : jobUninstall m r = some m₁) (freed : jobFree m₁ r = some m') :
    Keeps S pending m m' := by
  have wf' : m.Wf pending → m'.Wf pending := fun wf =>
    (jobFree_spec (jobUninstall_spec wf uninstalled).1 freed).1
  refine Keeps.of_find wf' fun wf x j found installed => ?_
  obtain ⟨wf₁, others⟩ := jobUninstall_spec wf uninstalled
  obtain ⟨-, find'⟩ := jobFree_spec wf₁ freed
  rw [find'] at found
  split at found
  · simp at found
  · rename_i ne
    rw [others x ne] at found
    exact ⟨j, found, installed, rfl, rfl⟩

theorem deserialized_keeps {j : Job U} (allowed : j.unit ∈ S) (fresh : m.find j.ref = none)
    (apart : ∀ k ∈ pending, k.ref ≠ j.ref) : Keeps S pending m (jobInstallDeserialized m j) := by
  intro wf
  refine ⟨jobInstallDeserialized_wf wf fresh apart, fun u out nop free => ?_⟩
  have ne : u ≠ j.unit := fun same => out (same ▸ allowed)
  exact (slot_jobInstallDeserialized_ne ne nop).trans free

theorem place_keeps {j : Job U} (allowed : j.unit ∈ S) :
    ∀ u, u ∉ S → ∀ nop, m.slot nop u = none → (m.place j).slot nop u = none := by
  intro u out nop free
  have ne : u ≠ j.unit := fun same => out (same ▸ allowed)
  exact (slot_place_ne ne nop).trans free

/-- Canceling the job of a slot leaves the slot free. -/
theorem canceled_frees {nop : Bool} {u : U} (wf : m.Wf pending) (taken : m.slot nop u = some r)
    (self : jobFinishSelf m r .canceled = some m') : m'.slot nop u = none := by
  obtain ⟨wf', others, gone⟩ := jobFinishSelf_spec wf self
  refine wf.slot_freed wf' taken others ?_
  cases found : m'.find r with
  | none => rfl
  | some j => exact absurd (gone j found).1 (by decide)

end Keeps

/-! ## Runs without re-entry keep the invariant -/

section Safe

variable {env : Env U}

theorem failTargets_canceled (u : U) (t : JobType) (s : UnitActiveState) :
    failTargets env.units u t s .canceled false = [] := by
  simp [failTargets]

theorem FailDependencies.nil_eq {S : Set U} {pending : List (Job U)} {m m' : Manager U}
    (run : FailDependencies env S pending [] m m') : m' = m := by
  cases run
  rfl

mutual

theorem Finish.keeps (safe : ∀ u, u ∉ env.enqueues u) {S : Set U} {pending : List (Job U)}
    {m m' : Manager U} {r : Nat} {result : JobResult} {recursive : Bool} :
    Finish env S pending m r result recursive m' → Keeps S pending m m'
  | .patch _ _ self => jobFinishSelf_keeps self
  | .remove _ _ self failed _ onFailure notified =>
    (((jobFinishSelf_keeps self).trans (failed.keeps safe)).trans (onFailure.keeps safe)).trans
      ((notified.keeps safe).mono Set.inter_subset_left)

theorem FailDependencies.keeps (safe : ∀ u, u ∉ env.enqueues u) {S : Set U} {pending : List (Job U)}
    {us : List U} {m m' : Manager U} : FailDependencies env S pending us m m' → Keeps S pending m m'
  | .nil => Keeps.refl
  | .skip _ rest => rest.keeps safe
  | .fail _ _ finished rest => (finished.keeps safe).trans (rest.keeps safe)

/-- The hooks that run for the canceled job cannot put another job in its place. -/
theorem Install.keeps (safe : ∀ u, u ∉ env.enqueues u) {S : Set U} {pending : List (Job U)}
    {m m' : Manager U} {j : Job U} {r : Nat} : Install env S pending m j m' r → j.unit ∈ S → m.Wf (j :: pending) →
    ((r = j.ref ∧ m'.Wf pending) ∨ (r ≠ j.ref ∧ m'.Wf (j :: pending))) ∧
      ∀ u, u ∉ S → ∀ nop, m.slot nop u = none → m'.slot nop u = none
  | .fresh ready free => fun allowed wf =>
    ⟨Or.inl ⟨rfl, place_wf wf free ready⟩, place_keeps allowed⟩
  | .replace ready taken found _ (.remove (j := uj) found' _ self failed quiet _ notified) => by
    intro allowed wf
    have kept := notified.keeps safe
    rw [Manager.find_ref found] at self found'
    have unit : uj.unit = j.unit := by
      obtain ⟨k, hk, -, unit, -⟩ := (wf.slot_iff _ _ _).mp taken
      rwa [Option.some.inj (found'.symm.trans hk)]
    rw [quiet rfl, failed.nil_eq] at kept
    obtain ⟨wf₁, frame₁⟩ := jobFinishSelf_keeps (S := S) self wf
    obtain ⟨wf', frame'⟩ := kept wf₁
    have out : j.unit ∉ S ∩ env.enqueues uj.unit := by
      rw [unit]
      exact fun inside => safe _ inside.2
    have free := frame' j.unit out j.isNop (canceled_frees wf taken self)
    refine ⟨Or.inl ⟨rfl, place_wf wf' free ready⟩, fun u outside nop empty => ?_⟩
    exact place_keeps allowed u outside nop
      (frame' u (fun inside => outside inside.1) nop (frame₁ u outside nop empty))
  | .merge ready taken found _ merged => by
    intro allowed wf
    obtain ⟨wf', slot⟩ := mergeInstalled_spec wf (Job.installable_iff j |>.mp ready).2.1 merged
    have other := wf.slot_not_pending (List.mem_cons_self) taken
    rw [Manager.find_ref found]
    exact ⟨Or.inr ⟨other, wf'⟩, fun u _ nop empty => (slot nop u).trans empty⟩

theorem InstallJobs.keeps (safe : ∀ u, u ∉ env.enqueues u) {S : Set U} {pending : List (Job U)}
    {js : List (Job U)} {m m' : Manager U} : InstallJobs env S pending js m m' → m.Wf (js ++ pending) →
    m'.Wf pending ∧ ∀ u, u ∉ S → ∀ nop, m.slot nop u = none → m'.slot nop u = none
  | .nil => fun wf => ⟨wf, fun _ _ _ free => free⟩
  | .cons allowed first rest => by
    intro wf
    obtain ⟨done, frame₁⟩ := first.keeps safe allowed wf
    obtain ⟨wf', frame'⟩ := rest.keeps safe (dropMerged_wf done)
    refine ⟨wf', fun u out nop free => frame' u out nop ?_⟩
    rw [slot_dropMerged]
    exact frame₁ u out nop free

theorem CancelJobs.keeps (safe : ∀ u, u ∉ env.enqueues u) {S : Set U} {pending : List (Job U)}
    {m m' : Manager U} : CancelJobs env S pending m m' → Keeps S pending m m'
  | .nil => Keeps.refl
  | .cons _ _ canceled rest => (canceled.keeps safe).trans (rest.keeps safe)

theorem Call.keeps (safe : ∀ u, u ∉ env.enqueues u) {S : Set U} {pending : List (Job U)}
    {m m' : Manager U} : Call env S pending m m' → Keeps S pending m m'
  | .apply cleared fresh distinct all installed => by
    refine (cleared.keeps safe).trans fun wf => ?_
    obtain ⟨entered, -, wf₁, whole⟩ := putJobs_spec wf fresh distinct
    rw [whole all] at wf₁
    simpa using installed.keeps safe wf₁
  | .rollback cleared fresh distinct _ => by
    refine (cleared.keeps safe).trans fun wf => ?_
    obtain ⟨entered, sub, wf₁, -⟩ := putJobs_spec wf fresh distinct
    refine ⟨rollbackJobs_wf sub wf₁ (fun j hj => ?_) distinct, fun u _ nop free => ?_⟩
    · simpa using fresh j hj
    · simpa using free
  | .deserialized allowed fresh apart => deserialized_keeps allowed fresh apart
  | .finish finished => finished.keeps safe
  | .uninstall uninstalled freed => uninstall_keeps uninstalled freed
  | .run _ _ _ _ running _ nested settled =>
    ((jobSetState_keeps running).trans (nested.keeps safe)).trans (settled.keeps safe)

theorem Settle.keeps (safe : ∀ u, u ∉ env.enqueues u) {S : Set U} {pending : List (Job U)}
    {m m' : Manager U} {r : Option Nat} {result : RunResult} :
    Settle env S pending m r result m' → Keeps S pending m m'
  | .vanished => Keeps.refl
  | .notReady waiting => jobSetState_keeps waiting
  | .ongoing => Keeps.refl
  | .finish _ finished => finished.keeps safe

theorem Calls.keeps (safe : ∀ u, u ∉ env.enqueues u) {S : Set U} {pending : List (Job U)}
    {m m' : Manager U} : Calls env S pending m m' → Keeps S pending m m'
  | .none => Keeps.refl
  | .cons first rest => (first.keeps safe).trans (rest.keeps safe)

end

end Safe

/-! ## Applying a transaction while nothing else happens -/

section Apply

variable {env : Env U} {S : Set U} {pending : List (Job U)} {states : U → UnitActiveState}
  {m m' : Manager U}

theorem Finish.of_canceled {r : Nat} (self : jobFinishSelf m r .canceled = some m') :
    Finish env S pending m r .canceled false m' := by
  have found : ∃ j, m.find r = some j := by
    simp only [jobFinishSelf, Option.bind_eq_bind, Option.bind_eq_some_iff] at self
    obtain ⟨j, found, -⟩ := self
    exact ⟨j, found⟩
  obtain ⟨j, found⟩ := found
  refine .remove (s := .inactive) found (by simp) self ?_ (fun _ => rfl) .none .none
  exact .nil

theorem Install.of_jobInstall {j : Job U} {r : Nat} (step : jobInstall states m j = some (m', r)) :
    Install env S pending m j m' r := by
  simp only [jobInstall, Option.bind_eq_bind, Option.bind_eq_some_iff, Option.guard_eq_some', exists_const] at step
  obtain ⟨ready, step⟩ := step
  split at step
  · rename_i free
    cases step
    exact .fresh ready free
  · rename_i r' taken
    simp only [Option.bind_eq_some_iff] at step
    obtain ⟨uj, found, step⟩ := step
    split at step
    · rename_i conflict
      simp only [Option.bind_eq_some_iff] at step
      obtain ⟨m₁, self, step⟩ := step
      cases step
      exact .replace ready taken found conflict (.of_canceled self)
    · rename_i mergeable
      simp only [Option.bind_eq_some_iff] at step
      obtain ⟨m₁, merged, step⟩ := step
      cases step
      exact .merge ready taken found (by simpa using mergeable) merged

theorem InstallJobs.of_installJobs {js : List (Job U)} {affected : List Nat}
    (allowed : ∀ j ∈ js, j.unit ∈ S) (step : installJobs states js m = some (m', affected)) :
    InstallJobs env S pending js m m' := by
  induction js generalizing m affected with
  | nil =>
    cases step
    exact .nil
  | cons j js ih =>
    simp only [installJobs, Option.bind_eq_bind, Option.bind_eq_some_iff, Prod.exists] at step
    obtain ⟨m₁, r, first, m₂, rs, rest, step⟩ := step
    cases step
    exact .cons (allowed j (by simp)) (.of_jobInstall first) (ih (fun k hk => allowed k (by simp [hk])) rest)

theorem CancelJobs.of_cancelJobs {l : List (Job U)} (wf : m.Wf pending)
    (known : ∀ j ∈ l, m.find j.ref = some j ∧ j.installed = true) (distinct : Keyed.Unique Job.ref l)
    (step : cancelJobs l m = some m') : CancelJobs env S pending m m' ∧ ∀ x, m.find x = none → m'.find x = none := by
  induction l generalizing m with
  | nil =>
    cases step
    exact ⟨.nil, fun _ absent => absent⟩
  | cons j l ih =>
    simp only [cancelJobs, Option.bind_eq_bind, Option.bind_eq_some_iff] at step
    obtain ⟨m₁, self, rest⟩ := step
    obtain ⟨wf₁, others, gone⟩ := jobFinishSelf_spec wf self
    obtain ⟨found, on⟩ := known j (by simp)
    have listed : m.jobs j.id = some j.ref := (wf.jobs_iff _ _).mpr (Or.inl ⟨j, found, on, rfl⟩)
    have nodup := List.nodup_cons.mp distinct
    have known₁ : ∀ k ∈ l, m₁.find k.ref = some k ∧ k.installed = true := by
      intro k hk
      have ne : k.ref ≠ j.ref := fun same => nodup.1 (same ▸ List.mem_map_of_mem hk)
      rw [others k.ref ne]
      exact known k (by simp [hk])
    obtain ⟨run, absent⟩ := ih wf₁ known₁ nodup.2 rest
    refine ⟨.cons found listed (.of_canceled self) run, fun x none => absent x ?_⟩
    have ne : x ≠ j.ref := by
      rintro rfl
      rw [found] at none
      simp at none
    rwa [others x ne]

/-- `transactionApply` is one of the calls. -/
theorem Call.of_transactionApply {ignoreOnIsolate : U → Bool} {mode : JobMode} {js : List (Job U)}
    {affected : Option (List Nat)} (wf : m.Wf pending) (allowed : ∀ j ∈ js, j.unit ∈ S)
    (fresh : ∀ j ∈ js, m.find j.ref = none) (distinct : Keyed.Unique Job.ref (js ++ pending))
    (step : transactionApply states ignoreOnIsolate mode js m = some (m', affected)) : Call env S pending m m' := by
  simp only [transactionApply, Option.bind_eq_bind, Option.bind_eq_some_iff] at step
  obtain ⟨m₁, cleared, step⟩ := step
  have cleared : CancelJobs env S pending m m₁ ∧ ∀ x, m.find x = none → m₁.find x = none := by
    unfold clearJobs at cleared
    split at cleared
    · refine CancelJobs.of_cancelJobs wf (fun j hj => ?_) ?_ cleared
      · obtain ⟨member, cancels⟩ := List.mem_filter.mp hj
        have found : m.find j.ref = some j := wf.unique.lookup member
        refine ⟨found, ?_⟩
        have listed : m.jobs j.id = some j.ref := by
          simp only [Manager.cancels, Bool.and_eq_true, decide_eq_true_eq] at cancels
          exact cancels.1.1
        rcases (wf.jobs_iff _ _).mp listed with ⟨k, hk, on, -⟩ | ⟨k, hk, same, -⟩
        · rw [found] at hk
          cases hk
          exact on
        · have := wf.fresh k hk
          rw [same, found] at this
          simp at this
      · exact wf.unique.sublist (List.filter_sublist.map Job.ref)
    · cases cleared
      exact ⟨.nil, fun _ absent => absent⟩
  have fresh₁ : ∀ j ∈ js, m₁.find j.ref = none := fun j hj => cleared.2 _ (fresh j hj)
  split at step
  · rename_i whole
    simp only [Option.bind_eq_some_iff, Prod.exists] at step
    obtain ⟨m₂, rs, installed, step⟩ := step
    cases step
    exact .apply cleared.1 fresh₁ distinct whole (.of_installJobs allowed installed)
  · rename_i part
    cases step
    exact .rollback cleared.1 fresh₁ distinct (by simpa using part)

end Apply

/-! ## Consistency -/

/-- The counter is the number of installed running jobs, `m->jobs` maps exactly
the installed jobs by their id, and no unit has two installed jobs of one kind,
ordinary or NOP. -/
structure Manager.Consistent (m : Manager U) : Prop where
  running : m.nRunningJobs = m.heap.countP Job.isRunning
  jobs : ∀ id r, m.jobs id = some r ↔ ∃ j ∈ m.heap, j.ref = r ∧ j.installed = true ∧ j.id = id
  single : ∀ j ∈ m.heap, ∀ k ∈ m.heap, j.installed = true → k.installed = true → j.unit = k.unit →
    j.isNop = k.isNop → j = k

theorem Manager.Wf.consistent {m : Manager U} (wf : m.Wf []) : m.Consistent := by
  have find_iff : ∀ r j, m.find r = some j ↔ j ∈ m.heap ∧ j.ref = r := by
    intro r j
    constructor
    · exact fun found => Keyed.lookup_mem found
    · rintro ⟨member, rfl⟩
      exact wf.unique.lookup member
  refine ⟨wf.running, fun id r => ?_, fun j hj k hk on on' unit kind => ?_⟩
  · rw [wf.jobs_iff]
    simp [find_iff, and_assoc]
  · have first := (wf.slot_iff j.isNop j.unit j.ref).mpr ⟨j, (find_iff _ _).mpr ⟨hj, rfl⟩, on, rfl, rfl⟩
    have second := (wf.slot_iff k.isNop k.unit k.ref).mpr ⟨k, (find_iff _ _).mpr ⟨hk, rfl⟩, on', rfl, rfl⟩
    rw [← unit, ← kind, first] at second
    exact wf.unique.eq hj hk (Option.some.inj second)

/-- The managers that can come about, from a fresh one, by any calls. -/
def Reachable (env : Env U) (m : Manager U) : Prop := Calls env Set.univ [] {} m

section Reentry

/-- A waiting start job of `u`, a stop job that conflicts with it, and the start
job that a hook enqueues while the first one is canceled. -/
def queuedStart (u : U) : Job U := { ref := 0, id := 1, unit := u, type := .start }

def requestedStop (u : U) : Job U := { ref := 1, id := 2, unit := u, type := .stop }

def hookedStart (u : U) : Job U := { ref := 2, id := 3, unit := u, type := .start }

/-- The manager with the start job installed and the stop job about to be. -/
def beforeCancel (u : U) : Manager U :=
  { heap := [{ queuedStart u with installed := true }]
    jobs := Function.update (Function.update (fun _ => none) 1 (some 0)) 2 (some 1)
    unitJob := Function.update (fun _ => none) u (some 0)
    nInstalledJobs := 1 }

theorem beforeCancel_canceled (u : U) : ∃ m₁, jobFinishSelf (beforeCancel u) 0 .canceled = some m₁ ∧
    m₁.heap = [] ∧ m₁.jobs 3 = none ∧ m₁.slot false u = none := by
  simp [jobFinishSelf, beforeCancel, queuedStart, jobUninstall, jobSetState, jobFree, Manager.find, Keyed.lookup,
    Job.isNop, JobType.inTransaction, JobType.index, Manager.slot, Manager.setSlot, Manager.removeValue, Manager.modify, Keyed.modify, Keyed.remove, Job.uninstalled]

/-- Applying a transaction of one job on a unit without one. -/
theorem Call.applyOne (env : Env U) {S : Set U} {pending : List (Job U)} {m : Manager U} {j : Job U}
    (allowed : j.unit ∈ S) (ready : j.installable = true) (free : m.slot j.isNop j.unit = none)
    (unused : m.jobs j.id = none) (fresh : m.find j.ref = none) (distinct : Keyed.Unique Job.ref ([j] ++ pending)) :
    Call env S pending m ((putJobs [j] m).1.place j) := by
  have put : (putJobs [j] m).2 = true := by simp [putJobs, unused]
  have first : Install env S pending (putJobs [j] m).1 j ((putJobs [j] m).1.place j) j.ref :=
    .fresh ready (by simpa using free)
  have rest : InstallJobs env S pending [] (dropMerged ((putJobs [j] m).1.place j) j j.ref)
      ((putJobs [j] m).1.place j) := by
    simpa [dropMerged] using InstallJobs.nil
  exact .apply .nil (by simpa using fresh) distinct put (.cons allowed first rest)

/-- If the hooks for `u` can enqueue a job for `u`, it can get a second one. -/
theorem exists_two_jobs (env : Env U) {u : U} (reentrant : u ∈ env.enqueues u) :
    ∃ m, Reachable env m ∧ ¬ m.Consistent := by
  obtain ⟨m₁, self, heap, unused, free⟩ := beforeCancel_canceled u
  have queued : Call env Set.univ [] {} ((putJobs [queuedStart u] {}).1.place (queuedStart u)) :=
    .applyOne env (Set.mem_univ _) rfl (by simp [Manager.slot]) rfl rfl (by simp [Keyed.Unique])
  set mA := (putJobs [queuedStart u] {}).1.place (queuedStart u) with hmA
  have entered : putJobs [requestedStop u] mA = (beforeCancel u, true) := by
    simp [hmA, putJobs, requestedStop, queuedStart, beforeCancel, Manager.place, Manager.setSlot, Job.isNop]
  have hooked : Call env (Set.univ ∩ env.enqueues u) [requestedStop u] m₁
      ((putJobs [hookedStart u] m₁).1.place (hookedStart u)) :=
    .applyOne env ⟨Set.mem_univ _, reentrant⟩ rfl free unused (by simp [Manager.find, heap, Keyed.lookup])
      (by simp [Keyed.Unique, hookedStart, requestedStop])
  set mB := (putJobs [hookedStart u] m₁).1.place (hookedStart u) with hmB
  have canceled : Finish env Set.univ [requestedStop u] (beforeCancel u) 0 .canceled false mB :=
    .remove (j := { queuedStart u with installed := true }) (s := .inactive) rfl (by simp) self
      (by rw [failTargets_canceled]; exact .nil) (fun _ => rfl) .none (.cons hooked .none)
  have replaced : Install env Set.univ [] (beforeCancel u) (requestedStop u)
      (mB.place (requestedStop u)) 1 :=
    .replace rfl (by simp [beforeCancel, requestedStop, Job.isNop, Manager.slot])
      (show (beforeCancel u).find 0 = some { queuedStart u with installed := true } from rfl)
      (by decide : jobTypeIsConflicting .start .stop = true) canceled
  have stopped : Call env Set.univ [] mA (mB.place (requestedStop u)) := by
    have distinct : Keyed.Unique Job.ref ([requestedStop u] ++ []) := by simp [Keyed.Unique]
    refine .apply .nil ?_ distinct (by rw [entered]) ?_
    · simp [hmA, Manager.find, Manager.place, putJobs, Keyed.lookup, requestedStop, queuedStart]
    · exact .cons (Set.mem_univ _) replaced (by exact .nil)
  refine ⟨_, .cons queued (.cons stopped .none), fun consistent => ?_⟩
  have same := consistent.single { requestedStop u with installed := true } (by simp [Manager.place])
    { hookedStart u with installed := true } (by simp [Manager.place, hmB]) rfl rfl rfl rfl
  simp [requestedStop, hookedStart] at same

end Reentry

/-- The manager is consistent in every run exactly if no unit can be enqueued by
the `trigger_notify` hooks that run when its own job goes away. -/
theorem consistent_iff (env : Env U) :
    (∀ m, Reachable env m → m.Consistent) ↔ ∀ u, u ∉ env.enqueues u := by
  constructor
  · intro always u reentrant
    obtain ⟨m, reachable, broken⟩ := exists_two_jobs env reentrant
    exact broken (always m reachable)
  · intro safe m reachable
    exact (reachable.keeps safe Manager.Wf.empty).1.consistent

/-- A unit `()` that the hooks for it enqueue again. -/
def reentrantEnv : Env Unit where
  units := { dependencies := fun _ _ => [], after_iff_before := by simp }
  enqueues := fun _ => Set.univ

theorem reentrantEnv_two_jobs : ∃ m, Reachable reentrantEnv m ∧ ¬ m.Consistent :=
  exists_two_jobs reentrantEnv (Set.mem_univ ())

/-! ## Transactions that cannot be applied -/

theorem rollbackJobs_jobs (m : Manager U) (js : List (Job U)) : ∃ jobs, rollbackJobs js m = { m with jobs } ∧
    ∀ id r, jobs id = some r ↔ m.jobs id = some r ∧ ∀ j ∈ js, ¬(id = j.id ∧ r = j.ref) := by
  induction js generalizing m with
  | nil => exact ⟨m.jobs, rfl, by simp⟩
  | cons j js ih =>
    obtain ⟨jobs, rolled, kept⟩ := ih (m.removeValue j.id j.ref)
    refine ⟨jobs, rolled.trans ?_, fun id r => ?_⟩
    · unfold Manager.removeValue
      split <;> rfl
    · rw [kept, Manager.jobs_removeValue_iff, List.forall_mem_cons, and_assoc]

/-- Jobs are put until an id is taken. -/
theorem putJobs_jobs (m : Manager U) (js : List (Job U)) : ∃ jobs, (putJobs js m).1 = { m with jobs } ∧
    (∀ id r, m.jobs id = some r → jobs id = some r) ∧
    (∀ id r, jobs id = some r → m.jobs id = some r ∨ ∃ j ∈ js, id = j.id ∧ r = j.ref) ∧
    ((putJobs js m).2 = true ↔ (∀ j ∈ js, m.jobs j.id = none) ∧ (js.map Job.id).Nodup) := by
  induction js generalizing m with
  | nil => exact ⟨m.jobs, rfl, fun _ _ => id, fun _ _ => .inl, by simp [putJobs]⟩
  | cons j js ih =>
    rw [putJobs]
    split
    · exact ⟨m.jobs, rfl, fun _ _ => id, fun _ _ => .inl, by grind⟩
    · obtain ⟨jobs, put, more, only, all⟩ := ih { m with jobs := Function.update m.jobs j.id (some j.ref) }
      have unused (id : Nat) : Function.update m.jobs j.id (some j.ref) id = none ↔ id ≠ j.id ∧ m.jobs id = none := by
        grind [Function.update_apply]
      refine ⟨jobs, put, by grind [Function.update_apply], by grind [Function.update_apply], all.trans ?_⟩
      simp_all [forall_and, and_assoc, and_left_comm]

/-- Taking the jobs back undoes putting them. -/
theorem rollbackJobs_putJobs {m : Manager U} {js : List (Job U)} (new : ∀ j ∈ js, ∀ id, m.jobs id ≠ some j.ref) :
    rollbackJobs js (putJobs js m).1 = m := by
  obtain ⟨entered, put, more, only, -⟩ := putJobs_jobs m js
  obtain ⟨jobs, rolled, kept⟩ := rollbackJobs_jobs (putJobs js m).1 js
  have same : jobs = m.jobs := by
    funext id
    refine Option.ext fun r => (kept id r).trans ?_
    rw [put]
    grind
  rw [rolled, put, same]

/-- `transaction_apply()` fails exactly if the id of a job is taken, and what it leaves is the manager without the jobs
that were canceled before. -/
theorem failed_apply_undone {states : U → UnitActiveState} {ignoreOnIsolate : U → Bool} {mode : JobMode}
    {m m₁ m' : Manager U} {js : List (Job U)} (cleared : clearJobs ignoreOnIsolate mode js m = some m₁)
    (new : ∀ j ∈ js, ∀ id, m₁.jobs id ≠ some j.ref) :
    transactionApply states ignoreOnIsolate mode js m = some (m', none) ↔
      m' = m₁ ∧ ((∃ j ∈ js, m₁.jobs j.id ≠ none) ∨ ¬(js.map Job.id).Nodup) := by
  obtain ⟨-, -, -, -, all⟩ := putJobs_jobs m₁ js
  have taken : ((∃ j ∈ js, m₁.jobs j.id ≠ none) ∨ ¬(js.map Job.id).Nodup) ↔ ¬(putJobs js m₁).2 = true := by
    rw [all]
    grind
  rw [transactionApply, cleared, taken]
  dsimp only [Option.bind_eq_bind, Option.bind_some]
  split
  · simp [*, Option.bind_eq_some_iff]
  · simp [*, rollbackJobs_putJobs new, eq_comm]

theorem failed_apply_undone_twice : transactionApply (fun _ => .inactive) (fun _ => false) .replace
    [requestedStop (), { hookedStart () with id := 2 }] {} = some ({}, none) :=
  (failed_apply_undone rfl (by rintro _ _ _ ⟨⟩)).mpr ⟨rfl, .inr (by decide)⟩

end SystemdPort.Core
