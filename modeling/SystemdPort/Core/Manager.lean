/-
# Core.Manager — the installed jobs and the counters beside them

The part of `src/core/job.c` that changes which jobs are installed:
`job_set_state()`, `job_install()`, `job_install_deserialized()`,
`job_uninstall()` and the part of `job_finish_and_invalidate()` that deals with
the job itself, over the manager fields they touch (`m->jobs`, `u->job`,
`u->nop_job`, `m->n_running_jobs`), and `transaction_apply()`, which enters the
jobs of a transaction into `m->jobs` before it installs them one by one.

A failed `assert()` is `none`.  The functions here leave out what other code does
while a job finishes (the `trigger_notify` hooks and OnFailure=); that is added
by `Core.ManagerRuns`.
-/
import SystemdPort.Core.JobOrder
import SystemdPort.Lib.Keyed

namespace SystemdPort.Core

open Lib Function

set_option autoImplicit false

variable {U : Type} [DecidableEq U]

structure Manager (U : Type) where
  /-- The allocated jobs. -/
  heap : List (Job U) := []
  jobs : Nat → Option Nat := fun _ => none
  unitJob : U → Option Nat := fun _ => none
  unitNopJob : U → Option Nat := fun _ => none
  nRunningJobs : Nat := 0
  nInstalledJobs : Nat := 0
  nFailedJobs : Nat := 0

namespace Job

def isNop (j : Job U) : Bool := j.type = .nop

def withState (state : JobState) (j : Job U) : Job U := { j with state }

def uninstalled (j : Job U) : Job U := { j with installed := false }

/-- A restart whose stop half is done: `job_change_type(j, JOB_START)`. -/
def patched (j : Job U) : Job U := { j with type := .start }

/-- An installed job after `other` was merged into it, which makes it one of `type`. -/
def merged (j : Job U) (type : JobType) (other : Job U) : Job U :=
  { j with
    type
    irreversible := j.irreversible || other.irreversible
    ignoreOrder := j.ignoreOrder || other.ignoreOrder }

end Job

namespace Manager

def find (m : Manager U) (r : Nat) : Option (Job U) := Keyed.lookup Job.ref r m.heap

def modify (m : Manager U) (r : Nat) (f : Job U → Job U) : Manager U :=
  { m with heap := Keyed.modify Job.ref r f m.heap }

/-- The slot of a unit a job goes to: `&u->nop_job` or `&u->job`. -/
def slot (m : Manager U) (nop : Bool) (u : U) : Option Nat :=
  if nop then m.unitNopJob u else m.unitJob u

def setSlot (m : Manager U) (nop : Bool) (u : U) (r : Option Nat) : Manager U :=
  if nop then { m with unitNopJob := update m.unitNopJob u r }
  else { m with unitJob := update m.unitJob u r }

/-- `hashmap_remove_value(m->jobs, id, j)`: only if the id leads to this job. -/
def removeValue (m : Manager U) (id r : Nat) : Manager U :=
  if m.jobs id = some r then { m with jobs := update m.jobs id none } else m

/-- The ordinary job of a unit. -/
def jobOf (m : Manager U) (u : U) : Option (Job U) := (m.unitJob u).bind m.find

/-- The slot is set, the job marked installed and counted. -/
def place (m : Manager U) (j : Job U) : Manager U :=
  { m.setSlot j.isNop j.unit (some j.ref) with
    heap := { j with installed := true } :: m.heap
    nInstalledJobs := m.nInstalledJobs + 1 }

end Manager

/-! ## Operations -/

def jobSetState (m : Manager U) (r : Nat) (state : JobState) : Option (Manager U) := do
  let j ← m.find r
  if j.state = state then some m
  else
    let m := m.modify r (Job.withState state)
    if !j.installed then some m
    else
      match state with
      | .running => some { m with nRunningJobs := m.nRunningJobs + 1 }
      | .waiting => do
          guard (0 < m.nRunningJobs)
          some { m with nRunningJobs := m.nRunningJobs - 1 }

def jobUninstall (m : Manager U) (r : Nat) : Option (Manager U) := do
  let j ← m.find r
  guard j.installed
  let m ← jobSetState m r .waiting
  guard (m.slot j.isNop j.unit = some r)
  let m := (m.setSlot j.isNop j.unit none).removeValue j.id r
  some (m.modify r Job.uninstalled)

def jobFree (m : Manager U) (r : Nat) : Option (Manager U) := do
  let j ← m.find r
  guard !j.installed
  some { m with heap := Keyed.remove Job.ref r m.heap }

/-- What `job_finish_and_invalidate()` does to the job itself: a finished restart
becomes a start that waits again, every other job is uninstalled and freed. -/
def jobFinishSelf (m : Manager U) (r : Nat) (result : JobResult) : Option (Manager U) := do
  let j ← m.find r
  guard (j.installed && j.type.inTransaction)
  if result = .done ∧ j.type = .restart then
    jobSetState (m.modify r Job.patched) r .waiting
  else
    let m := if result = .failed ∨ result = .invalid then
      { m with nFailedJobs := m.nFailedJobs + 1 } else m
    let m ← jobUninstall m r
    jobFree m r

/-- The type an installed job gets when another one is merged into it. -/
def installedMergeType (a b : JobType) (s : UnitActiveState) : Option JobType :=
  if a ≠ .nop then jobTypeMergeAndCollapse a b s
  else if b = .nop then some .nop else none

def jobMergeIntoInstalled (states : U → UnitActiveState) (m : Manager U) (r : Nat)
    (other : Job U) : Option (Manager U) := do
  let j ← m.find r
  guard (j.installed && j.unit = other.unit)
  let type ← installedMergeType j.type other.type (states j.unit)
  some (m.modify r (·.merged type other))

/-- Merges `j` into the job `uj` that its unit has.  One that already runs and is
not safe to merge into is run again. -/
def mergeInstalled (states : U → UnitActiveState) (m : Manager U) (uj j : Job U) :
    Option (Manager U) := do
  let m ← jobMergeIntoInstalled states m uj.ref j
  if uj.state = .waiting ∨ (jobTypeAllowsLateMerge j.type ∧ jobTypeIsSuperset uj.type j.type) then
    some m
  else jobSetState m uj.ref .waiting

/-- What `job_install()` asserts of the job. -/
def Job.installable (j : Job U) : Bool :=
  !j.installed && j.type.inTransaction && j.state = .waiting

/-- Installs a job, or merges it into the one its unit already has; the second
component is the job that is then installed. -/
def jobInstall (states : U → UnitActiveState) (m : Manager U) (j : Job U) :
    Option (Manager U × Nat) := do
  guard j.installable
  match m.slot j.isNop j.unit with
  | none => some (m.place j, j.ref)
  | some r => do
      let uj ← m.find r
      if jobTypeIsConflicting uj.type j.type then
        let m ← jobFinishSelf m uj.ref .canceled
        some (m.place j, j.ref)
      else
        let m ← mergeInstalled states m uj j
        some (m, uj.ref)

/-- A job read back after a reload; nothing happens if its type, its unit's slot
or its id rules it out. -/
def jobInstallDeserialized (m : Manager U) (j : Job U) : Manager U :=
  if !j.type.inTransaction then m
  else if (m.slot j.isNop j.unit).isSome then m
  else if (m.jobs j.id).isSome then m
  else
    let m := { m with jobs := update m.jobs j.id (some j.ref) }
    let m := { m.setSlot j.isNop j.unit (some j.ref) with
      heap := { j with installed := true } :: m.heap }
    if j.state = .running then { m with nRunningJobs := m.nRunningJobs + 1 } else m

/-! ## Applying a transaction -/

/-- Enters the jobs into `m->jobs`, up to the first whose id is taken; the flag
tells whether all went in. -/
def putJobs : List (Job U) → Manager U → Manager U × Bool
  | [], m => (m, true)
  | j :: js, m =>
    if (m.jobs j.id).isSome then (m, false)
    else putJobs js { m with jobs := update m.jobs j.id (some j.ref) }

def rollbackJobs (js : List (Job U)) (m : Manager U) : Manager U :=
  js.foldl (fun m j => m.removeValue j.id j.ref) m

/-- A job that was merged into an installed one loses its own entry. -/
def dropMerged (m : Manager U) (j : Job U) (r : Nat) : Manager U :=
  if r ≠ j.ref then m.removeValue j.id j.ref else m

/-- Installs the jobs one by one; the list is `affected_jobs`, the jobs that are
then installed for them. -/
def installJobs (states : U → UnitActiveState) : List (Job U) → Manager U → Option (Manager U × List Nat)
  | [], m => some (m, [])
  | j :: js, m => do
      let (m, r) ← jobInstall states m j
      let (m, affected) ← installJobs states js (dropMerged m j r)
      some (m, r :: affected)

def cancelJobs : List (Job U) → Manager U → Option (Manager U)
  | [], m => some m
  | j :: js, m => do
      let m ← jobFinishSelf m j.ref .canceled
      cancelJobs js m

/-- An installed job that an isolate or flush by the transaction jobs `js` cancels. -/
def Manager.cancels (m : Manager U) (ignoreOnIsolate : U → Bool) (js : List (Job U)) (j : Job U) : Bool :=
  (m.jobs j.id = some j.ref) && !ignoreOnIsolate j.unit && !js.any fun k => k.unit = j.unit

/-- When isolating or flushing, the installed jobs that are not part of the
transaction go first. -/
def clearJobs (ignoreOnIsolate : U → Bool) (mode : JobMode) (js : List (Job U)) (m : Manager U) :
    Option (Manager U) :=
  if mode = .isolate ∨ mode = .flush then
    cancelJobs (m.heap.filter (m.cancels ignoreOnIsolate js)) m
  else some m

/-- Moves the merged jobs `js` of a transaction to the installed jobs and returns
the affected jobs, or `none` when an id was taken and everything was rolled back. -/
def transactionApply (states : U → UnitActiveState) (ignoreOnIsolate : U → Bool) (mode : JobMode)
    (js : List (Job U)) (m : Manager U) : Option (Manager U × Option (List Nat)) := do
  let m ← clearJobs ignoreOnIsolate mode js m
  let (entered, all) := putJobs js m
  if all then
    let (m, affected) ← installJobs states js entered
    some (m, some affected)
  else some (rollbackJobs js entered, none)

end SystemdPort.Core
