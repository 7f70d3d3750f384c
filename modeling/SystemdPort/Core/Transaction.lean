/-
# Core.Transaction — the passes over a transaction

The part of `src/core/transaction.c` that works on a built transaction: deleting
jobs together with the jobs that depend on them, marking what matters to the
anchor, and the passes that `transaction_activate()` runs.

A transaction is the list of its jobs, newest first, so that the jobs of a unit
are a sublist whose first element is what `tr->jobs` has for the unit.  Links
name jobs by `ref`.  The order in which a hash table is walked is a parameter
(`HashOrder`).

The fields `generation` and `marker` of a job serve one sweep at a time.  They are
the arguments of `Lib.sweep` and `Lib.dfs` here: `visited` are the jobs of the
current generation, `path` those with a marker, from the last one backwards.
-/
import SystemdPort.Core.Manager
import SystemdPort.Lib.Loop
import SystemdPort.Lib.Dfs

namespace SystemdPort.Core

open Lib

set_option autoImplicit false

variable {U : Type} [DecidableEq U]

abbrev Errno := Nat

def eperm : Errno := 1
def enoent : Errno := 2
def eio : Errno := 5
def enoexec : Errno := 8
def eexist : Errno := 17
def einval : Errno := 22
def edeadlk : Errno := 35
def ebadr : Errno := 53
def erfkill : Errno := 132

/-- The `subject` job needs the `object` job in some way. -/
structure JobDependency where
  subject : Nat
  object : Nat
  matters : Bool
  conflicts : Bool
  deriving DecidableEq

structure Transaction (U : Type) where
  jobs : List (Job U) := []
  links : List JobDependency := []
  anchorJob : Option Nat := none
  irreversible : Bool := false
  /-- How many jobs the manager has created, `m->current_job_id` before it wraps. -/
  nextRef : Nat := 0

/-- An order in which a hash table with the units of some jobs as keys is walked. -/
structure HashOrder (U : Type) where
  keys : List (Job U) → List U
  mem_keys : ∀ js u, u ∈ keys js ↔ ∃ j ∈ js, j.unit = u
  nodup : ∀ js, (keys js).Nodup

/-- One such order: the unit of the newest job first. -/
def HashOrder.newestFirst : HashOrder U where
  keys js := (js.map Job.unit).dedup
  mem_keys := by simp
  nodup _ := List.nodup_dedup _

namespace Transaction

/-- The jobs of a unit, linked by `transaction_next`. -/
def unitJobs (tr : Transaction U) (u : U) : List (Job U) := tr.jobs.filter fun j => j.unit = u

/-- `hashmap_get(tr->jobs, u)`. -/
def head (tr : Transaction U) (u : U) : Option (Job U) := tr.jobs.find? fun j => j.unit = u

/-- What `HASHMAP_FOREACH(j, tr->jobs)` goes over. -/
def heads (order : HashOrder U) (tr : Transaction U) : List (Job U) :=
  (order.keys tr.jobs).filterMap tr.head

end Transaction

/-! ## Deleting jobs -/

/-- One round of the loop over the `object_list` of a job: the first link goes and,
if it matters, its subject after it. -/
def freeObjectLink (delete : Nat → Transaction U → Transaction U) (deleteDependencies : Bool) (r : Nat)
    (tr : Transaction U) : Option (Transaction U) :=
  (tr.links.find? fun l => l.object = r).map fun l =>
    let tr := { tr with links := tr.links.erase l }
    if l.matters && deleteDependencies then delete l.subject tr else tr

def transactionUnlinkJob (delete : Nat → Transaction U → Transaction U) (deleteDependencies : Bool)
    (r : Nat) (tr : Transaction U) : Transaction U :=
  let tr := { tr with
    jobs := Keyed.remove Job.ref r tr.jobs
    links := tr.links.filter fun l => l.subject ≠ r }
  exhaust (freeObjectLink delete deleteDependencies r) tr.links.length tr

/-- `transaction_delete_job()`, `n` levels of dependents deep. -/
def deleteJobDepth (deleteDependencies : Bool) : Nat → Nat → Transaction U → Transaction U
  | 0, _, tr => tr
  | n + 1, r, tr =>
    transactionUnlinkJob (deleteJobDepth deleteDependencies n) deleteDependencies r tr

def transactionDeleteJob (tr : Transaction U) (r : Nat) (deleteDependencies : Bool) : Transaction U :=
  deleteJobDepth deleteDependencies (tr.links.length + 1) r tr

/-- Deletes all jobs of a unit. -/
def transactionDeleteUnit (tr : Transaction U) (u : U) : Transaction U :=
  exhaust (fun tr => (tr.head u).map fun j => transactionDeleteJob tr j.ref true) tr.jobs.length tr

/-! ## What matters to the anchor -/

/-- The jobs a job needs by links that matter. -/
def Transaction.mattering (tr : Transaction U) (r : Nat) : List Nat :=
  (tr.links.filter fun l => l.subject = r && l.matters).map JobDependency.object

/-- Marks the anchor job and everything it needs by links that matter. -/
def transactionFindJobsThatMatterToAnchor (tr : Transaction U) : Transaction U :=
  match tr.anchorJob with
  | none => tr
  | some anchor =>
    let marked := sweep tr.mattering tr.jobs.length [] anchor
    { tr with jobs := tr.jobs.map fun j =>
        if j.ref ∈ marked then { j with mattersToAnchor := true } else j }

/-- Whether one of the jobs of the unit matters to the anchor. -/
def unitMattersToAnchor (tr : Transaction U) (u : U) : Bool :=
  (tr.unitJobs u).any Job.mattersToAnchor

/-! ## Dropping jobs -/

section Passes

variable (order : HashOrder U) (states : U → UnitActiveState) (m : Manager U)

/-- Whether the unit has an installed job that `j` would replace. -/
def changesExistingJob (j : Job U) : Bool :=
  match m.jobOf j.unit with
  | some uj => jobTypeIsConflicting j.type uj.type
  | none => false

def stopsRunningService (j : Job U) : Bool :=
  j.type = .stop && (states j.unit).isActiveOrActivating

def minimizeImpactStep (tr : Transaction U) : Option (Transaction U) :=
  (((order.keys tr.jobs).flatMap tr.unitJobs).find? fun j =>
    !j.mattersToAnchor && (stopsRunningService states j || changesExistingJob m j)).map
      fun j => transactionDeleteJob tr j.ref true

/-- Drops the jobs that reverse installed jobs or stop a running service. -/
def transactionMinimizeImpact (tr : Transaction U) : Transaction U :=
  exhaust (minimizeImpactStep order states m) tr.jobs.length tr

/-- A job for whose sake all jobs of its unit are kept. -/
def keepsUnit (tr : Transaction U) (k : Job U) : Bool :=
  tr.anchorJob = some k.ref || !jobTypeIsRedundant k.type (states k.unit) || changesExistingJob m k

def dropRedundantStep (tr : Transaction U) : Option (Transaction U) :=
  ((tr.heads order).find? fun j => !(tr.unitJobs j.unit).any (keepsUnit states m tr)).map
    fun j => transactionDeleteJob tr j.ref false

/-- Removes all jobs of the units whose jobs are all redundant. -/
def transactionDropRedundant (tr : Transaction U) : Transaction U :=
  exhaust (dropRedundantStep order states m) tr.jobs.length tr

def collectGarbageStep (tr : Transaction U) : Option (Transaction U) :=
  ((tr.heads order).find? fun j =>
    tr.anchorJob ≠ some j.ref && !tr.links.any fun l => l.object = j.ref).map
      fun j => transactionDeleteJob tr j.ref true

/-- Drops jobs that are not required by any other job. -/
def transactionCollectGarbage (tr : Transaction U) : Transaction U :=
  exhaust (collectGarbageStep order) tr.jobs.length tr

/-! ## Verifying the order -/

inductive ActivateError where
  /-- `BUS_ERROR_TRANSACTION_ORDER_IS_CYCLIC` -/
  | orderIsCyclic
  /-- `BUS_ERROR_TRANSACTION_JOBS_CONFLICTING` -/
  | jobsConflicting
  /-- `BUS_ERROR_TRANSACTION_IS_DESTRUCTIVE` -/
  | isDestructive
  /-- An id is in use. -/
  | applyFailed
  | assertion
  deriving DecidableEq

/-- The job that is looked at for a unit: one of the transaction, else the
installed one. -/
def orderJob (tr : Transaction U) (u : U) : Option (Job U) := (tr.head u).or (m.jobOf u)

/-- The jobs that come after `j` in the order of execution. -/
def laterJobs (units : Units U) (tr : Transaction U) (j : Job U) : List (Job U) :=
  ([OrderAtom.before, OrderAtom.after]).flatMap fun d =>
    ((units.dependencies d.atom j.unit).filterMap (orderJob m tr)).filter fun o =>
      decide (jobCompare j o d < 0)

/-- The search for a cycle from each job of the transaction. -/
def searchOrder (units : Units U) (tr : Transaction U) : Except (Stop (Job U)) (List (Job U)) :=
  (tr.heads order).foldlM
    (dfs (laterJobs m units tr) (tr.jobs.length + m.heap.length + 1) []) []

/-- The job whose unit is deleted to break a cycle, the first one on the way back
that is in the transaction and does not matter to the anchor. -/
def cycleVictim (tr : Transaction U) (nodes : List (Job U)) : Option (Job U) :=
  nodes.find? fun k => (tr.head k.unit).isSome && !unitMattersToAnchor tr k.unit

/-- Checks the order; the flag tells that there is no cycle, otherwise one was
broken and the check has to be repeated. -/
def transactionVerifyOrder (units : Units U) (tr : Transaction U) : Except ActivateError (Transaction U × Bool) :=
  match searchOrder order m units tr with
  | .ok _ => .ok (tr, true)
  | .error (.cycle nodes) =>
    match cycleVictim tr nodes with
    | some k => .ok (transactionDeleteUnit tr k.unit, false)
    | none => .error .orderIsCyclic
  -- never reached, see `searchOrder_ne_fuel`
  | .error .fuel => .error .assertion

/-! ## Merging -/

inductive MergeResult where
  | merged (t : JobType)
  | unmergeable
  /-- `job_type_lookup_merge()` asserts that both types are mergeable ones. -/
  | assertion

/-- The type that the jobs of a unit merge to, one after the other. -/
def mergeTypes (s : UnitActiveState) : JobType → List (Job U) → MergeResult
  | t, [] => .merged t
  | t, k :: ks =>
    if !(t.isMerging && k.type.isMerging) then .assertion
    else
      match jobTypeMergeAndCollapse t k.type s with
      | none => .unmergeable
      | some t => mergeTypes s t ks

/-- Whether a job is pulled in by a conflicting unit. -/
def jobIsConflictedBy (tr : Transaction U) (j : Job U) : Bool :=
  tr.links.any fun l => l.object = j.ref && l.conflicts

/-- The first two jobs of a list that do not merge. -/
def firstUnmergeable : List (Job U) → Option (Job U × Job U)
  | [] => none
  | j :: js =>
    match js.find? fun k => !jobTypeIsMergeable j.type k.type with
    | some k => some (j, k)
    | none => firstUnmergeable js

/-- Which of two jobs that do not merge is deleted; `none` when both matter. -/
def unmergeableVictim (tr : Transaction U) (j k : Job U) : Option (Job U) :=
  if !j.mattersToAnchor && !k.mattersToAnchor then
    if j.type = .stop then
      if jobIsConflictedBy tr j then some k else some j
    else if k.type = .stop then
      if jobIsConflictedBy tr k then some j else some k
    else some j
  else if !j.mattersToAnchor then some j
  else if !k.mattersToAnchor then some k
  else none

/-- Deletes one of two jobs of the list that do not merge, if that is possible. -/
def deleteOneUnmergeableJob (tr : Transaction U) (js : List (Job U)) : Except Errno (Transaction U) :=
  match firstUnmergeable js with
  | none => .error einval
  | some (j, k) =>
    match unmergeableVictim tr j k with
    | none => .error enoexec
    | some d => .ok (transactionDeleteJob tr d.ref true)

/-- Whether the jobs of each unit merge: the transaction with one job less when
those of some unit do not. -/
def checkMergeable (tr : Transaction U) : List U → Except ActivateError (Option (Transaction U))
  | [] => .ok none
  | u :: us =>
    match tr.unitJobs u with
    | [] => checkMergeable tr us
    | j :: js =>
      match mergeTypes (states u) j.type js with
      | .merged _ => checkMergeable tr us
      | .assertion => .error .assertion
      | .unmergeable =>
        match deleteOneUnmergeableJob tr (j :: js) with
        | .ok tr => .ok (some tr)
        | .error _ => .error .jobsConflicting

/-- `j` takes over what `other` is and has. -/
def Job.absorb (j : Job U) (t : JobType) (other : Job U) : Job U :=
  { j with
    type := t
    state := .waiting
    irreversible := j.irreversible || other.irreversible
    mattersToAnchor := j.mattersToAnchor || other.mattersToAnchor }

def JobDependency.redirect (old new : Nat) (l : JobDependency) : JobDependency :=
  { l with
    subject := if l.subject = old then new else l.subject
    object := if l.object = old then new else l.object }

/-- Merges `other` into `j` and deletes it; its links now belong to `j`. -/
def transactionMergeAndDeleteJob (tr : Transaction U) (j other : Job U) (t : JobType) : Transaction U :=
  let tr := { tr with
    jobs := Keyed.modify Job.ref j.ref (·.absorb t other) tr.jobs
    links := tr.links.map (JobDependency.redirect other.ref j.ref) }
  transactionDeleteJob tr other.ref true

/-- Merges the jobs of one unit into one of them, the anchor job if it is there. -/
def mergeUnitJobs (t : JobType) : Job U → List (Job U) → Transaction U → Transaction U
  | _, [], tr => tr
  | j, k :: ks, tr =>
    if tr.anchorJob = some k.ref then
      mergeUnitJobs t (k.absorb t j) ks (transactionMergeAndDeleteJob tr k j t)
    else mergeUnitJobs t (j.absorb t k) ks (transactionMergeAndDeleteJob tr j k t)

/-- Merges the jobs of a unit, which are asserted to be mergeable. -/
def mergeUnit (tr : Transaction U) (u : U) : Except ActivateError (Transaction U) :=
  match tr.unitJobs u with
  | [] => .ok tr
  | j :: js =>
    match mergeTypes (states u) j.type js with
    | .merged t => .ok (mergeUnitJobs t j js tr)
    | _ => .error .assertion

/-- Merges the jobs of each unit, or drops one; the flag tells which. -/
def transactionMergeJobs (tr : Transaction U) : Except ActivateError (Transaction U × Bool) :=
  match checkMergeable states tr (order.keys tr.jobs) with
  | .error e => .error e
  | .ok (some tr) => .ok (tr, false)
  | .ok none =>
    match (order.keys tr.jobs).foldlM (mergeUnit states) tr with
    | .error e => .error e
    | .ok tr => .ok (tr, true)

/-! ## Activation -/

/-- Whether applying the transaction replaces installed jobs that may not be
replaced. -/
def transactionIsDestructive (mode : JobMode) (tr : Transaction U) : Bool :=
  (tr.heads order).any fun j =>
    match m.jobOf j.unit with
    | some uj => (mode = .fail || uj.irreversible) && jobTypeIsConflicting uj.type j.type
    | none => false

/-- Garbage is not collected when isolating. -/
def collectUnlessIsolate (mode : JobMode) (tr : Transaction U) : Transaction U :=
  if mode = .isolate then tr else transactionCollectGarbage order tr

/-- A round of the loop that collects garbage and verifies the order. -/
def orderRound (units : Units U) (mode : JobMode) (tr : Transaction U) :
    Except ActivateError (Transaction U × Bool) :=
  transactionVerifyOrder order m units (collectUnlessIsolate order mode tr)

/-- A round of the loop that merges or drops jobs and collects garbage. -/
def mergeRound (mode : JobMode) (tr : Transaction U) : Except ActivateError (Transaction U × Bool) :=
  match transactionMergeJobs order states tr with
  | .error e => .error e
  | .ok (tr, true) => .ok (tr, true)
  | .ok (tr, false) => .ok (collectUnlessIsolate order mode tr, false)

/-- The steps of `transaction_activate()` before anything is applied. -/
def transactionPrepare (units : Units U) (mode : JobMode) (tr : Transaction U) :
    Except ActivateError (Transaction U) := do
  let tr := transactionFindJobsThatMatterToAnchor tr
  let tr := if mode = .fail then transactionMinimizeImpact order states m tr else tr
  let tr := transactionDropRedundant order states m tr
  let tr ← retry (orderRound order m units mode) tr.jobs.length tr
  let tr ← retry (mergeRound order states mode) tr.jobs.length tr
  let tr := transactionDropRedundant order states m tr
  if transactionIsDestructive order m mode tr then .error .isDestructive else .ok tr

/-- Applies a transaction: the new manager and the jobs affected. -/
def transactionActivate (units : Units U) (ignoreOnIsolate : U → Bool) (mode : JobMode)
    (tr : Transaction U) : Except ActivateError (Manager U × List Nat) :=
  match transactionPrepare order states m units mode tr with
  | .error e => .error e
  | .ok tr =>
    match transactionApply states ignoreOnIsolate mode (tr.heads order) m with
    | none => .error .assertion
    | some (_, none) => .error .applyFailed
    | some (m, some affected) => .ok (m, affected)

end Passes

end SystemdPort.Core
