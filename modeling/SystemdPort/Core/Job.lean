/-
# Core.Job — job types, how they merge and how they are ordered

`src/core/job.h` and the pure part of `src/core/job.c`.  A job asks for one
operation on one unit.  Two jobs of one unit merge by `jobMergingTable`; two
jobs of units linked by Before= or After= are ordered by `jobCompare`, which
looks at the types of both.

For the ordering a type matters only through its class: stop and restart on one
side, everything else that is ordered at all on the other (`Job.orderClass`).
`jobCompare_eq` states `jobCompare` in these terms, and merging never leaves the
classes of the types it merges (`merge_orderClass`).
-/
import SystemdPort.Core.Unit

namespace SystemdPort.Core

set_option autoImplicit false

inductive JobType where
  | start | verifyActive | stop | reload | restart
  | nop
  | tryRestart | tryReload | reloadOrStart
  deriving DecidableEq

instance : Fintype JobType where
  elems := {.start, .verifyActive, .stop, .reload, .restart, .nop, .tryRestart, .tryReload,
    .reloadOrStart}
  complete := by intro t; cases t <;> decide

inductive JobState where
  | waiting | running
  deriving DecidableEq

inductive JobMode where
  | fail | replace | replaceIrreversibly | isolate | flush | ignoreDependencies
  | ignoreRequirements | triggering
  deriving DecidableEq

inductive JobResult where
  | done | canceled | timeout | failed | dependency | skipped | invalid | assert
  | unsupported | collected | once
  deriving DecidableEq

namespace JobType

/-- The position in the enumeration, which the merging table is indexed by. -/
def index : JobType → Nat
  | start => 0 | verifyActive => 1 | stop => 2 | reload => 3 | restart => 4
  | nop => 5 | tryRestart => 6 | tryReload => 7 | reloadOrStart => 8

/-- `_JOB_TYPE_MAX_MERGING`: the types the merging table covers. -/
def isMerging (t : JobType) : Bool := t.index < 5

/-- `_JOB_TYPE_MAX_IN_TRANSACTION`: the types that can be installed. -/
def inTransaction (t : JobType) : Bool := t.index < 6

end JobType

/-! ## Merging -/

/-- The lower triangle of the symmetric merging matrix; `none` is `-1`. -/
def jobMergingTable : List (Option JobType) :=
  [ some .start,
    none, none,
    some .reloadOrStart, some .reload, none,
    some .restart, some .restart, none, some .restart ]

def jobTypeLookupMerge (a b : JobType) : Option JobType :=
  if a = b then some a
  else
    let (a, b) := if a.index < b.index then (b, a) else (a, b)
    (jobMergingTable[(a.index - 1) * a.index / 2 + b.index]?).join

def jobTypeIsMergeable (a b : JobType) : Bool := (jobTypeLookupMerge a b).isSome

def jobTypeIsConflicting (a b : JobType) : Bool :=
  a ≠ .nop && b ≠ .nop && !jobTypeIsMergeable a b

/-- Whether operation `a` is a superset of `b` in its actions. -/
def jobTypeIsSuperset (a b : JobType) : Bool :=
  if b = .nop then true
  else if a = .nop then false
  else jobTypeLookupMerge a b = some a

def jobTypeIsRedundant (a : JobType) (b : UnitActiveState) : Bool :=
  match a with
  | .start | .verifyActive => b.isActiveOrReloading
  | .stop => b.isInactiveOrFailed
  | .nop => true
  | _ => false

/-- Replaces the types that depend on the unit's state by the ones they stand
for in that state. -/
def jobTypeCollapse (t : JobType) (s : UnitActiveState) : JobType :=
  match t with
  | .tryRestart => if s.isActiveOrActivating then .restart else .nop
  | .tryReload => if s.isActiveOrReloading then .reload else .nop
  | .reloadOrStart => if s.isActiveOrReloading then .reload else .start
  | t => t

/-- `none` is `-EEXIST`. -/
def jobTypeMergeAndCollapse (a b : JobType) (s : UnitActiveState) : Option JobType :=
  (jobTypeLookupMerge a b).map (jobTypeCollapse · s)

def jobTypeAllowsLateMerge (t : JobType) : Bool := t ≠ .reload

/-! ## Jobs and their order -/

/-- A job.  `ref` is the identity of the allocation, `id` the 32-bit number that
clients see. -/
structure Job (U : Type) where
  ref : Nat
  id : Nat
  unit : U
  type : JobType
  state : JobState := .waiting
  installed : Bool := false
  ignoreOrder : Bool := false
  irreversible : Bool := false
  mattersToAnchor : Bool := false
  deriving DecidableEq

/-- The dependency that `jobCompare` is told to assume between the units. -/
inductive OrderAtom where
  | before | after
  deriving DecidableEq

def OrderAtom.atom : OrderAtom → UnitDependencyAtom
  | before => .before
  | after => .after

/-- Both of the types that stop a unit; a restart is a stop in disguise until it
is patched to a start. -/
def JobType.isStopping : JobType → Bool
  | stop | restart => true
  | _ => false

variable {U : Type}

/-- `jobCompare` for a unit of `a` that is before the unit of `b`. -/
def jobCompareBefore (a b : Job U) : Int :=
  if a.type = .nop ∨ b.type = .nop then 0
  else if a.ignoreOrder ∨ b.ignoreOrder then 0
  else if b.type.isStopping then 1
  else -1

/-- The sign tells the order: negative when `a` runs before `b`, positive when it
runs after `b`, zero when the two are independent. -/
def jobCompare (a b : Job U) (assumeDep : OrderAtom) : Int :=
  if a.type = .nop ∨ b.type = .nop then 0
  else if a.ignoreOrder ∨ b.ignoreOrder then 0
  else
    match assumeDep with
    | .after => -jobCompareBefore b a
    | .before => jobCompareBefore a b

/-- The two classes of types that `jobCompare` tells apart. -/
inductive OrderClass where
  | stopping | starting
  deriving DecidableEq

def JobType.orderClass (t : JobType) : Option OrderClass :=
  if t = .nop then none else if t.isStopping then some .stopping else some .starting

/-- The class of a job, `none` when the job takes no part in the ordering. -/
def Job.orderClass (j : Job U) : Option OrderClass :=
  if j.ignoreOrder then none else j.type.orderClass

/-- `jobCompare` in terms of the two classes alone. -/
def classCompare : Option OrderClass → Option OrderClass → OrderAtom → Int
  | some _, some .stopping, .before => 1
  | some _, some .starting, .before => -1
  | some .stopping, some _, .after => -1
  | some .starting, some _, .after => 1
  | _, _, _ => 0

theorem jobCompare_eq (a b : Job U) (dep : OrderAtom) :
    jobCompare a b dep = classCompare a.orderClass b.orderClass dep := by
  unfold jobCompare jobCompareBefore Job.orderClass JobType.orderClass
  by_cases ha : a.type = .nop
  · cases dep <;> cases a.ignoreOrder <;> simp [ha, classCompare]
  by_cases hb : b.type = .nop
  · cases dep <;> cases b.ignoreOrder <;> simp [hb, classCompare]
  cases dep <;> cases a.ignoreOrder <;> cases b.ignoreOrder <;>
    cases a.type.isStopping <;> cases b.type.isStopping <;> simp [ha, hb, classCompare]

/-- Merging into an ordinary job gives a type that can be installed as one. -/
theorem merge_inTransaction : ∀ (a b : JobType) (s : UnitActiveState), a.inTransaction → b.inTransaction → a ≠ .nop →
      ∀ t ∈ jobTypeMergeAndCollapse a b s, t.inTransaction ∧ t ≠ .nop := by
  decide

/-- A merged type is of the class of one of the two. -/
theorem merge_orderClass : ∀ (a b : JobType) (s : UnitActiveState), a.isMerging → b.isMerging →
      ∀ t ∈ jobTypeMergeAndCollapse a b s,
        t.isMerging ∧ (t.orderClass = a.orderClass ∨ t.orderClass = b.orderClass) := by
  decide

end SystemdPort.Core
