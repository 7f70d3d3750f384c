/-
# Core.TransactionBuild — from a request to a transaction

`transaction_add_job_and_dependencies()` and its callers in
`src/core/transaction.c`, and `manager_add_job()`.  A job is added for the unit
that was asked for and then, through the dependencies, for every unit that its
operation needs or affects.

The loops over the dependencies differ only in what they pull in and in which
failures they forgive, so they are one loop over a list of `Pull`s.  The depth
counter bounds the recursion; `none` is a counter too small or a failed
`assert()`.
-/
import SystemdPort.Core.TransactionDelete

namespace SystemdPort.Core

open Lib List

set_option autoImplicit false
set_option linter.unusedSectionVars false

variable {U : Type} [DecidableEq U]

/-- What the transaction code reads of the units. -/
structure System (U : Type) where
  units : Units U
  /-- `m->units`, without aliases. -/
  allUnits : List U
  state : U → UnitActiveState := fun _ => .inactive
  loadState : U → UnitLoadState := fun _ => .loaded
  loadError : U → Errno := fun _ => 0
  perpetual : U → Bool := fun _ => false
  canStart : U → Bool := fun _ => true
  canStop : U → Bool := fun _ => true
  canReload : U → Bool := fun _ => true
  followingSet : U → List U := fun _ => []
  ignoreOnIsolate : U → Bool := fun _ => false
  allowIsolate : U → Bool := fun _ => true

section Build

variable (sys : System U)

def busUnitValidateLoadState (u : U) : Except Errno Unit :=
  match sys.loadState u with
  | .loaded => .ok ()
  | .notFound => .error enoent
  | .badSetting => .error enoexec
  | .error => .error (sys.loadError u)
  | .masked => .error erfkill
  | .stub | .merged => .error enoent

def unitJobIsApplicable (u : U) : JobType → Bool
  | .verifyActive | .start | .nop => true
  | .stop => !sys.perpetual u
  | .restart | .tryRestart => sys.canStop u && sys.canStart u
  | .reload | .tryReload => sys.canReload u
  | .reloadOrStart => sys.canReload u && sys.canStart u

/-- The job of this type that the transaction has for the unit, else a new one;
the flag tells which. -/
def transactionAddOneJob (tr : Transaction U) (type : JobType) (u : U) : Transaction U × Nat × Bool :=
  match tr.jobs.find? fun i => i.unit = u && i.type = type with
  | some i => (tr, i.ref, false)
  | none =>
    let j : Job U :=
      { ref := tr.nextRef, id := tr.nextRef % 2 ^ 32, unit := u, type, irreversible := tr.irreversible }
    ({ tr with jobs := j :: tr.jobs, nextRef := tr.nextRef + 1 }, j.ref, true)

/-- A job that another one pulls in. -/
structure Pull (U : Type) where
  type : JobType
  unit : U
  matters : Bool := false
  conflicts : Bool := false
  /-- Every failure is ignored, not only that the type is not applicable. -/
  ignored : Bool := false

/-- The jobs that propagate an operation, in the type that the state of each unit
makes of it. -/
def propagated (ptype : JobType) (matters ignored : Bool) (deps : List U) : List (Pull U) :=
  deps.filterMap fun dep =>
    let nt := jobTypeCollapse ptype (sys.state dep)
    if nt = .nop then none else some { type := nt, unit := dep, matters, ignored }

/-- The jobs that a new job of type `type` for `u` pulls in, in the order in which
they are added. -/
def pulls (type : JobType) (u : U) : List (Pull U) :=
  let deps := fun atom => sys.units.dependencies atom u
  (sys.followingSet u).map (fun dep => { type, unit := dep, ignored := true }) ++
  (if type = .start ∨ type = .restart then
    (deps .pullInStart).map (fun dep => { type := .start, unit := dep, matters := true }) ++
    (deps .pullInStartIgnored).map (fun dep => { type := .start, unit := dep, ignored := true }) ++
    (deps .pullInVerify).map (fun dep => { type := .verifyActive, unit := dep, matters := true }) ++
    (deps .pullInStop).map
      (fun dep => { type := .stop, unit := dep, matters := true, conflicts := true }) ++
    (deps .pullInStopIgnored).map (fun dep => { type := .stop, unit := dep, ignored := true })
  else []) ++
  (if type = .restart then propagated sys .tryRestart true false (deps .propagateRestart)
  else if type = .stop then propagated sys .stop true false (deps .propagateStop)
  else if type = .reload then propagated sys .tryReload false true (deps .propagatesReloadTo)
  else [])

/-- Adds what is pulled in, one after the other, until a failure that counts. -/
def addPulls (add : Pull U → Transaction U → Option (Transaction U × Except Errno Unit)) :
    List (Pull U) → Transaction U → Option (Transaction U × Except Errno Unit)
  | [], tr => some (tr, .ok ())
  | p :: ps, tr =>
    match add p tr with
    | none => none
    | some (tr, .ok ()) => addPulls add ps tr
    | some (tr, .error e) =>
      if p.ignored || e = ebadr then addPulls add ps tr else some (tr, .error e)

/-- The checks before a job is added. -/
def jobAdmissible (type : JobType) (u : U) : Except Errno Unit := do
  if !(sys.loadState u).isLoadComplete then .error eio
  if type ≠ .stop then busUnitValidateLoadState sys u
  if !unitJobIsApplicable sys u type then .error ebadr

def Job.orIgnoreOrder (ignoreOrder : Bool) (j : Job U) : Job U :=
  { j with ignoreOrder := j.ignoreOrder || ignoreOrder }

/-- Enters a job for `requester` (`by` in the source), which is none for the anchor.
Returns its reference and whether it is new. -/
def enterJob (type : JobType) (u : U) (requester : Option Nat) (matters conflicts ignoreOrder : Bool)
    (tr : Transaction U) : Option (Transaction U × Nat × Bool) :=
  let (tr, r, isNew) := transactionAddOneJob tr type u
  let tr := { tr with jobs := Keyed.modify Job.ref r (Job.orIgnoreOrder ignoreOrder) tr.jobs }
  match requester with
  | some subject =>
    some ({ tr with links := ⟨subject, r, matters, conflicts⟩ :: tr.links }, r, isNew)
  | none => if tr.anchorJob.isSome then none else some ({ tr with anchorJob := some r }, r, isNew)

def transactionAddJobAndDependencies : Nat → JobType → U → Option Nat → Bool → Bool → Bool → Bool →
    Transaction U → Option (Transaction U × Except Errno Unit)
  | 0, _, _, _, _, _, _, _, _ => none
  | n + 1, type, u, requester, matters, conflicts, ignoreRequirements, ignoreOrder, tr =>
    if !type.inTransaction then none
    else
      match jobAdmissible sys type u with
      | .error e => some (tr, .error e)
      | .ok () =>
        match enterJob type u requester matters conflicts ignoreOrder tr with
        | none => none
        | some (tr, r, isNew) =>
          if isNew && !ignoreRequirements && type ≠ .nop then
            addPulls
              (fun p => transactionAddJobAndDependencies n p.type p.unit (some r) p.matters
                p.conflicts false ignoreOrder)
              (pulls sys type u) tr
          else some (tr, .ok ())

/-- Whether a unit is to be stopped when another one is isolated. -/
def shallStopOnIsolate (tr : Transaction U) (u : U) : Bool :=
  !sys.ignoreOnIsolate u && (tr.head u).isNone

/-- Adds stop jobs that matter to the anchor job, ignoring failures, for the units
of a list that pass a check made when their turn comes. -/
def addStops (depth : Nat) (stops : Transaction U → U → Bool) (us : List U) (tr : Transaction U) :
    Option (Transaction U) :=
  us.foldlM (fun tr u =>
    if stops tr u then
      (transactionAddJobAndDependencies sys depth .stop u tr.anchorJob true false false false tr).map
        Prod.fst
    else some tr) tr

def transactionAddIsolateJobs (depth : Nat) (m : Manager U) (tr : Transaction U) : Option (Transaction U) :=
  addStops sys depth (fun tr u =>
    !((sys.state u).isInactiveOrFailed && (m.jobOf u).isNone) && shallStopOnIsolate sys tr u &&
      (sys.units.dependencies .triggeredBy u).all (shallStopOnIsolate sys tr)) sys.allUnits tr

def transactionAddTriggeringJobs (depth : Nat) (m : Manager U) (u : U) (tr : Transaction U) :
    Option (Transaction U) :=
  addStops sys depth (fun tr trigger =>
    !((sys.state trigger).isInactiveOrFailed && (m.jobOf trigger).isNone) && (tr.head trigger).isNone)
    (sys.units.dependencies .triggeredBy u) tr

/-- A request to the manager. -/
structure Request (U : Type) where
  type : JobType
  unit : U
  mode : JobMode := .replace

/-- The modes that do not go with a request. -/
def refuseRequest (req : Request U) : Option Errno :=
  if req.mode = .isolate ∧ req.type ≠ .start then some einval
  else if req.mode = .isolate ∧ !sys.allowIsolate req.unit then some eperm
  else if req.mode = .triggering ∧ req.type ≠ .stop then some einval
  else none

/-- The jobs that the mode of the request adds. -/
def addModeJobs (depth : Nat) (m : Manager U) (req : Request U) (tr : Transaction U) : Option (Transaction U) :=
  if req.mode = .isolate then transactionAddIsolateJobs sys depth m tr
  else if req.mode = .triggering then transactionAddTriggeringJobs sys depth m req.unit tr
  else some tr

/-- The first half of `manager_add_job()`: the transaction for a request. -/
def buildTransaction (depth : Nat) (m : Manager U) (nextRef : Nat) (req : Request U) :
    Option (Except Errno (Transaction U)) :=
  match refuseRequest sys req with
  | some e => some (.error e)
  | none =>
    match transactionAddJobAndDependencies sys depth
      (jobTypeCollapse req.type (sys.state req.unit)) req.unit none true false
      (req.mode = .ignoreDependencies || req.mode = .ignoreRequirements)
      (req.mode = .ignoreDependencies)
      { irreversible := req.mode = .replaceIrreversibly, nextRef } with
    | none => none
    | some (_, .error e) => some (.error e)
    | some (tr, .ok ()) => (addModeJobs sys depth m req tr).map .ok

/-- `manager_add_job()`: the manager after a request that succeeds, the affected
jobs and the number of jobs created. -/
def managerAddJob (order : HashOrder U) (depth : Nat) (m : Manager U) (nextRef : Nat)
    (req : Request U) : Option (Except Errno (Manager U × List Nat × Nat)) :=
  match buildTransaction sys depth m nextRef req with
  | none => none
  | some (.error e) => some (.error e)
  | some (.ok tr) =>
    match transactionActivate order sys.state m sys.units sys.ignoreOnIsolate req.mode tr with
    | .ok (m, affected) => some (.ok (m, affected, tr.nextRef))
    | .error .assertion => none
    | .error .applyFailed => some (.error eexist)
    | .error _ => some (.error edeadlk)

end Build

/-! ## What is built is well formed -/

/-- What holds of a transaction while it is built, with job references from
`first` on. -/
structure Building (first : Nat) (tr : Transaction U) : Prop where
  unique : Keyed.Unique Job.ref tr.jobs
  range : ∀ j ∈ tr.jobs, first ≤ j.ref ∧ j.ref < tr.nextRef
  start : first ≤ tr.nextRef
  links : ∀ l ∈ tr.links, (∃ j ∈ tr.jobs, j.ref = l.subject) ∧ ∃ j ∈ tr.jobs, j.ref = l.object
  anchor : ∀ a ∈ tr.anchorJob, ∃ j ∈ tr.jobs, j.ref = a
  installable : ∀ j ∈ tr.jobs, j.installable = true
  unmarked : ∀ j ∈ tr.jobs, j.mattersToAnchor = false

/-- Jobs stay in the transaction and the anchor stays the anchor. -/
structure Extends (tr tr' : Transaction U) : Prop where
  jobs : ∀ j ∈ tr.jobs, ∃ j' ∈ tr'.jobs, j'.ref = j.ref
  anchor : ∀ a ∈ tr.anchorJob, tr'.anchorJob = some a

section Built

variable {sys : System U} {first : Nat} {tr tr' : Transaction U}

theorem Extends.refl (tr : Transaction U) : Extends tr tr :=
  ⟨fun j hj => ⟨j, hj, rfl⟩, fun _ ha => ha⟩

theorem Extends.trans {tr'' : Transaction U} (h : Extends tr tr') (h' : Extends tr' tr'') : Extends tr tr'' := by
  refine ⟨fun j hj => ?_, fun a ha => h'.anchor a (h.anchor a ha)⟩
  obtain ⟨k, hk, same⟩ := h.jobs j hj
  obtain ⟨k', hk', same'⟩ := h'.jobs k hk
  exact ⟨k', hk', same'.trans same⟩

variable {r depth : Nat} {type : JobType} {u : U} {requester : Option Nat} {matters conflicts ignoreOrder : Bool}
  {tr tr' : Transaction U} {res : Except Errno Unit}

/-- Replacing jobs by others with the same reference keeps every reference. -/
theorem Extends.exists_ref (h : Extends tr tr') (known : ∃ j ∈ tr.jobs, j.ref = r) : ∃ j ∈ tr'.jobs, j.ref = r := by
  obtain ⟨j, hj, rfl⟩ := known
  exact h.jobs j hj

theorem addOneJob_building (building : Building first tr) (ordinary : type.inTransaction = true) (u : U) :
    Building first (transactionAddOneJob tr type u).1 ∧ Extends tr (transactionAddOneJob tr type u).1 ∧
      ∃ j ∈ (transactionAddOneJob tr type u).1.jobs, j.ref = (transactionAddOneJob tr type u).2.1 := by
  unfold transactionAddOneJob
  split
  · rename_i i found
    exact ⟨building, .refl tr, i, mem_of_find?_eq_some found, rfl⟩
  · set j : Job U := { ref := tr.nextRef, id := tr.nextRef % 2 ^ 32, unit := u, type, irreversible := tr.irreversible } with hj
    have ext : Extends tr { tr with jobs := j :: tr.jobs, nextRef := tr.nextRef + 1 } :=
      ⟨fun k hk => ⟨k, by simp [hk], rfl⟩, fun _ ha => ha⟩
    refine ⟨⟨?_, ?_, ?_, ?_, ?_, ?_, ?_⟩, ext, j, by simp, rfl⟩
    · refine building.unique.cons fun k hk same => ?_
      have := (building.range k hk).2
      rw [same] at this
      exact lt_irrefl _ this
    · exact forall_mem_cons.mpr ⟨⟨building.start, Nat.lt_succ_self _⟩,
        fun k hk => (building.range k hk).imp_right Nat.lt_succ_of_lt⟩
    · exact Nat.le_succ_of_le building.start
    · intro l hl
      exact ⟨ext.exists_ref (building.links l hl).1, ext.exists_ref (building.links l hl).2⟩
    · exact fun a ha => ext.exists_ref (building.anchor a ha)
    · exact forall_mem_cons.mpr ⟨by simp [Job.installable, hj, ordinary], building.installable⟩
    · exact forall_mem_cons.mpr ⟨rfl, building.unmarked⟩

theorem orIgnoreOrder_building (building : Building first tr) (r : Nat) (ignoreOrder : Bool) :
    let tr' := { tr with jobs := Keyed.modify Job.ref r (Job.orIgnoreOrder ignoreOrder) tr.jobs }
    Building first tr' ∧ Extends tr tr' := by
  set tr' : Transaction U :=
    { tr with jobs := Keyed.modify Job.ref r (Job.orIgnoreOrder ignoreOrder) tr.jobs } with htr'
  have origin : ∀ k ∈ tr'.jobs, ∃ j ∈ tr.jobs, j.ref = k.ref ∧ j.installable = k.installable ∧
      j.mattersToAnchor = k.mattersToAnchor := by
    intro k hk
    rcases Keyed.mem_modify_iff.mp hk with ⟨hk, -⟩ | ⟨j, hj, -, rfl⟩
    · exact ⟨k, hk, rfl, rfl, rfl⟩
    · exact ⟨j, hj, rfl, rfl, rfl⟩
  have ext : Extends tr tr' := by
    refine ⟨fun j hj => ?_, fun _ ha => ha⟩
    by_cases same : j.ref = r
    · exact ⟨j.orIgnoreOrder ignoreOrder, Keyed.mem_modify_iff.mpr (Or.inr ⟨j, hj, same, rfl⟩), rfl⟩
    · exact ⟨j, Keyed.mem_modify_iff.mpr (Or.inl ⟨hj, same⟩), rfl⟩
  refine ⟨⟨building.unique.modify fun _ => rfl, fun k hk => ?_, building.start, fun l hl => ?_,
    fun a ha => ext.exists_ref (building.anchor a ha), fun k hk => ?_, fun k hk => ?_⟩, ext⟩
  · obtain ⟨j, hj, same, -⟩ := origin k hk
    exact same ▸ building.range j hj
  · exact ⟨ext.exists_ref (building.links l hl).1, ext.exists_ref (building.links l hl).2⟩
  · obtain ⟨j, hj, -, same, -⟩ := origin k hk
    exact same ▸ building.installable j hj
  · obtain ⟨j, hj, -, -, same⟩ := origin k hk
    exact same ▸ building.unmarked j hj

theorem enterJob_building (building : Building first tr) (ordinary : type.inTransaction = true) {isNew : Bool}
    (known : ∀ s ∈ requester, ∃ j ∈ tr.jobs, j.ref = s)
    (entered : enterJob type u requester matters conflicts ignoreOrder tr = some (tr', r, isNew)) :
    Building first tr' ∧ Extends tr tr' ∧ (∃ j ∈ tr'.jobs, j.ref = r) ∧
      (requester = none → tr'.anchorJob.isSome) := by
  obtain ⟨b₁, e₁, here₁⟩ := addOneJob_building building ordinary u
  obtain ⟨b₂, e₂⟩ := orIgnoreOrder_building b₁ (transactionAddOneJob tr type u).2.1 ignoreOrder
  have here₂ := e₂.exists_ref here₁
  have ext := e₁.trans e₂
  unfold enterJob at entered
  cases requester with
  | some s =>
    cases entered
    exact ⟨{ b₂ with links := forall_mem_cons.mpr ⟨⟨ext.exists_ref (known s rfl), here₂⟩, b₂.links⟩ },
      ⟨ext.jobs, ext.anchor⟩, here₂, by simp⟩
  | none =>
    dsimp only at entered
    split at entered
    · simp at entered
    · rename_i free
      cases entered
      refine ⟨{ b₂ with anchor := fun a ha => ?_ },
        ⟨ext.jobs, fun a ha => ?_⟩, here₂, by simp⟩
      · cases ha
        exact here₂
      · exact absurd (Option.isSome_iff_exists.mpr ⟨a, ext.anchor a ha⟩) free

theorem addPulls_keeps {add : Pull U → Transaction U → Option (Transaction U × Except Errno Unit)}
    {I : Transaction U → Prop} (step : ∀ p tr tr' res, I tr → add p tr = some (tr', res) → I tr') (ps : List (Pull U))
    (start : I tr) (done : addPulls add ps tr = some (tr', res)) : I tr' := by
  induction ps generalizing tr with
  | nil =>
    cases done
    exact start
  | cons p ps ih =>
    unfold addPulls at done
    split at done
    · simp at done
    · rename_i added
      exact ih (step p _ _ _ start added) done
    · rename_i e added
      split at done
      · exact ih (step p _ _ _ start added) done
      · cases done
        exact step p _ _ _ start added

theorem addJobAndDependencies_building (n : Nat) {ignoreRequirements : Bool} (building : Building first tr)
    (known : ∀ s ∈ requester, ∃ j ∈ tr.jobs, j.ref = s)
    (added : transactionAddJobAndDependencies sys n type u requester matters conflicts
      ignoreRequirements ignoreOrder tr = some (tr', res)) :
    Building first tr' ∧ Extends tr tr' ∧ (requester = none → res = .ok () → tr'.anchorJob.isSome) := by
  induction n generalizing type u requester matters conflicts ignoreRequirements ignoreOrder tr tr' res with
  | zero => simp [transactionAddJobAndDependencies] at added
  | succ n ih =>
    unfold transactionAddJobAndDependencies at added
    split at added
    · simp at added
    rename_i ordinary
    split at added
    · cases added
      exact ⟨building, .refl _, by simp⟩
    split at added
    · simp at added
    rename_i tr₁ r isNew entered
    obtain ⟨b₁, e₁, here, anchor⟩ := enterJob_building building (by simpa using ordinary) known entered
    split at added
    · have kept := addPulls_keeps (I := fun t => Building first t ∧ Extends tr₁ t)
        (fun p t t' res' held pulled => by
          have known' : ∀ s ∈ some r, ∃ j ∈ t.jobs, j.ref = s := by
            intro s hs
            cases hs
            exact held.2.exists_ref here
          obtain ⟨b, e, -⟩ := ih held.1 known' pulled
          exact ⟨b, held.2.trans e⟩)
        _ ⟨b₁, .refl _⟩ added
      refine ⟨kept.1, e₁.trans kept.2, fun isAnchor _ => ?_⟩
      obtain ⟨a, ha⟩ := Option.isSome_iff_exists.mp (anchor isAnchor)
      rw [kept.2.anchor a ha]
      rfl
    · cases added
      exact ⟨b₁, e₁, fun isAnchor _ => anchor isAnchor⟩

theorem addStops_building {stops : Transaction U → U → Bool} {us : List U} (building : Building first tr)
    (anchor : tr.anchorJob.isSome) (added : addStops sys depth stops us tr = some tr') :
    Building first tr' ∧ tr'.anchorJob.isSome := by
  induction us generalizing tr with
  | nil =>
    cases added
    exact ⟨building, anchor⟩
  | cons u us ih =>
    simp only [addStops, foldlM_cons, Option.bind_eq_bind, Option.bind_eq_some_iff] at added
    obtain ⟨tr₁, here, rest⟩ := added
    split at here
    · simp only [Option.map_eq_some_iff, Prod.exists, exists_and_right, exists_eq_right] at here
      obtain ⟨res, here⟩ := here
      obtain ⟨b, e, -⟩ := addJobAndDependencies_building depth building (fun s hs => building.anchor s hs) here
      obtain ⟨a, ha⟩ := Option.isSome_iff_exists.mp anchor
      exact ih b (by rw [e.anchor a ha]; rfl) rest
    · cases here
      exact ih building anchor rest

/-- Every transaction built for a request is well formed, and nothing in it is
marked. -/
theorem buildTransaction_built {nextRef : Nat} {m : Manager U} {req : Request U}
    (older : ∀ x j, m.find x = some j → x < nextRef) (done : buildTransaction sys depth m nextRef req = some (.ok tr)) :
    tr.Built m := by
  obtain ⟨building, anchor⟩ : Building nextRef tr ∧ tr.anchorJob.isSome := by
    unfold buildTransaction at done
    split at done
    · simp at done
    split at done
    · simp at done
    · simp at done
    rename_i tr₁ added
    have empty : Building nextRef
        ({ irreversible := req.mode = .replaceIrreversibly, nextRef } : Transaction U) :=
      ⟨by simp [Keyed.Unique], by simp, le_refl _, by simp, by simp, by simp, by simp⟩
    obtain ⟨b, -, anchor⟩ := addJobAndDependencies_building depth empty (by simp) added
    simp only [Option.map_eq_some_iff, Except.ok.injEq, exists_eq_right] at done
    unfold addModeJobs at done
    split at done
    · exact addStops_building b (anchor rfl rfl) done
    split at done
    · exact addStops_building b (anchor rfl rfl) done
    · cases done
      exact ⟨b, anchor rfl rfl⟩
  refine ⟨⟨building.unique, fun j hj => ?_, building.links, ?_, building.installable⟩, building.unmarked⟩
  · cases found : m.find j.ref with
    | none => rfl
    | some k =>
      have := older j.ref k found
      have := (building.range j hj).1
      omega
  · obtain ⟨a, ha⟩ := Option.isSome_iff_exists.mp anchor
    obtain ⟨j, hj, rfl⟩ := building.anchor a ha
    exact ⟨j, hj, ha⟩

end Built

end SystemdPort.Core
