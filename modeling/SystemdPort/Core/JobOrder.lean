/-
# Core.JobOrder — installed jobs never block each other for good

`job_is_runnable()` holds a job back while some installed job has to run before
it.  `MustRunBefore` is that relation; by `precedes_iff` an edge goes along
Before= into a start-like job, or against Before= out of a stopping one.

So no edge leads from a start-like job to a stopping one (`class_along`), a
cycle stays in one class, and within a class it follows Before= in one direction
only (`cycle_class`).  With Before= acyclic there is no cycle, and a finite set
of jobs has one that nothing holds back (`exists_runnable`).
-/
import SystemdPort.Core.Job
import SystemdPort.Lib.Cycle

namespace SystemdPort.Core

open Lib Relation

set_option autoImplicit false

variable {U : Type}

/-- The jobs installed on the units: `u->job` and `u->nop_job`. -/
structure UnitSlots (U : Type) where
  job : U → Option (Job U)
  nopJob : U → Option (Job U)
  busy : Finset U
  job_unit : ∀ {u j}, job u = some j → j.unit = u
  nopJob_unit : ∀ {u j}, nopJob u = some j → j.unit = u
  nopJob_type : ∀ {u j}, nopJob u = some j → j.type = .nop
  mem_busy : ∀ {u j}, job u = some j → u ∈ busy

/-- A job that sits in one of the two slots of its unit. -/
def UnitSlots.Installed (slots : UnitSlots U) (j : Job U) : Prop :=
  slots.job j.unit = some j ∨ slots.nopJob j.unit = some j

/-- Some unit of the list has an ordinary job that runs before `j`. -/
def heldBackBy (jobOf : U → Option (Job U)) (j : Job U) (dep : OrderAtom) (others : List U) : Bool :=
  others.any fun other =>
    match jobOf other with
    | some o => decide (jobCompare j o dep > 0)
    | none => false

def jobIsRunnable (units : Units U) (jobOf : U → Option (Job U)) (j : Job U) : Bool :=
  if j.ignoreOrder then true
  else if j.type = .nop then true
  else if heldBackBy jobOf j .after (units.dependencies .after j.unit) then false
  else if heldBackBy jobOf j .before (units.dependencies .before j.unit) then false
  else true

/-- `a` has to run before `b`: an ordering dependency links their units, and
`jobCompare` puts `a` first. -/
def Precedes (units : Units U) (a b : Job U) : Prop :=
  (b.unit ∈ units.dependencies .before a.unit ∧ jobCompare a b .before < 0) ∨
    (b.unit ∈ units.dependencies .after a.unit ∧ jobCompare a b .after < 0)

/-- The order among the installed jobs. -/
def MustRunBefore (units : Units U) (slots : UnitSlots U) (a b : Job U) : Prop :=
  slots.Installed a ∧ slots.Installed b ∧ Precedes units a b

theorem precedes_iff (units : Units U) (a b : Job U) : Precedes units a b ↔
      (units.Before a.unit b.unit ∧ a.orderClass.isSome ∧ b.orderClass = some .starting) ∨
      (units.Before b.unit a.unit ∧ a.orderClass = some .stopping ∧ b.orderClass.isSome) := by
  unfold Precedes
  rw [jobCompare_eq, jobCompare_eq, units.mem_before_iff, units.mem_after_iff]
  rcases a.orderClass with _ | _ | _ <;> rcases b.orderClass with _ | _ | _ <;>
    simp [classCompare]

variable {j a b : Job U} {units : Units U} {l : List (Job U)} {slots : UnitSlots U}

/-- What `jobCompare` puts after a job is what it puts the job before. -/
theorem precedes_of_compare_pos (units : Units U) {o : Job U} (dep : OrderAtom)
    (linked : o.unit ∈ units.dependencies dep.atom j.unit) (later : jobCompare j o dep > 0) : Precedes units o j := by
  rw [jobCompare_eq] at later
  rw [precedes_iff]
  cases dep with
  | before =>
    refine Or.inr ⟨linked, ?_⟩
    revert later
    rcases j.orderClass with _ | _ | _ <;> rcases o.orderClass with _ | _ | _ <;>
      simp [classCompare]
  | after =>
    refine Or.inl ⟨(units.mem_after_iff _ _).mp linked, ?_⟩
    revert later
    rcases j.orderClass with _ | _ | _ <;> rcases o.orderClass with _ | _ | _ <;>
      simp [classCompare]

/-- A start-like job only precedes start-like jobs, along Before=. -/
theorem precedes_of_starting (edge : Precedes units a b) (starting : a.orderClass = some .starting) :
    b.orderClass = some .starting ∧ units.Before a.unit b.unit := by
  rcases (precedes_iff units a b).mp edge with ⟨order, -, hb⟩ | ⟨-, ha, -⟩
  · exact ⟨hb, order⟩
  · simp [starting] at ha

/-- A stopping job is preceded against Before=. -/
theorem precedes_of_stopping (edge : Precedes units a b) (stopping : b.orderClass = some .stopping) :
    units.Before b.unit a.unit := by
  rcases (precedes_iff units a b).mp edge with ⟨-, -, hb⟩ | ⟨order, -⟩
  · simp [stopping] at hb
  · exact order

theorem precedes_ordered (edge : Precedes units a b) : a.orderClass.isSome := by
  rcases (precedes_iff units a b).mp edge with ⟨-, ha, -⟩ | ⟨-, ha, -⟩
  · exact ha
  · simp [ha]

/-- Once start-like, a walk stays start-like. -/
theorem class_along (walk : TransGen (Precedes units) a b) (starting : a.orderClass = some .starting) :
    b.orderClass = some .starting := by
  induction walk with
  | single edge => exact (precedes_of_starting edge starting).1
  | tail _ edge ih => exact (precedes_of_starting edge ih).1

/-- A cycle of the job order stays in one class, and its units are a cycle of
Before=, walked backwards by stopping jobs. -/
theorem cycle_class (cycle : IsCycle (Precedes units) l) : ∃ c, (∀ j ∈ l, j.orderClass = some c) ∧
      match c with
      | .starting => IsCycle units.Before (l.map Job.unit)
      | .stopping => IsCycle units.Before (l.map Job.unit).reverse := by
  by_cases h : ∃ a ∈ l, a.orderClass = some .starting
  · obtain ⟨a, ha, starting⟩ := h
    have all : ∀ j ∈ l, j.orderClass = some .starting := fun j hj => class_along (cycle.transGen ha hj) starting
    exact ⟨.starting, all, cycle.map _ fun x hx _ _ edge => (precedes_of_starting edge (all x hx)).2⟩
  · have all : ∀ j ∈ l, j.orderClass = some .stopping := by
      intro j hj
      obtain ⟨k, edge, -⟩ := TransGen.head'_iff.mp (cycle.transGen hj hj)
      have ordered := precedes_ordered edge
      rcases hc : j.orderClass with _ | _ | _
      · simp [hc] at ordered
      · rfl
      · exact absurd ⟨j, hj, hc⟩ h
    have back := cycle.map (S := fun u v => units.Before v u) Job.unit
      fun _ _ y hy edge => precedes_of_stopping edge (all y hy)
    exact ⟨.stopping, all, back.reverse⟩

theorem precedes_cycle (cycle : IsCycle (MustRunBefore units slots) l) : IsCycle (Precedes units) l := by
  have := cycle.map (S := Precedes units) id fun _ _ _ _ edge => edge.2.2
  simpa using this

theorem mustRunBefore_acyclic (slots : UnitSlots U) (acyclic : Acyclic units.Before) :
    Acyclic (MustRunBefore units slots) := by
  rw [acyclic_iff] at acyclic ⊢
  intro l cycle
  obtain ⟨c, -, projected⟩ := cycle_class (precedes_cycle cycle)
  cases c with
  | starting => exact acyclic _ projected
  | stopping => exact acyclic _ projected

theorem mustRunBefore_of_heldBack (installed : slots.Installed j) (dep : OrderAtom)
    (held : heldBackBy slots.job j dep (units.dependencies dep.atom j.unit) = true) :
    ∃ o, slots.job o.unit = some o ∧ MustRunBefore units slots o j := by
  obtain ⟨other, linked, later⟩ := List.any_eq_true.mp held
  split at later
  · rename_i o found
    obtain rfl := slots.job_unit found
    exact ⟨o, found, Or.inl found, installed, precedes_of_compare_pos units dep linked (by simpa using later)⟩
  · simp at later

/-- A job that no ordinary job precedes is runnable. -/
theorem runnable_of_minimal (installed : slots.Installed j)
    (least : ∀ o, slots.job o.unit = some o → ¬ MustRunBefore units slots o j) :
    jobIsRunnable units slots.job j = true := by
  have free : ∀ dep : OrderAtom,
      heldBackBy slots.job j dep (units.dependencies dep.atom j.unit) = false := by
    intro dep
    by_contra held
    obtain ⟨o, ordinary, edge⟩ := mustRunBefore_of_heldBack installed dep (by simpa using held)
    exact least o ordinary edge
  have after := free .after
  have before := free .before
  simp only [OrderAtom.atom] at after before
  simp [jobIsRunnable, after, before]

theorem exists_runnable (slots : UnitSlots U) (acyclic : Acyclic units.Before) (installed : slots.Installed j) :
    ∃ k, slots.Installed k ∧ jobIsRunnable units slots.job k = true := by
  classical
  let ordinary : Finset (Job U) := slots.busy.biUnion fun u => (slots.job u).toFinset
  have mem_ordinary : ∀ o, slots.job o.unit = some o → o ∈ ordinary := fun o found =>
    Finset.mem_biUnion.mpr ⟨o.unit, slots.mem_busy found, by simp [found]⟩
  by_cases nonempty : ordinary.Nonempty
  · obtain ⟨k, hk, least⟩ := exists_minimal_of_acyclic (mustRunBefore_acyclic slots acyclic) ordinary nonempty
    obtain ⟨u, -, found⟩ := Finset.mem_biUnion.mp hk
    simp only [Option.mem_toFinset] at found
    obtain rfl := slots.job_unit found
    have here : slots.Installed k := Or.inl found
    exact ⟨k, here, runnable_of_minimal here fun o ho => least o (mem_ordinary o ho)⟩
  · refine ⟨j, installed, runnable_of_minimal installed fun o ho => ?_⟩
    exact absurd ⟨o, mem_ordinary o ho⟩ nonempty

/-- Stops run in reverse unit order, and before the start-like jobs they are
ordered against. -/
theorem stopping_first (ha : slots.Installed a) (hb : slots.Installed b) (stopping : a.orderClass = some .stopping) :
    (b.orderClass = some .stopping → units.Before b.unit a.unit → MustRunBefore units slots a b) ∧
    (b.orderClass = some .starting → units.Before a.unit b.unit ∨ units.Before b.unit a.unit →
      MustRunBefore units slots a b ∧ ¬ MustRunBefore units slots b a) := by
  refine ⟨fun also order => ⟨ha, hb, ?_⟩, fun starting linked => ⟨⟨ha, hb, ?_⟩, fun edge => ?_⟩⟩
  · rw [precedes_iff]
    exact Or.inr ⟨order, stopping, by simp [also]⟩
  · rw [precedes_iff]
    rcases linked with order | order
    · exact Or.inl ⟨order, by simp [stopping], starting⟩
    · exact Or.inr ⟨order, stopping, by simp [starting]⟩
  · have := (precedes_of_starting edge.2.2 starting).1
    simp [stopping] at this

/-- **The job order has no deadlock of its own.**  Every cycle of it is a cycle of Before=; with
Before= acyclic, some installed job is not held back. -/
theorem jobOrder_deadlockFree (units : Units U) (slots : UnitSlots U) :
    (∀ l, IsCycle (MustRunBefore units slots) l →
      ∃ c, (∀ j ∈ l, j.orderClass = some c) ∧
        match c with
        | .starting => IsCycle units.Before (l.map Job.unit)
        | .stopping => IsCycle units.Before (l.map Job.unit).reverse) ∧
    (∀ a b, slots.Installed a → slots.Installed b → a.orderClass = some .stopping →
      (b.orderClass = some .stopping → units.Before b.unit a.unit →
        MustRunBefore units slots a b) ∧
      (b.orderClass = some .starting → units.Before a.unit b.unit ∨ units.Before b.unit a.unit →
        MustRunBefore units slots a b ∧ ¬ MustRunBefore units slots b a)) ∧
    (Acyclic units.Before →
      Acyclic (MustRunBefore units slots) ∧
      ((∃ j, slots.Installed j) →
        ∃ k, slots.Installed k ∧ jobIsRunnable units slots.job k = true)) := by
  refine ⟨fun l cycle => cycle_class (precedes_cycle cycle),
    fun a b ha hb stopping => stopping_first ha hb stopping, fun acyclic => ⟨?_, ?_⟩⟩
  · exact mustRunBefore_acyclic slots acyclic
  · rintro ⟨j, installed⟩
    exact exists_runnable slots acyclic installed

end SystemdPort.Core
