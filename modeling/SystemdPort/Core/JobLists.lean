/-
# Core.JobLists — the jobs before and after a job

`job_get_before()` and `job_get_after()` of `src/core/job.c` list the jobs that a job waits for
and those that wait for it.  Both loops say `Precedes` (`mem_jobGetBefore`, `mem_jobGetAfter`), one
from each end, and so does `job_is_runnable()`.

The jobs are sorted by their ids to find those listed twice, which needs that no two jobs share one:
`m->jobs` is a table by id (`JobTable`).
-/
import SystemdPort.Core.ManagerInvariant

namespace SystemdPort.Core

set_option autoImplicit false
set_option linter.unusedSectionVars false

open Lib List

variable {U : Type} [DecidableEq U]

/-- The jobs of a manager: those in the slots of the units are in `m->jobs` under their ids. -/
structure JobTable (U : Type) extends UnitSlots U where
  jobs : Nat → Option (Job U)
  registered : ∀ {u j}, job u = some j → jobs j.id = some j

/-- The loop that filters out duplicates. -/
def dropRepeated : Option (Job U) → List (Job U) → List (Job U)
  | _, [] => []
  | previous, j :: list =>
    if previous = some j then dropRepeated previous list else j :: dropRepeated (some j) list

/-- `sort_job_list()` -/
def sortJobList (list : List (Job U)) : List (Job U) :=
  dropRepeated none (list.mergeSort fun a b => a.id ≤ b.id)

/-- The jobs of some units that pass a test. -/
def jobsOf (jobOf : U → Option (Job U)) (test : Job U → Bool) (others : List U) : List (Job U) :=
  others.filterMap fun other => (jobOf other).filter test

def jobGetBefore (units : Units U) (jobOf : U → Option (Job U)) (j : Job U) : List (Job U) :=
  if j.ignoreOrder then []
  else
    sortJobList
      (jobsOf jobOf (fun o => jobCompare j o .after > 0) (units.dependencies .after j.unit) ++
        jobsOf jobOf (fun o => jobCompare j o .before > 0) (units.dependencies .before j.unit))

def jobGetAfter (units : Units U) (jobOf : U → Option (Job U)) (j : Job U) : List (Job U) :=
  sortJobList
    (jobsOf jobOf (fun o => !o.ignoreOrder && decide (jobCompare j o .before < 0)) (units.dependencies .before j.unit) ++
      jobsOf jobOf (fun o => !o.ignoreOrder && decide (jobCompare j o .after < 0)) (units.dependencies .after j.unit))

variable {a : Job U} {list : List (Job U)} (previous : Option (Job U))

/-! ## Sorting -/

theorem mem_dropRepeated (list : List (Job U)) :
    a ∈ dropRepeated previous list ∨ previous = some a ↔ a ∈ list ∨ previous = some a := by
  fun_induction dropRepeated previous list with
  | case1 previous => rfl
  | case2 j list ih =>
    rw [ih, mem_cons]
    constructor
    · exact Or.imp_left Or.inr
    · rintro ((rfl | member) | same)
      · exact .inr rfl
      · exact .inl member
      · exact .inr same
  | case3 previous j list other ih =>
    have here : a = j ↔ some j = some a := by rw [Option.some.injEq, eq_comm]
    rw [mem_cons, mem_cons, or_comm (a := a = j), or_comm (a := a = j), here, ih]

/-- Jobs in the order of their ids, of which no two share one, are left with rising ids. -/
theorem dropRepeated_rising (sorted : list.Pairwise fun a b => a.id ≤ b.id ∧ (a.id = b.id → a = b))
    (above : ∀ p ∈ previous, ∀ a ∈ list, p.id ≤ a.id ∧ (p.id = a.id → p = a)) :
    (dropRepeated previous list).Pairwise (fun a b => a.id < b.id) ∧
      ∀ p ∈ previous, ∀ a ∈ dropRepeated previous list, p.id < a.id := by
  fun_induction dropRepeated previous list with
  | case1 previous => exact ⟨.nil, fun _ _ _ member => absurd member not_mem_nil⟩
  | case2 j list ih =>
    exact ih sorted.of_cons fun p here a member => above p here a (mem_cons_of_mem _ member)
  | case3 previous j list other ih =>
    obtain ⟨first, rest⟩ := pairwise_cons.mp sorted
    obtain ⟨rising, later⟩ := ih rest fun p here a member => by cases here; exact first a member
    refine ⟨pairwise_cons.mpr ⟨later j rfl, rising⟩, fun p here a member => ?_⟩
    obtain ⟨le, same⟩ := above p here j mem_cons_self
    have lt : p.id < j.id := lt_of_le_of_ne le fun equal => other (same equal ▸ here)
    rcases mem_cons.mp member with rfl | behind
    · exact lt
    · exact lt.trans (later j rfl a behind)

theorem mem_sortJobList : a ∈ sortJobList list ↔ a ∈ list := by
  have kept := mem_dropRepeated (a := a) none (list.mergeSort fun a b => a.id ≤ b.id)
  simpa [sortJobList] using kept

theorem nodup_sortJobList (apart : ∀ a ∈ list, ∀ b ∈ list, a.id = b.id → a = b) : (sortJobList list).Nodup := by
  have sorted : (list.mergeSort fun a b => a.id ≤ b.id).Pairwise fun a b => a.id ≤ b.id :=
    (pairwise_mergeSort (fun a b c => by simpa using le_trans) (fun a b => by simpa using le_total _ _) list).imp
      fun le => by simpa using le
  have rising := (dropRepeated_rising none (sorted.imp_of_mem fun {a b} here there le =>
    ⟨le, apart a (mem_mergeSort.mp here) b (mem_mergeSort.mp there)⟩) (by simp)).1
  exact rising.imp fun {a b} lt same => absurd (congrArg Job.id same) lt.ne

/-! ## The two lists -/

theorem mem_jobsOf {jobOf : U → Option (Job U)} {test : Job U → Bool} {others : List U} {o : Job U} :
    o ∈ jobsOf jobOf test others ↔ test o = true ∧ ∃ u ∈ others, jobOf u = some o := by
  simp only [jobsOf, mem_filterMap, Option.filter_eq_some_iff]
  constructor
  · rintro ⟨u, member, found, passed⟩
    exact ⟨passed, u, member, found⟩
  · rintro ⟨passed, u, member, found⟩
    exact ⟨u, member, found, passed⟩

section Table

variable {units : Units U} {m : JobTable U} {j o : Job U}

variable {others : List U}

theorem JobTable.apart {test test' : Job U → Bool} {others' : List U} :
    ∀ a ∈ jobsOf m.job test others ++ jobsOf m.job test' others',
      ∀ b ∈ jobsOf m.job test others ++ jobsOf m.job test' others', a.id = b.id → a = b := by
  have known : ∀ a ∈ jobsOf m.job test others ++ jobsOf m.job test' others', m.jobs a.id = some a := by
    intro a member
    rcases mem_append.mp member with member | member
    all_goals
      obtain ⟨-, u, -, found⟩ := mem_jobsOf.mp member
      exact m.registered found
  intro a here b there same
  have found := known a here
  rw [same, known b there] at found
  exact (Option.some.inj found).symm

theorem mem_slot : (∃ u ∈ others, m.job u = some o) ↔ o.unit ∈ others ∧ m.job o.unit = some o := by
  constructor
  · rintro ⟨u, member, found⟩
    obtain rfl := m.job_unit found
    exact ⟨member, found⟩
  · rintro ⟨member, found⟩
    exact ⟨o.unit, member, found⟩

/-- The comparison changes its sign when it is asked from the other end. -/
theorem jobCompare_swap (a b : Job U) : jobCompare a b .after = -jobCompare b a .before := by
  rw [jobCompare_eq, jobCompare_eq]
  rcases a.orderClass with _ | _ | _ <;> rcases b.orderClass with _ | _ | _ <;> rfl

theorem mem_jobGetBefore : o ∈ jobGetBefore units m.job j ↔ m.job o.unit = some o ∧ Precedes units o j := by
  unfold jobGetBefore Precedes
  have swap := jobCompare_swap o j
  have swap' := jobCompare_swap j o
  split
  · rename_i ignored
    have none : ∀ dep, jobCompare o j dep = 0 := fun dep => by simp [jobCompare, ignored]
    simp [none]
  · simp only [mem_sortJobList, mem_append, mem_jobsOf, mem_slot, decide_eq_true_eq]
    rw [units.mem_after_iff, units.mem_before_iff, units.mem_after_iff, units.mem_before_iff]
    constructor
    · rintro (⟨later, order, found⟩ | ⟨later, order, found⟩)
      · exact ⟨found, .inl ⟨order, by omega⟩⟩
      · exact ⟨found, .inr ⟨order, by omega⟩⟩
    · rintro ⟨found, ⟨order, earlier⟩ | ⟨order, earlier⟩⟩
      · exact .inl ⟨by omega, order, found⟩
      · exact .inr ⟨by omega, order, found⟩

theorem mem_jobGetAfter : o ∈ jobGetAfter units m.job j ↔ m.job o.unit = some o ∧ Precedes units j o := by
  unfold jobGetAfter Precedes
  have ordered : ∀ dep, jobCompare j o dep < 0 → o.ignoreOrder = false := by
    intro dep earlier
    by_contra ignored
    simp [jobCompare, (Bool.not_eq_false _).mp ignored] at earlier
  simp only [mem_sortJobList, mem_append, mem_jobsOf, mem_slot, Bool.and_eq_true, Bool.not_eq_true',
    decide_eq_true_eq]
  constructor
  · rintro (⟨⟨-, earlier⟩, linked, found⟩ | ⟨⟨-, earlier⟩, linked, found⟩)
    · exact ⟨found, .inl ⟨linked, earlier⟩⟩
    · exact ⟨found, .inr ⟨linked, earlier⟩⟩
  · rintro ⟨found, ⟨linked, earlier⟩ | ⟨linked, earlier⟩⟩
    · exact .inl ⟨⟨ordered _ earlier, earlier⟩, linked, found⟩
    · exact .inr ⟨⟨ordered _ earlier, earlier⟩, linked, found⟩

theorem heldBackBy_iff {dep : OrderAtom} :
    heldBackBy m.job j dep others = true ↔ ∃ o, o ∈ jobsOf m.job (fun o => jobCompare j o dep > 0) others := by
  simp only [heldBackBy, any_eq_true, mem_jobsOf]
  constructor
  · rintro ⟨u, member, later⟩
    cases found : m.job u with
    | none => simp [found] at later
    | some o => exact ⟨o, by simpa [found] using later, u, member, found⟩
  · rintro ⟨o, later, u, member, found⟩
    exact ⟨u, member, by simpa [found] using later⟩

theorem jobIsRunnable_iff (ordered : j.ignoreOrder = false) :
    jobIsRunnable units m.job j = true ↔ jobGetBefore units m.job j = [] := by
  have nop : j.type = .nop → ∀ o dep, jobCompare j o dep = 0 := fun isNop o dep => by simp [jobCompare, isNop]
  simp only [eq_nil_iff_forall_not_mem, jobGetBefore, jobIsRunnable, ordered, Bool.false_eq_true, if_false,
    mem_sortJobList, mem_append, not_or, forall_and, ← not_exists, ← heldBackBy_iff]
  by_cases isNop : j.type = .nop
  · have free : ∀ dep others, heldBackBy m.job j dep others = false := by
      intro dep others
      rw [← Bool.not_eq_true, heldBackBy_iff]
      simp [mem_jobsOf, nop isNop]
    simp [free]
  · split_ifs with after before <;> simp_all

/-- A job waits for another iff that one lists it as waiting; no job is listed twice; and a job is runnable
iff it waits for none. -/
theorem job_lists_agree (units : Units U) (m : JobTable U) :
    (∀ j k, m.job j.unit = some j → m.job k.unit = some k →
      (k ∈ jobGetBefore units m.job j ↔ j ∈ jobGetAfter units m.job k)) ∧
    (∀ j, (jobGetBefore units m.job j).Nodup ∧ (jobGetAfter units m.job j).Nodup) ∧
    ∀ j, j.ignoreOrder = false → (jobIsRunnable units m.job j = true ↔ jobGetBefore units m.job j = []) := by
  refine ⟨fun j k ordinary ordinary' => ?_, fun j => ⟨?_, nodup_sortJobList JobTable.apart⟩,
    fun j => jobIsRunnable_iff⟩
  · rw [mem_jobGetBefore, mem_jobGetAfter, and_iff_right ordinary, and_iff_right ordinary']
  · unfold jobGetBefore
    split
    · exact nodup_nil
    · exact nodup_sortJobList JobTable.apart

end Table

/-! ## The table of a manager -/

section Manager

variable {pending : List (Job U)} {m : Manager U}

/-- The table of a manager whose tables, slots and counter agree. -/
def Manager.Wf.jobTable (wf : m.Wf pending) : JobTable U where
  toUnitSlots := wf.slots
  jobs id := (m.jobs id).bind m.find
  registered found := by
    obtain ⟨present, installed, -, -⟩ := wf.jobOf_iff.mp found
    rw [(wf.jobs_iff _ _).mpr (.inl ⟨_, present, installed, rfl⟩)]
    exact present

end Manager

end SystemdPort.Core
