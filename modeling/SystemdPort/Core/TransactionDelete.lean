/-
# Core.TransactionDelete — what deleting a job takes with it

`transactionDeleteJob` frees the links of a job and deletes, if asked to, the
jobs that depend on it by links that matter, and so on.  `Deleted` says what is
left, and `mem_deleteJob_iff` that exactly the dependents go: the jobs from
which a chain of links that matter leads to the deleted one.
-/
import SystemdPort.Core.Transaction

namespace SystemdPort.Core

open Lib Relation List

set_option autoImplicit false
set_option linter.unusedSectionVars false

variable {U : Type} [DecidableEq U]

/-- Job `a` needs job `b` by a link that matters. -/
def Requires (links : List JobDependency) (a b : Nat) : Prop :=
  ∃ l ∈ links, l.matters = true ∧ l.subject = a ∧ l.object = b

/-- No job has this reference. -/
def Transaction.Dead (tr : Transaction U) (r : Nat) : Prop := ∀ j ∈ tr.jobs, j.ref ≠ r

/-- A transaction well formed next to the jobs of the manager: references are
unique and new, links and anchor name jobs of the transaction, and the jobs can
be installed. -/
structure Transaction.Wf (m : Manager U) (tr : Transaction U) : Prop where
  unique : Keyed.Unique Job.ref tr.jobs
  fresh : ∀ j ∈ tr.jobs, m.find j.ref = none
  links : ∀ l ∈ tr.links, (∃ j ∈ tr.jobs, j.ref = l.subject) ∧ ∃ j ∈ tr.jobs, j.ref = l.object
  anchor : ∃ j ∈ tr.jobs, tr.anchorJob = some j.ref
  installable : ∀ j ∈ tr.jobs, j.installable = true

/-- A transaction as it is built, before anything was marked. -/
structure Transaction.Built (m : Manager U) (tr : Transaction U) : Prop extends tr.Wf m where
  unmarked : ∀ j ∈ tr.jobs, j.mattersToAnchor = false

/-- What holds while the links of job `r` are being freed. -/
structure Unlinking (dd : Bool) (r : Nat) (tr cur : Transaction U) : Prop where
  jobs_sub : cur.jobs.Sublist tr.jobs
  links_sub : cur.links.Sublist tr.links
  anchor : cur.anchorJob = tr.anchorJob
  gone : cur.Dead r
  only : ∀ j ∈ tr.jobs, j ∉ cur.jobs →
    j.ref = r ∨ (dd = true ∧ ReflTransGen (Requires tr.links) j.ref r)
  freed : dd = true → ∀ l ∈ tr.links, l ∉ cur.links → l.matters = true → cur.Dead l.subject
  subjects : ∀ l ∈ cur.links, l.subject ≠ r ∧ (cur.Dead l.subject → tr.Dead l.subject)
  objects : ∀ l ∈ cur.links, l.object ≠ r → cur.Dead l.object → tr.Dead l.object

/-- What is left after job `r` was deleted. -/
structure Deleted (dd : Bool) (r : Nat) (tr tr' : Transaction U) : Prop extends
    Unlinking dd r tr tr' where
  unlinked : ∀ l ∈ tr'.links, l.object ≠ r

theorem Requires.mono {links links' : List JobDependency} (sub : links ⊆ links') {a b : Nat}
    (needs : Requires links a b) : Requires links' a b := by
  obtain ⟨l, member, rest⟩ := needs
  exact ⟨l, sub member, rest⟩

section Deletion

variable {dd : Bool} {r : Nat} {tr cur tr' : Transaction U}

/-- The start of the loop: the job and the links it is the subject of are gone. -/
theorem Unlinking.start (dd : Bool) (r : Nat) (tr : Transaction U) : Unlinking dd r tr { tr with
      jobs := Keyed.remove Job.ref r tr.jobs
      links := tr.links.filter fun l => l.subject ≠ r } := by
  have alive : ∀ x, x ≠ r → ({ tr with
      jobs := Keyed.remove Job.ref r tr.jobs
      links := tr.links.filter fun l => l.subject ≠ r } : Transaction U).Dead x → tr.Dead x := by
    intro x ne dead j hj same
    exact dead j (Keyed.mem_remove_iff.mpr ⟨hj, by rw [same]; exact ne⟩) same
  refine ⟨filter_sublist, filter_sublist, rfl, ?_, fun j hj gone => ?_, ?_, ?_, ?_⟩
  · intro j hj
    exact (Keyed.mem_remove_iff.mp hj).2
  · by_contra other
    simp only [not_or] at other
    exact gone (Keyed.mem_remove_iff.mpr ⟨hj, other.1⟩)
  · intro _ l hl freed _ j hj same
    have : l.subject = r := by
      by_contra ne
      exact freed (by simp [hl, ne])
    rw [this] at same
    exact (Keyed.mem_remove_iff.mp hj).2 same
  · intro l hl
    have ne : l.subject ≠ r := by simpa using (mem_filter.mp hl).2
    exact ⟨ne, alive _ ne⟩
  · intro l _ ne
    exact alive _ ne

theorem Unlinking.free (here : Unlinking dd r tr cur) {l : JobDependency} (keeps : ¬(l.matters && dd) = true) :
    Unlinking dd r tr { cur with links := cur.links.erase l } := by
  have sub : (cur.links.erase l).Sublist cur.links := erase_sublist
  refine ⟨here.jobs_sub, sub.trans here.links_sub, here.anchor, here.gone, here.only, ?_, ?_, ?_⟩
  · intro on l' hl' freed matters
    by_cases before : l' ∈ cur.links
    · have same : l' = l := by
        by_contra ne
        exact freed ((mem_erase_of_ne ne).mpr before)
      rw [same] at matters
      simp [matters, on] at keeps
    · exact here.freed on l' hl' before matters
  · exact fun l' hl' => here.subjects l' (sub.subset hl')
  · exact fun l' hl' => here.objects l' (sub.subset hl')

theorem Unlinking.cascade (here : Unlinking dd r tr cur) {l : JobDependency} (member : l ∈ cur.links)
    (object : l.object = r) (matters : l.matters = true) (on : dd = true)
    (below : Deleted dd l.subject { cur with links := cur.links.erase l } tr') :
    Unlinking dd r tr tr' := by
  have sub : (cur.links.erase l).Sublist cur.links := erase_sublist
  have dead : ∀ x, cur.Dead x → tr'.Dead x := fun x dead j hj => dead j (below.jobs_sub.subset hj)
  refine ⟨below.jobs_sub.trans here.jobs_sub, (below.links_sub.trans sub).trans here.links_sub,
    below.anchor.trans here.anchor, fun j hj => here.gone j (below.jobs_sub.subset hj), ?_, ?_, ?_, ?_⟩
  · intro j hj gone
    by_cases before : j ∈ cur.jobs
    · refine Or.inr ⟨on, ?_⟩
      have last : Requires tr.links l.subject r := ⟨l, here.links_sub.subset member, matters, rfl, object⟩
      rcases below.only j before gone with same | ⟨-, chain⟩
      · rw [same]
        exact .single last
      · refine .tail (ReflTransGen.mono (fun a b needs => ?_) _ _ chain) last
        exact needs.mono (List.Subset.trans sub.subset here.links_sub.subset)
    · exact here.only j hj before
  · intro _ l' hl' freed matters'
    by_cases before : l' ∈ cur.links
    · by_cases kept : l' ∈ cur.links.erase l
      · exact below.freed on l' kept freed matters'
      · have same : l' = l := by
          by_contra ne
          exact kept ((mem_erase_of_ne ne).mpr before)
        rw [same]
        exact below.gone
    · exact dead _ (here.freed on l' hl' before matters')
  · intro l' hl'
    have before := below.links_sub.subset hl'
    obtain ⟨ne, back⟩ := here.subjects l' (sub.subset before)
    exact ⟨ne, fun gone => back ((below.subjects l' hl').2 gone)⟩
  · intro l' hl' ne gone
    have before := below.links_sub.subset hl'
    exact here.objects l' (sub.subset before) ne (below.objects l' hl' (below.unlinked l' hl') gone)

theorem deleteJobDepth_deleted (dd : Bool) (n : Nat) (r : Nat) (tr : Transaction U)
    (deep : tr.links.length < n) : Deleted dd r tr (deleteJobDepth dd n r tr) := by
  induction n generalizing r tr with
  | zero => omega
  | succ n ih =>
    set start : Transaction U := { tr with
      jobs := Keyed.remove Job.ref r tr.jobs
      links := tr.links.filter fun l => l.subject ≠ r } with hstart
    have result : deleteJobDepth dd (n + 1) r tr =
        exhaust (freeObjectLink (deleteJobDepth dd n) dd r) start.links.length start := rfl
    -- the invariant of a round; the links left bound the depth of what it deletes
    have round : ∀ cur next, Unlinking dd r tr cur →
        freeObjectLink (deleteJobDepth dd n) dd r cur = some next →
        Unlinking dd r tr next ∧ next.links.length < cur.links.length := by
      intro cur next here step
      simp only [freeObjectLink, Option.map_eq_some_iff] at step
      obtain ⟨l, found, rfl⟩ := step
      have member := mem_of_find?_eq_some found
      have object : l.object = r := by simpa using find?_some found
      have shorter := length_erase_of_mem member
      have positive := length_pos_of_mem member
      split
      · rename_i both
        simp only [Bool.and_eq_true] at both
        have deep' : (cur.links.erase l).length < n := by
          have := here.links_sub.length_le
          omega
        have below := ih l.subject { cur with links := cur.links.erase l } deep'
        refine ⟨here.cascade member object both.1 both.2 below, ?_⟩
        have : (deleteJobDepth dd n l.subject { cur with links := cur.links.erase l }).links.length ≤
          (cur.links.erase l).length := below.links_sub.length_le
        omega
      · rename_i keeps
        refine ⟨here.free keeps, ?_⟩
        change (cur.links.erase l).length < _
        omega
    obtain ⟨here, done⟩ := exhaust_rule (Unlinking dd r tr) (fun cur => cur.links.length) round
      start.links.length start (Unlinking.start dd r tr) (le_refl _)
    refine ⟨here, fun l hl same => ?_⟩
    simp only [freeObjectLink, Option.map_eq_none_iff, find?_eq_none] at done
    have := done l hl
    simp [same] at this

theorem deleteJob_deleted (tr : Transaction U) (r : Nat) (dd : Bool) :
    Deleted dd r tr (transactionDeleteJob tr r dd) :=
  deleteJobDepth_deleted dd _ r tr (by omega)

/-- The jobs that remain are those that do not depend on the deleted one. -/
theorem mem_deleteJob_iff {m : Manager U} (wf : tr.Wf m) (r : Nat) (j : Job U) :
    j ∈ (transactionDeleteJob tr r true).jobs ↔ j ∈ tr.jobs ∧ ¬ ReflTransGen (Requires tr.links) j.ref r := by
  have deleted := deleteJob_deleted tr r true
  constructor
  · intro kept
    refine ⟨deleted.jobs_sub.subset kept, fun chain => ?_⟩
    -- from the deleted job backwards, everything on the chain is dead
    have dead : ∀ x, ReflTransGen (Requires tr.links) x r →
        (transactionDeleteJob tr r true).Dead x := by
      intro x chain
      induction chain using ReflTransGen.head_induction_on with
      | refl => exact deleted.gone
      | head needs _ ih =>
        obtain ⟨l, member, matters, rfl, rfl⟩ := needs
        by_cases left : l ∈ (transactionDeleteJob tr r true).links
        · obtain ⟨k, hk, same⟩ := (wf.links l member).2
          exact absurd same (deleted.objects l left (deleted.unlinked l left) ih k hk)
        · exact deleted.freed rfl l member left matters
    exact dead j.ref chain j kept rfl
  · rintro ⟨member, independent⟩
    by_contra gone
    rcases deleted.only j member gone with same | ⟨-, chain⟩
    · exact independent (by rw [same])
    · exact independent chain

/-- Where nothing depends on the job, or dependents are spared, only the job goes. -/
theorem mem_deleteJob_alone {dd : Bool} (alone : dd = false ∨ ∀ l ∈ tr.links, l.object ≠ r)
    (j : Job U) : j ∈ (transactionDeleteJob tr r dd).jobs ↔ j ∈ tr.jobs ∧ j.ref ≠ r := by
  have deleted := deleteJob_deleted tr r dd
  constructor
  · exact fun kept => ⟨deleted.jobs_sub.subset kept, deleted.gone j kept⟩
  · rintro ⟨member, ne⟩
    by_contra gone
    rcases deleted.only j member gone with same | ⟨on, chain⟩
    · exact ne same
    · rcases alone with off | unneeded
      · simp [off] at on
      · rcases ReflTransGen.cases_tail chain with same | ⟨x, -, l, hl, -, -, object⟩
        · exact ne same.symm
        · exact unneeded l hl object

theorem Deleted.length_lt (deleted : Deleted dd r tr tr') {j : Job U} (member : j ∈ tr.jobs)
    (same : j.ref = r) : tr'.jobs.length < tr.jobs.length := by
  refine lt_of_le_of_ne deleted.jobs_sub.length_le fun equal => ?_
  have := deleted.jobs_sub.eq_of_length equal
  rw [← this] at member
  exact deleted.gone j member same

/-- A transaction stays well formed while its anchor job stays. -/
theorem Deleted.wf {m : Manager U} (deleted : Deleted dd r tr tr') (wf : tr.Wf m)
    (anchor : ∃ j ∈ tr'.jobs, tr'.anchorJob = some j.ref) : tr'.Wf m := by
  refine ⟨wf.unique.sublist (deleted.jobs_sub.map Job.ref),
    fun j hj => wf.fresh j (deleted.jobs_sub.subset hj), fun l hl => ⟨?_, ?_⟩, anchor,
    fun j hj => wf.installable j (deleted.jobs_sub.subset hj)⟩
  · by_contra none
    push Not at none
    have dead := (deleted.subjects l hl).2 fun j hj => none j hj
    obtain ⟨j, hj, same⟩ := (wf.links l (deleted.links_sub.subset hl)).1
    exact dead j hj same
  · by_contra none
    push Not at none
    have dead := deleted.objects l hl (deleted.unlinked l hl) fun j hj => none j hj
    obtain ⟨j, hj, same⟩ := (wf.links l (deleted.links_sub.subset hl)).2
    exact dead j hj same

end Deletion

end SystemdPort.Core
