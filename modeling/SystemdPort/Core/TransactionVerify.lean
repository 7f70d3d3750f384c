/-
# Core.TransactionVerify — the marks of the search for ordering cycles

`transaction_verify_order_one()` with the two fields it leaves in the jobs it walks over: the
`generation` of the sweep that saw a job last, and the `marker` that leads back the way it
came.  Both outlive a sweep: the next one finds them as they were left, and tells its own from
old ones by the generation alone.

`Shows` says which visited jobs and which path the marks of a sweep stand for.  It is kept by
every step (`one_follows`), so the sweep does what `Lib.dfs` does with these two lists, and what
is known of that search holds for it (`verifyOrder_follows`).
-/
import SystemdPort.Core.TransactionOrder

namespace SystemdPort.Core

open Lib Relation Function List

set_option autoImplicit false
set_option linter.unusedSectionVars false

variable {U : Type} [DecidableEq U]

/-- The fields `generation` and `marker` of the jobs, by reference. -/
structure Marks (U : Type) where
  generation : Nat → Nat
  marker : Nat → Option (Job U)

/-- Why `transaction_verify_order()` does not return 0. -/
inductive VerifyStop (U : Type) where
  /-- All jobs of this unit are deleted to break a cycle, and `-EAGAIN` is returned. -/
  | again (u : U)
  /-- `BUS_ERROR_TRANSACTION_ORDER_IS_CYCLIC` -/
  | cyclic
  | fuel

abbrev VerifyM (U : Type) := EStateM (VerifyStop U) (Marks U)

namespace Marks

/-- The job is on the path now, and `from_` is where we come from. -/
def enter (s : Marks U) (g : Nat) (j : Job U) (from_ : Option (Job U)) : Marks U where
  generation := update s.generation j.ref g
  marker := update s.marker j.ref (some (from_.getD j))

/-- The job is not on the path anymore. -/
def leave (s : Marks U) (j : Job U) : Marks U :=
  { s with marker := update s.marker j.ref none }

/-- The loop that goes backwards from `from_` until it is at `j`. -/
def walkBack (s : Marks U) (g : Nat) (j : Job U) : Nat → Option (Job U) → List (Job U)
  | n + 1, some k =>
    if k.ref = j.ref then [k]
    else if s.generation k.ref = g ∧ (s.marker k.ref).map Job.ref ≠ some k.ref then
      k :: s.walkBack g j n (s.marker k.ref)
    else [k]
  | _, _ => []

end Marks

/-- What becomes of a cycle: the first job on the way back that may go, goes. -/
def breakCycle (tr : Transaction U) (nodes : List (Job U)) : VerifyStop U :=
  match cycleVictim tr nodes with
  | some k => .again k.unit
  | none => .cyclic

/-- `transaction_verify_order_one()`, `n` levels deep; `limit` bounds the way back. -/
def verifyOrderOne (m : Manager U) (units : Units U) (tr : Transaction U) (g limit : Nat) :
    Nat → Job U → Option (Job U) → VerifyM U Unit
  | 0, _, _ => throw .fuel
  | n + 1, j, from_ => do
      let s ← get
      if s.generation j.ref = g then
        if (s.marker j.ref).isNone then return ()
        else throw (breakCycle tr (s.walkBack g j limit from_))
      else
        modify (·.enter g j from_)
        (laterJobs m units tr j).forM fun o => verifyOrderOne m units tr g limit n o (some j)
        modify (·.leave j)

/-- More levels than there are jobs to walk over. -/
def levels (m : Manager U) (tr : Transaction U) : Nat := tr.jobs.length + m.heap.length + 1

/-- `transaction_verify_order()` of generation `g`. -/
def verifyOrder (order : HashOrder U) (m : Manager U) (units : Units U) (tr : Transaction U) (g : Nat) :
    VerifyM U Unit :=
  (tr.heads order).forM fun j => verifyOrderOne m units tr g (levels m tr) (levels m tr) j none

/-! ## What the marks stand for -/

/-- The job that is looked at for its unit. -/
def Vertex (m : Manager U) (tr : Transaction U) (x : Job U) : Prop := orderJob m tr x.unit = some x

/-- References tell the jobs of the transaction from each other and from those of the manager. -/
structure Apart (m : Manager U) (tr : Transaction U) : Prop where
  unique : Keyed.Unique Job.ref tr.jobs
  fresh : ∀ j ∈ tr.jobs, m.find j.ref = none

theorem Apart.eq {m : Manager U} {tr : Transaction U} (apart : Apart m tr) {x y : Job U}
    (hx : Vertex m tr x) (hy : Vertex m tr y) (same : x.ref = y.ref) : x = y := by
  rcases Option.or_eq_some_iff.mp hx with head | ⟨-, installed⟩
  · have member := (mem_of_head head).1
    rcases Option.or_eq_some_iff.mp hy with head' | ⟨-, installed'⟩
    · exact apart.unique.eq member (mem_of_head head').1 same
    · have found := find_of_jobOf installed'
      rw [← same, apart.fresh x member] at found
      cases found
  · have found := find_of_jobOf installed
    rcases Option.or_eq_some_iff.mp hy with head' | ⟨-, installed'⟩
    · rw [same, apart.fresh y (mem_of_head head').1] at found
      cases found
    · have found' := find_of_jobOf installed'
      rw [← same, found] at found'
      exact Option.some.inj found'

/-- Each job of the path points to the one before it, the first one to itself. -/
def LeadsBack (s : Marks U) : List (Job U) → Prop
  | [] => True
  | [x] => s.marker x.ref = some x
  | x :: y :: rest => s.marker x.ref = some y ∧ LeadsBack s (y :: rest)

/-- In sweep `g`, the marks show these jobs as visited, and this path. -/
structure Shows (m : Manager U) (tr : Transaction U) (g : Nat) (path visited : List (Job U))
    (s : Marks U) : Prop where
  seen : ∀ x, Vertex m tr x → (s.generation x.ref = g ↔ x ∈ visited)
  marked : ∀ x ∈ visited, ((s.marker x.ref).isSome ↔ x ∈ path)
  back : LeadsBack s path
  vertices : ∀ x ∈ visited, Vertex m tr x
  path_sub : path ⊆ visited
  nodup : path.Nodup
  bound : ∀ r, s.generation r ≤ g

section Follows

variable {m : Manager U} {units : Units U} {tr : Transaction U} {g : Nat} {path visited : List (Job U)}
  {s : Marks U}

theorem LeadsBack.congr {s' : Marks U} (same : ∀ x ∈ path, s'.marker x.ref = s.marker x.ref)
    (back : LeadsBack s path) : LeadsBack s' path := by
  induction path with
  | nil => trivial
  | cons x rest ih =>
    cases rest with
    | nil =>
      rwa [LeadsBack, same x (by simp)]
    | cons y rest =>
      refine ⟨?_, ih (fun z hz => same z (mem_cons_of_mem x hz)) back.2⟩
      rw [same x (by simp)]
      exact back.1

variable {x : Job U} {limit : Nat}

theorem Shows.enter (apart : Apart m tr) (shows : Shows m tr g path visited s) (hx : Vertex m tr x)
    (fresh : x ∉ visited) : Shows m tr g (x :: path) (x :: visited) (s.enter g x path.head?) := by
  have other : ∀ y ∈ visited, y.ref ≠ x.ref := by
    intro y hy same
    rw [apart.eq (shows.vertices y hy) hx same] at hy
    exact fresh hy
  have marker : ∀ y ∈ visited, (s.enter g x path.head?).marker y.ref = s.marker y.ref := fun y hy =>
    update_of_ne (other y hy) _ _
  have here : (s.enter g x path.head?).marker x.ref = some (path.head?.getD x) := update_self _ _ _
  refine ⟨?_, ?_, ?_, ?_, cons_subset_cons x shows.path_sub, ?_, ?_⟩
  · intro y hy
    by_cases same : y = x
    · subst same
      simp [Marks.enter]
    · have apart' : y.ref ≠ x.ref := fun ref => same (apart.eq hy hx ref)
      simp only [Marks.enter, update_of_ne apart', mem_cons, same, false_or]
      exact shows.seen y hy
  · intro y hy
    rcases mem_cons.mp hy with rfl | hy
    · rw [here]
      simp
    · have ne : y ≠ x := fun same => fresh (same ▸ hy)
      rw [marker y hy, shows.marked y hy]
      simp [ne]
  · have old : LeadsBack (s.enter g x path.head?) path := shows.back.congr fun y hy => marker y (shows.path_sub hy)
    cases path with
    | nil => exact here
    | cons y rest => exact ⟨here, old⟩
  · exact forall_mem_cons.mpr ⟨hx, shows.vertices⟩
  · exact nodup_cons.mpr ⟨fun inside => fresh (shows.path_sub inside), shows.nodup⟩
  · intro r
    by_cases same : r = x.ref
    · simp [Marks.enter, same]
    · simpa [Marks.enter, update_of_ne same] using shows.bound r

theorem Shows.leave (apart : Apart m tr) (shows : Shows m tr g (x :: path) visited s) :
    Shows m tr g path visited (s.leave x) := by
  obtain ⟨off, nodup⟩ := nodup_cons.mp shows.nodup
  have hx : x ∈ visited := shows.path_sub (by simp)
  have other : ∀ y ∈ visited, y ≠ x → (s.leave x).marker y.ref = s.marker y.ref := by
    intro y hy ne
    refine update_of_ne ?_ _ _
    exact fun same => ne (apart.eq (shows.vertices y hy) (shows.vertices x hx) same)
  have sub : path ⊆ visited := fun y hy => shows.path_sub (mem_cons_of_mem x hy)
  refine ⟨shows.seen, ?_, ?_, shows.vertices, sub, nodup, shows.bound⟩
  · intro y hy
    by_cases same : y = x
    · subst same
      simp [Marks.leave, off]
    · rw [other y hy same, shows.marked y hy]
      simp [same]
  · have old : LeadsBack s path := by
      cases path with
      | nil => trivial
      | cons y rest => exact shows.back.2
    refine old.congr fun y hy => other y (sub hy) ?_
    rintro rfl
    exact off hy

/-- The way back along the markers is the path. -/
theorem Shows.walkBack (apart : Apart m tr) (shows : Shows m tr g path visited s)
    (inside : x ∈ path) (enough : path.length ≤ limit) : s.walkBack g x limit path.head? = backTo x path := by
  have hx : Vertex m tr x := shows.vertices x (shows.path_sub inside)
  suffices walk : ∀ (l : List (Job U)) (limit : Nat), l ⊆ path → l.Nodup → LeadsBack s l → x ∈ l →
      l.length ≤ limit → s.walkBack g x limit l.head? = backTo x l by
    exact walk path limit (List.Subset.refl _) shows.nodup shows.back inside enough
  intro l
  induction l with
  | nil => simp
  | cons y rest ih =>
    intro limit sub nodup back hxl enough
    obtain ⟨n, rfl⟩ : ∃ n, limit = n + 1 := ⟨limit - 1, by simp at enough; omega⟩
    have hy : Vertex m tr y := shows.vertices y (shows.path_sub (sub (by simp)))
    have refs : y.ref = x.ref ↔ y = x := ⟨apart.eq hy hx, fun same => by rw [same]⟩
    rw [head?_cons, Marks.walkBack, backTo]
    by_cases same : y = x
    · rw [if_pos (refs.mpr same), if_pos same]
    rw [if_neg (refs.not.mpr same), if_neg same]
    have later : x ∈ rest := by
      rcases mem_cons.mp hxl with rfl | later
      · exact absurd rfl same
      · exact later
    cases rest with
    | nil => cases later
    | cons z rest =>
      have hz : z ∈ path := sub (by simp)
      have ne : z.ref ≠ y.ref := by
        intro ref
        have := apart.eq (shows.vertices z (shows.path_sub hz)) hy ref
        rw [this] at nodup
        simp at nodup
      have marked : s.generation y.ref = g := (shows.seen y hy).mpr (shows.path_sub (sub (by simp)))
      rw [if_pos ⟨marked, by rw [back.1]; simpa using ne⟩, back.1]
      rw [← ih n (fun w hw => sub (mem_cons_of_mem y hw)) (nodup_cons.mp nodup).2 back.2 later
        (by simp at enough ⊢; omega)]
      rfl

/-- What the sweep returns where the search stops. -/
def stopOf (tr : Transaction U) : Stop (Job U) → VerifyStop U
  | .cycle nodes => breakCycle tr nodes
  | .fuel => .fuel

/-- The sweep ends as the search does, with marks that show what it visited. -/
def Ends (m : Manager U) (tr : Transaction U) (g : Nat) (path : List (Job U))
    (search : Except (Stop (Job U)) (List (Job U))) (sweep : EStateM.Result (VerifyStop U) (Marks U) Unit) : Prop :=
  match search with
  | .ok visited => ∃ s, sweep = .ok () s ∧ Shows m tr g path visited s
  | .error e => ∃ s, sweep = .error (stopOf tr e) s ∧ ∀ r, s.generation r ≤ g

theorem list_follows (search : List (Job U) → Job U → Except (Stop (Job U)) (List (Job U)))
    (one : Job U → VerifyM U Unit) {l : List (Job U)} (step : ∀ y ∈ l, ∀ visited s, Shows m tr g path visited s →
      Ends m tr g path (search visited y) (one y s))
    (shows : Shows m tr g path visited s) : Ends m tr g path (l.foldlM search visited) (l.forM one s) := by
  induction l generalizing visited s with
  | nil => exact ⟨s, rfl, shows⟩
  | cons y ys ih =>
    have here := step y (by simp) visited s shows
    rw [foldlM_cons, List.forM, Exec.bind_apply]
    cases found : search visited y with
    | ok v =>
      rw [found] at here
      obtain ⟨s', ran, shows'⟩ := here
      rw [ran]
      exact ih (fun z hz => step z (mem_cons_of_mem y hz)) shows'
    | error e =>
      rw [found] at here
      obtain ⟨s', ran, bound⟩ := here
      rw [ran]
      exact ⟨s', rfl, bound⟩

/-- One call of the sweep follows the search. -/
theorem one_follows (apart : Apart m tr) (own : m.OwnJobs) (n : Nat) (hx : Vertex m tr x)
    (shows : Shows m tr g path visited s) (enough : path.length + n ≤ limit) :
    Ends m tr g path (dfs (laterJobs m units tr) n path visited x)
      (verifyOrderOne m units tr g limit n x path.head? s) := by
  induction n generalizing path visited s x with
  | zero => exact ⟨s, rfl, shows.bound⟩
  | succ n ih =>
    rw [dfs, verifyOrderOne, Exec.get_bind]
    by_cases seen : x ∈ visited
    · rw [if_pos seen, if_pos ((shows.seen x hx).mpr seen)]
      by_cases inside : x ∈ path
      · have marker := (shows.marked x seen).mpr inside
        rw [if_pos inside, if_neg (by simp [Option.isSome_iff_ne_none.mp marker]),
          shows.walkBack apart inside (by omega)]
        exact ⟨s, rfl, shows.bound⟩
      · have marker := (shows.marked x seen).not.mpr inside
        rw [if_neg inside, if_pos (by simpa using marker)]
        exact ⟨s, rfl, shows⟩
    · rw [if_neg seen, if_neg ((shows.seen x hx).not.mpr seen), Exec.modify_bind]
      have below := list_follows (dfs (laterJobs m units tr) n (x :: path))
        (fun o => verifyOrderOne m units tr g limit n o (some x)) (l := laterJobs m units tr x)
        (fun o later v s' shows' =>
          ih ((mem_laterJobs_iff own).mp later).1 shows' (by rw [length_cons]; omega))
        (shows.enter apart hx seen)
      rw [Exec.bind_apply]
      cases found : (laterJobs m units tr x).foldlM (dfs (laterJobs m units tr) n (x :: path))
          (x :: visited) with
      | ok v =>
        rw [found] at below
        obtain ⟨s', ran, shows'⟩ := below
        rw [ran]
        exact ⟨s'.leave x, rfl, shows'.leave apart⟩
      | error e =>
        rw [found] at below
        obtain ⟨s', ran, bound⟩ := below
        rw [ran]
        exact ⟨s', rfl, bound⟩

/-- A sweep that finds no marks of its own generation does what the search does. -/
theorem verifyOrder_follows (order : HashOrder U) (units : Units U) (apart : Apart m tr) (own : m.OwnJobs)
    (fresh : ∀ r, s.generation r < g) :
    Ends m tr g [] (searchOrder order m units tr) (verifyOrder order m units tr g s) := by
  have start : Shows m tr g [] [] s :=
    ⟨fun x _ => by simpa using (fresh x.ref).ne, by simp, trivial, by simp, by simp, nodup_nil, fun r => (fresh r).le⟩
  refine list_follows _ _ ?_ start
  intro j hj visited s' shows
  refine one_follows apart own (levels m tr) ?_ shows (by simp)
  exact Option.or_eq_some_iff.mpr (.inl (mem_heads.mp hj).2)

end Follows

/-! ## Rounds -/

/-- What `transaction_activate()` has between two rounds of its loop. -/
structure VerifyState (U : Type) where
  tr : Transaction U
  marks : Marks U
  generation : Nat

inductive RoundResult (U : Type) where
  | verified (tr : Transaction U)
  | again (st : VerifyState U)
  | failed (e : ActivateError)

section Rounds

variable (order : HashOrder U) (m : Manager U) (units : Units U) (mode : JobMode)

/-- A round of the loop: garbage is collected, and the order verified. -/
def verifyRound (st : VerifyState U) : RoundResult U :=
  let tr := collectUnlessIsolate order mode st.tr
  match verifyOrder order m units tr st.generation st.marks with
  | .ok _ _ => .verified tr
  | .error (.again u) s => .again ⟨transactionDeleteUnit tr u, s, st.generation + 1⟩
  | .error .cyclic _ => .failed .orderIsCyclic
  -- never reached, see `verifyRound_ne_assertion`
  | .error .fuel _ => .failed .assertion

/-- A round that returns `-EAGAIN`. -/
def Again (st st' : VerifyState U) : Prop := verifyRound order m units mode st = .again st'

/-- The loop, from a state on to how it ends. -/
inductive VerifyLoop : VerifyState U → Except ActivateError (Transaction U) → Prop
  | verified {st : VerifyState U} {tr : Transaction U}
      (round : verifyRound order m units mode st = .verified tr) : VerifyLoop st (.ok tr)
  | failed {st : VerifyState U} {e : ActivateError}
      (round : verifyRound order m units mode st = .failed e) : VerifyLoop st (.error e)
  | again {st st' : VerifyState U} {result : Except ActivateError (Transaction U)}
      (round : verifyRound order m units mode st = .again st') (rest : VerifyLoop st' result) :
      VerifyLoop st result

/-- The state that the loop starts in.  The generations of the installed jobs were reset, the
sweep over what matters to the anchor was the first one; markers are where earlier sweeps left
them. -/
def VerifyState.start (tr : Transaction U) (swept : List Nat) (marker : Nat → Option (Job U)) : VerifyState U where
  tr := tr
  marks := ⟨fun r => if r ∈ swept then 1 else 0, marker⟩
  generation := 2

/-- Between rounds: references are distinct, and no job has the generation to come. -/
structure VerifyState.Good (m : Manager U) (st : VerifyState U) : Prop where
  apart : Apart m st.tr
  fresh : ∀ r, st.marks.generation r < st.generation

/-- Jobs of two units, one of them before the other by `job_compare()`. -/
def OrderEdge (units : Units U) (tr : Transaction U) (a b : Job U) : Prop :=
  Vertex m tr a ∧ Vertex m tr b ∧ ∃ d : OrderAtom,
    (b.unit ∈ units.dependencies d.atom a.unit ∧ jobCompare a b d < 0) ∨
      (a.unit ∈ units.dependencies d.atom b.unit ∧ 0 < jobCompare b a d)

/-- All jobs of a unit that does not matter to the anchor are gone. -/
def UnitRemoved (tr tr' : Transaction U) : Prop :=
  tr'.jobs.Sublist tr.jobs ∧ ∃ u, (∃ j ∈ tr.jobs, j.unit = u) ∧ unitMattersToAnchor tr u = false ∧
    ∀ j ∈ tr'.jobs, j.unit ≠ u

end Rounds

section Loop

variable {order : HashOrder U} {m : Manager U} {units : Units U} {mode : JobMode} {tr : Transaction U}
  {st st' : VerifyState U}

variable {tr' : Transaction U} {g : Nat} {s s' : Marks U}

theorem Apart.sublist (apart : Apart m tr) (sub : tr'.jobs.Sublist tr.jobs) : Apart m tr' :=
  ⟨apart.unique.sublist (sub.map Job.ref), fun j hj => apart.fresh j (sub.subset hj)⟩

theorem collected_sublist (order : HashOrder U) (mode : JobMode) (tr : Transaction U) :
    (collectUnlessIsolate order mode tr).jobs.Sublist tr.jobs := by
  have run : Run order (fun _ => .inactive) {} ⟨fun _ _ => [], by simp⟩ tr (collectUnlessIsolate order mode tr) :=
    collectUnlessIsolate_run
  exact run.drops.sublist

theorem OrderEdge.later (own : m.OwnJobs) {a b : Job U} (edge : OrderEdge m units tr a b) :
    Edge (laterJobs m units tr) a b := by
  obtain ⟨-, hb, d, order⟩ := edge
  refine (mem_laterJobs_iff own).mpr ⟨hb, ?_⟩
  rcases order with ⟨linked, first⟩ | ⟨linked, later⟩
  · cases d with
    | before => exact .inl ⟨linked, first⟩
    | after => exact .inr ⟨linked, first⟩
  · exact precedes_of_compare_pos units d linked later

/-- A sweep succeeds as the search does, or breaks a cycle. -/
theorem verifyOrder_cases (own : m.OwnJobs) (apart : Apart m tr) (fresh : ∀ r, s.generation r < g) :
    (∃ v s', searchOrder order m units tr = .ok v ∧ verifyOrder order m units tr g s = .ok () s') ∨
      ∃ nodes s', verifyOrder order m units tr g s = .error (breakCycle tr nodes) s' ∧ ∀ r, s'.generation r ≤ g := by
  have follows := verifyOrder_follows order units apart own fresh
  cases searched : searchOrder order m units tr with
  | ok v =>
    rw [searched] at follows
    obtain ⟨s', ran, -⟩ := follows
    exact .inl ⟨v, s', rfl, ran⟩
  | error e =>
    rw [searched] at follows
    obtain ⟨s', ran, bound⟩ := follows
    cases e with
    | fuel => exact absurd searched (searchOrder_ne_fuel own)
    | cycle nodes => exact .inr ⟨nodes, s', ran, bound⟩

/-- When the order is verified, no cycle can be reached from a job of the transaction. -/
theorem verified_acyclic (own : m.OwnJobs) (apart : Apart m tr) (fresh : ∀ r, s.generation r < g)
    (run : verifyOrder order m units tr g s = .ok () s') {r x : Job U} (root : tr.head r.unit = some r)
    (reach : ReflTransGen (OrderEdge m units tr) r x) : ¬ TransGen (OrderEdge m units tr) x x := by
  rcases verifyOrder_cases own apart fresh with ⟨v, _, searched, -⟩ | ⟨_, _, ran, -⟩
  · have root' : r ∈ tr.heads order := mem_heads.mpr ⟨(mem_of_head root).1, root⟩
    intro cycle
    have later : ∀ a b, OrderEdge m units tr a b → Edge (laterJobs m units tr) a b := fun a b edge => edge.later own
    exact dfs_acyclic searched root' (reach.lift id later) (cycle.lift id later)
  · cases run.symm.trans ran

/-- A unit that is deleted to break a cycle has a job and does not matter. -/
theorem removed_of_again (own : m.OwnJobs) (apart : Apart m tr) {u : U} (fresh : ∀ r, s.generation r < g)
    (run : verifyOrder order m units tr g s = .error (.again u) s') :
    UnitRemoved tr (transactionDeleteUnit tr u) ∧ ∀ r, s'.generation r ≤ g := by
  rcases verifyOrder_cases own apart fresh with ⟨_, _, -, ran⟩ | ⟨nodes, s'', ran, bound⟩
  · cases run.symm.trans ran
  · obtain ⟨why, rfl⟩ := EStateM.Result.error.inj (run.symm.trans ran)
    refine ⟨?_, bound⟩
    unfold breakCycle at why
    split at why
    · rename_i k victim
      cases why
      have chosen := find?_some victim
      simp only [Bool.and_eq_true, Bool.not_eq_true'] at chosen
      obtain ⟨h, head⟩ := Option.isSome_iff_exists.mp chosen.1
      obtain ⟨steps, gone⟩ : ReflTransGen (fun a b => Drop (fun _ => .inactive) m a _ b) tr _ ∧ _ :=
        deleteUnit_drops chosen.2
      have drops : Drops (fun _ => .inactive) m tr _ := ReflTransGen.mono (fun _ _ drop => ⟨_, drop⟩) _ _ steps
      refine ⟨drops.sublist, k.unit, ⟨h, mem_of_head head⟩, chosen.2, ?_⟩
      intro j hj unit
      obtain ⟨h', head'⟩ := exists_head hj
      rw [unit, gone] at head'
      cases head'
    · cases why

theorem UnitRemoved.length_lt (removed : UnitRemoved tr tr') : tr'.jobs.length < tr.jobs.length := by
  obtain ⟨sub, u, ⟨j, hj, unit⟩, -, gone⟩ := removed
  refine lt_of_le_of_ne sub.length_le ?_
  intro equal
  rw [← sub.eq_of_length equal] at hj
  exact gone j hj unit

theorem again_good (own : m.OwnJobs) (good : st.Good m) (again : Again order m units mode st st') :
    st'.Good m ∧ UnitRemoved (collectUnlessIsolate order mode st.tr) st'.tr := by
  have apart := good.apart.sublist (collected_sublist order mode st.tr)
  rw [Again, verifyRound] at again
  split at again
  · cases again
  · rename_i u s run
    cases again
    obtain ⟨removed, bound⟩ := removed_of_again own apart good.fresh run
    exact ⟨⟨apart.sublist removed.1, fun r => Nat.lt_succ_of_le (bound r)⟩, removed⟩
  · cases again
  · cases again

theorem verifyRound_ne_assertion (own : m.OwnJobs) (good : st.Good m) :
    verifyRound order m units mode st ≠ .failed .assertion := by
  have apart := good.apart.sublist (collected_sublist order mode st.tr)
  rw [verifyRound]
  rcases verifyOrder_cases own apart good.fresh with ⟨_, _, -, ran⟩ | ⟨nodes, _, ran, -⟩
  · rw [ran]
    simp
  · rw [ran, breakCycle]
    cases cycleVictim _ nodes <;> simp

theorem loop_ends (own : m.OwnJobs) (good : st.Good m) :
    ∃ result, VerifyLoop order m units mode st result ∧ result ≠ .error .assertion := by
  induction size : st.tr.jobs.length using Nat.strong_induction_on generalizing st with
  | _ n ih =>
    cases round : verifyRound order m units mode st with
    | verified tr => exact ⟨.ok tr, .verified round, by simp⟩
    | failed e =>
      refine ⟨.error e, .failed round, ?_⟩
      rintro same
      cases same
      exact verifyRound_ne_assertion own good round
    | again st' =>
      obtain ⟨good', removed⟩ := again_good own good round
      have fewer := removed.length_lt
      have collected := (collected_sublist order mode st.tr).length_le
      obtain ⟨result, rest, fine⟩ := ih _ (by omega) good' rfl
      exact ⟨result, .again round rest, fine⟩

theorem start_good (apart : Apart m tr) (swept : List Nat) (marker : Nat → Option (Job U)) :
    (VerifyState.start tr swept marker).Good m := by
  refine ⟨apart, ?_⟩
  intro r
  dsimp only [VerifyState.start]
  split <;> omega

theorem good_of_reached (own : m.OwnJobs) (good : st.Good m)
    (reached : ReflTransGen (Again order m units mode) st st') : st'.Good m := by
  induction reached with
  | refl => exact good
  | tail _ round ih => exact (again_good own ih round).1

end Loop

/-- In every round of `transaction_activate()`: a verified order has no cycle among the jobs, and if the
round is repeated, all jobs of a unit that does not matter to the anchor are gone.  And the loop ends. -/
theorem verify_order_sound (order : HashOrder U) (m : Manager U) (units : Units U) (mode : JobMode)
    (tr : Transaction U) (swept : List Nat) (marker : Nat → Option (Job U)) (own : m.OwnJobs)
    (apart : Apart m tr) :
    (∀ st, ReflTransGen (Again order m units mode) (.start tr swept marker) st →
      let now := collectUnlessIsolate order mode st.tr
      (∀ s, verifyOrder order m units now st.generation st.marks = .ok () s →
        ∀ r x, now.head r.unit = some r → ReflTransGen (OrderEdge m units now) r x →
          ¬ TransGen (OrderEdge m units now) x x) ∧
      ∀ st', Again order m units mode st st' → UnitRemoved now st'.tr) ∧
    ∃ result, VerifyLoop order m units mode (.start tr swept marker) result ∧
      result ≠ .error .assertion := by
  have start := start_good apart swept marker
  refine ⟨?_, loop_ends own start⟩
  intro st reached now
  have good := good_of_reached own start reached
  refine ⟨?_, fun st' round => (again_good own good round).2⟩
  intro s run r x root reach
  exact verified_acyclic own (good.apart.sublist (collected_sublist order mode st.tr)) good.fresh run root reach

/-- The start of `b` wants that of `a`, and each is ordered before the other. -/
def pairJobs : Transaction PairUnit where
  jobs := [⟨0, 0, .a, .start, .waiting, false, false, false, false⟩,
    ⟨1, 1, .b, .start, .waiting, false, false, false, true⟩]
  links := [⟨1, 0, false, false⟩]
  anchorJob := some 1

theorem verify_order_sound_pair :
    (∃ st, Again HashOrder.newestFirst {} restartPair.units .replace (.start pairJobs [] fun _ => none) st ∧
      UnitRemoved (collectUnlessIsolate .newestFirst .replace pairJobs) st.tr) ∧
    ∃ result, VerifyLoop HashOrder.newestFirst {} restartPair.units .replace
      (.start pairJobs [] fun _ => none) result ∧ result ≠ .error .assertion := by
  have sound := verify_order_sound HashOrder.newestFirst {} restartPair.units .replace pairJobs [] (fun _ => none)
    Manager.Wf.empty.ownJobs ⟨by unfold Keyed.Unique; decide, fun _ _ => rfl⟩
  have round : Again HashOrder.newestFirst {} restartPair.units .replace (.start pairJobs [] fun _ => none) _ := rfl
  exact ⟨⟨_, round, (sound.1 _ .refl).2 _ round⟩, sound.2⟩

end SystemdPort.Core
