/-
# Lib.Dfs — depth-first sweeps with marks

`sweep` marks what can be reached from a node; `dfs` walks the same way, keeps
the path it came by and stops when it meets a node of that path again.  Marks are
the list of nodes visited so far.

`mem_sweep_iff` says that a sweep from an empty list marks exactly the reachable
nodes.  `dfs_acyclic` says that a search that ends without stopping has seen no
node on a cycle, and `dfs_ne_fuel` that the depth bound is never what stops it.
-/
import Mathlib.Tactic

namespace SystemdPort.Lib

open Relation List

set_option autoImplicit false

variable {α : Type} [DecidableEq α] (succ : α → List α)

/-- The edge relation of a successor function. -/
def Edge (x y : α) : Prop := y ∈ succ x

/-- Marks `x` and everything below it that is not marked, `n` levels deep. -/
def sweep : Nat → List α → α → List α
  | 0, visited, _ => visited
  | n + 1, visited, x =>
    (succ x).foldl (fun v y => if y ∈ v then v else sweep n v y) (x :: visited)

/-- Why a search stopped. -/
inductive Stop (α : Type) where
  /-- A node of the path was met again; the nodes from the end of the path back to it. -/
  | cycle (nodes : List α)
  | fuel

/-- The part of a path from its end back to `x`. -/
def backTo (x : α) : List α → List α
  | [] => []
  | y :: ys => if y = x then [y] else y :: backTo x ys

/-- Searches from `x`, which the path leads to, `n` levels deep. -/
def dfs : Nat → List α → List α → α → Except (Stop α) (List α)
  | 0, _, _, _ => .error .fuel
  | n + 1, path, visited, x =>
    if x ∈ visited then
      if x ∈ path then .error (.cycle (backTo x path)) else .ok visited
    else (succ x).foldlM (dfs n (x :: path)) (x :: visited)

variable {succ}

/-! ## Counting what is left -/

/-- The nodes not visited yet. -/
def left (nodes visited : List α) : Nat := (nodes.filter (· ∉ visited)).length

variable {nodes : List α} (n : Nat) (path visited : List α) (x : α) (v : List α)

theorem left_anti {v w : List α} (sub : v ⊆ w) : left nodes w ≤ left nodes v := by
  apply List.Sublist.length_le
  apply monotone_filter_right
  intro x
  simp only [decide_eq_true_eq]
  exact fun out inside => out (sub inside)

theorem left_cons_lt {visited : List α} {x : α} (node : x ∈ nodes) (fresh : x ∉ visited) :
    left nodes (x :: visited) < left nodes visited := by
  have sub : (nodes.filter (· ∉ x :: visited)).Sublist (nodes.filter (· ∉ visited)) := by
    apply monotone_filter_right
    intro y
    simp only [decide_eq_true_eq, mem_cons, not_or]
    exact And.right
  refine lt_of_le_of_ne sub.length_le fun same => ?_
  have equal := sub.eq_of_length same
  have member : x ∈ nodes.filter (· ∉ visited) := by simp [node, fresh]
  rw [← equal] at member
  simp at member

/-! ## Sweeps -/

theorem subset_sweep : visited ⊆ sweep succ n visited x := by
  induction n generalizing visited x with
  | zero => exact List.Subset.refl _
  | succ n ih =>
    refine foldlRecOn (motive := fun v => visited ⊆ v) (succ x) _ (subset_cons_self x visited) fun v sub y _ => ?_
    split
    · exact sub
    · exact List.Subset.trans sub (ih v y)

/-- What a sweep adds is reachable from where it starts. -/
theorem sweep_reachable (y : α) (marked : y ∈ sweep succ n visited x) :
    y ∈ visited ∨ ReflTransGen (Edge succ) x y := by
  induction n generalizing visited x y with
  | zero => exact Or.inl marked
  | succ n ih =>
    refine foldlRecOn (motive := fun v => ∀ y ∈ v, y ∈ visited ∨ ReflTransGen (Edge succ) x y) (succ x) _ ?_ ?_ y marked
    · intro y member
      rcases mem_cons.mp member with rfl | old
      · exact Or.inr .refl
      · exact Or.inl old
    · intro v reached z edge y member
      split at member
      · exact reached y member
      · rcases ih v z y member with old | reach
        · exact reached y old
        · exact Or.inr (.head edge reach)

/-- A sweep deep enough leaves no marked node with an unmarked successor, except
among those that were marked before. -/
theorem sweep_closed (closed : ∀ x ∈ nodes, ∀ y ∈ succ x, y ∈ nodes) (n : Nat) (visited : List α) (x : α)
    (node : x ∈ nodes) (fresh : x ∉ visited) (enough : left nodes visited ≤ n) :
    x ∈ sweep succ n visited x ∧ ∀ y ∈ sweep succ n visited x, y ∉ visited →
      ∀ z ∈ succ y, z ∈ sweep succ n visited x := by
  induction n generalizing visited x with
  | zero =>
    have := left_cons_lt node fresh
    omega
  | succ n ih =>
    have fold : ∀ (l v : List α), (∀ z ∈ l, z ∈ nodes) → left nodes v ≤ n →
        let v' := l.foldl (fun v y => if y ∈ v then v else sweep succ n v y) v
        v ⊆ v' ∧ (∀ z ∈ l, z ∈ v') ∧ ∀ y ∈ v', y ∉ v → ∀ z ∈ succ y, z ∈ v' := by
      intro l
      induction l with
      | nil => exact fun v _ _ => ⟨List.Subset.refl v, by simp, fun y hy out => absurd hy out⟩
      | cons w ws inner =>
        intro v inside bound
        set v₁ := if w ∈ v then v else sweep succ n v w with hv₁
        have first : v ⊆ v₁ ∧ w ∈ v₁ ∧ ∀ y ∈ v₁, y ∉ v → ∀ z ∈ succ y, z ∈ v₁ := by
          by_cases seen : w ∈ v
          · rw [hv₁, if_pos seen]
            exact ⟨List.Subset.refl v, seen, fun y hy out => absurd hy out⟩
          · rw [hv₁, if_neg seen]
            obtain ⟨here, below⟩ := ih v w (inside w (by simp)) seen bound
            exact ⟨subset_sweep n v w, here, below⟩
        have bound₁ : left nodes v₁ ≤ n := le_trans (left_anti first.1) bound
        obtain ⟨sub, all, below⟩ := inner v₁ (fun z hz => inside z (by simp [hz])) bound₁
        refine ⟨List.Subset.trans first.1 sub, forall_mem_cons.mpr ⟨sub first.2.1, all⟩, fun y hy out z hz => ?_⟩
        by_cases early : y ∈ v₁
        · exact sub (first.2.2 y early out z hz)
        · exact below y hy early z hz
    have bound : left nodes (x :: visited) ≤ n := by
      have := left_cons_lt node fresh
      omega
    obtain ⟨sub, all, below⟩ := fold (succ x) (x :: visited) (closed x node) bound
    refine ⟨sub (by simp), fun y hy out z hz => ?_⟩
    by_cases same : y = x
    · subst same
      exact all z hz
    · exact below y hy (by simp [same, out]) z hz

/-- A sweep from nothing marks exactly what can be reached. -/
theorem mem_sweep_iff (closed : ∀ x ∈ nodes, ∀ y ∈ succ x, y ∈ nodes) {x y : α} (node : x ∈ nodes) :
    y ∈ sweep succ nodes.length [] x ↔ ReflTransGen (Edge succ) x y := by
  constructor
  · intro marked
    rcases sweep_reachable _ _ _ _ marked with old | reach
    · simp at old
    · exact reach
  · intro reach
    obtain ⟨here, below⟩ := sweep_closed closed nodes.length [] x node (by simp) (length_filter_le _ _)
    induction reach with
    | refl => exact here
    | tail _ edge ih => exact below _ ih (by simp) _ edge

/-! ## Searches -/

/-- Nodes that are visited and off the path lead only to such nodes, and are on
no cycle. -/
structure Settled (succ : α → List α) (path visited : List α) : Prop where
  path_sub : path ⊆ visited
  closed : ∀ x ∈ visited, x ∉ path → ∀ y ∈ succ x, y ∈ visited ∧ y ∉ path
  acyclic : ∀ x ∈ visited, x ∉ path → ¬ TransGen (Edge succ) x x

omit [DecidableEq α] in
theorem Settled.reach {path visited : List α} (settled : Settled succ path visited) {x y : α}
    (member : x ∈ visited) (off : x ∉ path) (reach : ReflTransGen (Edge succ) x y) : y ∈ visited ∧ y ∉ path := by
  induction reach with
  | refl => exact ⟨member, off⟩
  | tail _ edge ih => exact settled.closed _ ih.1 ih.2 _ edge

/-- A node whose successors are all settled is settled itself. -/
theorem Settled.leave {path visited : List α} {x : α} (settled : Settled succ (x :: path) visited)
    (below : ∀ y ∈ succ x, y ∈ visited ∧ y ∉ x :: path) : Settled succ path visited := by
  refine ⟨fun y hy => settled.path_sub (by simp [hy]), fun y hy out z hz => ?_, fun y hy out cycle => ?_⟩
  · by_cases same : y = x
    · subst same
      exact ⟨(below z hz).1, fun inside => (below z hz).2 (by simp [inside])⟩
    · have := settled.closed y hy (by simp [same, out]) z hz
      exact ⟨this.1, fun inside => this.2 (by simp [inside])⟩
  · by_cases same : y = x
    · subst same
      -- the first step leads to settled nodes, which never lead back to the path
      obtain ⟨z, edge, rest⟩ := TransGen.head'_iff.mp cycle
      have := settled.reach (below z edge).1 (below z edge).2 rest
      simp at this
    · exact settled.acyclic y hy (by simp [same, out]) cycle

omit [DecidableEq α] in
/-- Folding a fallible step over a list of nodes: the visited nodes grow, an
invariant `I` is kept, and what a step says of its node stays true. -/
theorem foldlM_grows {ε : Type} {f : List α → α → Except ε (List α)} {I : List α → Prop}
    {Q : α → List α → Prop} (stays : ∀ y v v', Q y v → v ⊆ v' → Q y v')
    (step : ∀ v y v', I v → f v y = .ok v' → v ⊆ v' ∧ I v' ∧ Q y v') (l : List α) (v v' : List α)
    (start : I v) (finished : l.foldlM f v = .ok v') : v ⊆ v' ∧ I v' ∧ ∀ y ∈ l, Q y v' := by
  induction l generalizing v with
  | nil =>
    cases finished
    exact ⟨List.Subset.refl _, start, by simp⟩
  | cons y ys ih =>
    rw [foldlM_cons] at finished
    cases first : f v y with
    | error e => simp [first, bind, Except.bind] at finished
    | ok v₁ =>
      simp only [first] at finished
      obtain ⟨sub₁, kept, here⟩ := step v y v₁ start first
      obtain ⟨sub₂, kept', rest⟩ := ih v₁ kept finished
      exact ⟨List.Subset.trans sub₁ sub₂, kept', forall_mem_cons.mpr ⟨stays _ _ _ here sub₂, rest⟩⟩

theorem subset_dfs (finished : dfs succ n path visited x = .ok v) : visited ⊆ v := by
  induction n generalizing path visited x v with
  | zero => simp [dfs] at finished
  | succ n ih =>
    unfold dfs at finished
    split at finished
    · split at finished
      · simp at finished
      · cases finished
        exact List.Subset.refl _
    · obtain ⟨sub, -⟩ := foldlM_grows (I := fun _ => True) (Q := fun _ _ => True)
        (fun _ _ _ _ _ => trivial) (fun v y v' _ done => ⟨ih _ _ _ _ done, trivial, trivial⟩)
        _ _ _ trivial finished
      exact fun y hy => sub (by simp [hy])

/-- The search keeps its invariant, and leaves its node settled. -/
theorem dfs_settled (settled : Settled succ path visited) (finished : dfs succ n path visited x = .ok v) :
    Settled succ path v ∧ x ∈ v ∧ x ∉ path := by
  induction n generalizing path visited x v with
  | zero => simp [dfs] at finished
  | succ n ih =>
    unfold dfs at finished
    split at finished
    · rename_i seen
      split at finished
      · simp at finished
      · rename_i off
        cases finished
        exact ⟨settled, seen, off⟩
    · rename_i fresh
      have off : x ∉ path := fun inside => fresh (settled.path_sub inside)
      have entered : Settled succ (x :: path) (x :: visited) := by
        refine ⟨cons_subset_cons x settled.path_sub, fun y hy out z hz => ?_, fun y hy out => ?_⟩
        · simp only [mem_cons, not_or] at hy out
          have next := settled.closed y (hy.resolve_left out.1) out.2 z hz
          refine ⟨by simp [next.1], ?_⟩
          simp only [mem_cons, not_or]
          refine ⟨?_, next.2⟩
          rintro rfl
          exact fresh next.1
        · simp only [mem_cons, not_or] at hy out
          exact settled.acyclic y (hy.resolve_left out.1) out.2
      obtain ⟨sub, here, below⟩ := foldlM_grows (I := Settled succ (x :: path))
        (Q := fun y v => y ∈ v ∧ y ∉ x :: path) (fun y v v' h sub => ⟨sub h.1, h.2⟩)
        (fun v y v' here done => ⟨subset_dfs _ _ _ _ _ done, ih _ _ _ _ here done⟩)
        _ _ _ entered finished
      exact ⟨here.leave below, sub (by simp), off⟩

/-- A search over all roots that ends regularly has met no cycle. -/
theorem dfs_acyclic {n : Nat} {roots v : List α} (finished : roots.foldlM (dfs succ n []) [] = .ok v)
    {r x : α} (root : r ∈ roots) (reach : ReflTransGen (Edge succ) r x) : ¬ TransGen (Edge succ) x x := by
  obtain ⟨-, settled, members⟩ := foldlM_grows (I := Settled succ [])
    (Q := fun y v => y ∈ v) (fun _ _ _ member sub => sub member)
    (fun v y v' here done =>
      have := dfs_settled _ _ _ _ _ here done
      ⟨subset_dfs _ _ _ _ _ done, this.1, this.2.1⟩)
    roots [] v ⟨by simp, by simp, by simp⟩ finished
  have inside := settled.reach (members r root) (by simp) reach
  exact settled.acyclic x inside.1 inside.2

/-- Folding a search never runs out of depth if no search of a node does. -/
theorem foldlM_ne_fuel {n : Nat} {f : List α → α → Except (Stop α) (List α)}
    (grows : ∀ v y v', f v y = .ok v' → v ⊆ v') (step : ∀ v, ∀ y ∈ nodes, left nodes v ≤ n → f v y ≠ .error .fuel)
    (l v : List α) (inside : ∀ y ∈ l, y ∈ nodes) (enough : left nodes v ≤ n) : l.foldlM f v ≠ .error .fuel := by
  induction l generalizing v with
  | nil => simp [pure, Except.pure]
  | cons y ys ih =>
    rw [foldlM_cons]
    have here := step v y (inside y (by simp)) enough
    cases first : f v y with
    | error e =>
      rw [first] at here
      exact here
    | ok v₁ =>
      have fewer : left nodes v₁ ≤ left nodes v := left_anti (grows v y v₁ first)
      exact ih v₁ (fun z hz => inside z (by simp [hz])) (by omega)

/-- With more levels than nodes that are left, the depth is never what stops the
search. -/
theorem dfs_ne_fuel (closed : ∀ x ∈ nodes, ∀ y ∈ succ x, y ∈ nodes) (n : Nat) (path visited : List α) (x : α)
    (node : x ∈ nodes) (enough : left nodes visited < n) : dfs succ n path visited x ≠ .error .fuel := by
  induction n generalizing path visited x with
  | zero => omega
  | succ n ih =>
    unfold dfs
    split
    · split <;> simp
    · rename_i fresh
      have := left_cons_lt node fresh
      cases n with
      | zero => omega
      | succ n =>
        exact foldlM_ne_fuel (n := n) (fun v y v' => subset_dfs _ _ _ _ _)
          (fun v y hy bound => ih _ _ _ hy (by omega)) _ _ (closed x node) (by omega)

end SystemdPort.Lib
