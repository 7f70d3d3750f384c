/-
# Basic.PathRelative — a path as seen from another

`path_make_relative()` of `src/basic/path-util.c`.  It goes through both paths as long as their
components agree.  What is left of the first path becomes as many `..`, and what is left of the
second one is put behind them.  Running out of memory is left out.
-/
import SystemdPort.Basic.Errno
import SystemdPort.Basic.PathUtil

namespace SystemdPort.Basic

set_option autoImplicit false

open List

def parentDir : CString := [dotChar, dotChar]

/-- `path_is_valid()` as the last check of `path_make_relative()` -/
def checkedRelative (pathMax : Nat) (result : CString) : Except Errno CString :=
  if pathIsValidFull pathMax true result then .ok result else .error .einval

/-- The loop that counts the components left in `from`. -/
def countParents (nParents : Nat) (from_ : CString) : Option Nat :=
  match _found : pathFindFirstComponent false from_ with
  | none => none
  | some (f, next) => if _last : f = [] then some nParents else countParents (nParents + 1) next
  termination_by from_.length
  decreasing_by exact pathFindFirstComponent_length _found _last

/-- What is written for the parents and the rest `t` of `to`. -/
def relativeTo (pathMax nParents : Nat) (t : CString) : Except Errno CString :=
  let parents := (List.replicate nParents (parentDir ++ [slashChar])).flatten
  if t = [] then if pathMax < nParents * 3 then .error .einval else .ok parents.dropLast
  else checkedRelative pathMax (pathSimplify (parents ++ t))

/-- The first loop of `path_make_relative()`.  A component is returned with all that follows it, which
is what is left of a path when the slashes in front are skipped. -/
def makeRelativeLoop (pathMax : Nat) (from_ to_ : CString) : Except Errno CString :=
  match _found : pathFindFirstComponent true from_, pathFindFirstComponent true to_ with
  | some (f, from'), some (t, to') =>
    if _last : f = [] then
      if t = [] then .ok [dotChar] else checkedRelative pathMax (pathSimplify (skipSlashOrDot to_))
    else if f = t then makeRelativeLoop pathMax from' to'
    else
      match countParents 1 from' with
      | none => .error .einval
      | some nParents => relativeTo pathMax nParents (if t = [] then [] else skipSlashOrDot to_)
  | _, _ => .error .einval
  termination_by from_.length
  decreasing_by exact pathFindFirstComponent_length _found _last

/-- `path_make_relative()` -/
def pathMakeRelative (pathMax : Nat) (from_ to_ : CString) : Except Errno CString :=
  if !pathIsAbsolute from_ || !pathIsAbsolute to_ then .error .einval else makeRelativeLoop pathMax from_ to_

/-- The components that are left when each `..` takes away the one before it. -/
def resolveLexically (cs : List CString) : List CString :=
  cs.foldl (fun resolved c => if c = parentDir then resolved.dropLast else resolved ++ [c]) []

/-- Components that are neither too long nor `..` -/
def PlainComponents (cs : List CString) : Prop := ∀ c ∈ cs, c.length ≤ nameMax ∧ c ≠ parentDir

section Relative

variable {pathMax : Nat} {from_ to_ rel t : CString} {fs ts : List CString}

theorem countParents_eq (plain : PlainComponents fs) (all : pathComponents from_ = fs) (n : Nat) :
    countParents n from_ = some (n + fs.length) := by
  induction fs generalizing from_ n with
  | nil =>
    rw [countParents, pathFindFirstComponent_nil false all]
    rfl
  | cons f fs ih =>
    rw [PlainComponents, forall_mem_cons] at plain
    obtain ⟨next, found, later⟩ := pathFindFirstComponent_cons false all plain.1.1 fun _ => plain.1.2
    rw [countParents, found]
    dsimp only
    rw [dif_neg (pathComponents_component (p := from_) (by simp [all])).2.1, ih plain.2 later, length_cons]
    congr 1
    omega

theorem pathComponents_parents (n : Nat) (t : CString) :
    pathComponents ((List.replicate n (parentDir ++ [slashChar])).flatten ++ t) =
      List.replicate n parentDir ++ pathComponents t := by
  induction n with
  | zero => rfl
  | succ n ih =>
    rw [replicate_succ, flatten_cons, append_assoc, append_assoc, singleton_append, pathComponents_append, ih]
    rfl

theorem pathComponents_checked (short : ShortComponents t)
    (ok : checkedRelative pathMax (pathSimplify t) = .ok rel) : pathComponents rel = pathComponents t := by
  unfold checkedRelative at ok
  split_ifs at ok
  rw [← Except.ok.inj ok, pathComponents_simplify short]

theorem relativeTo_components {n : Nat} (short : ShortComponents t) (ok : relativeTo pathMax (n + 1) t = .ok rel) :
    pathComponents rel = List.replicate (n + 1) parentDir ++ pathComponents t := by
  unfold relativeTo at ok
  split_ifs at ok with empty
  · obtain rfl := Except.ok.inj ok
    rw [empty, replicate_succ', flatten_append, dropLast_append_of_ne_nil (by simp), pathComponents_nil,
      append_nil, replicate_succ']
    exact pathComponents_parents n parentDir
  · rw [← pathComponents_parents]
    refine pathComponents_checked ?_ ok
    rw [ShortComponents, pathComponents_parents, forall_mem_append]
    exact ⟨fun c member => by rw [eq_of_mem_replicate member]; decide, short⟩

/-- The common components are skipped, each of the others gives one `..`. -/
theorem makeRelativeLoop_components (plain : PlainComponents fs) (plain' : PlainComponents ts)
    (all : pathComponents from_ = fs) (all' : pathComponents to_ = ts)
    (ok : makeRelativeLoop pathMax from_ to_ = .ok rel) : ∃ common fs' ts', fs = common ++ fs' ∧ ts = common ++ ts' ∧
      pathComponents rel = List.replicate fs'.length parentDir ++ ts' := by
  have rest {to_ : CString} {ts : List CString} (plain' : PlainComponents ts) (all' : pathComponents to_ = ts) :
      ShortComponents (skipSlashOrDot to_) ∧ pathComponents (skipSlashOrDot to_) = ts := by
    rw [ShortComponents, pathComponents_skip, all']
    exact ⟨fun c member => (plain' c member).1, rfl⟩
  induction fs generalizing from_ to_ ts with
  | nil =>
    rw [makeRelativeLoop, pathFindFirstComponent_nil true all] at ok
    cases ts with
    | nil =>
      rw [pathFindFirstComponent_nil true all'] at ok
      obtain rfl := Except.ok.inj ok
      exact ⟨[], [], [], rfl, rfl, rfl⟩
    | cons t ts =>
      obtain ⟨next, found, -⟩ := pathFindFirstComponent_cons true all' (plain' t (by simp)).1 (by simp)
      have nonempty := (pathComponents_component (c := t) (p := to_) (by simp [all'])).2.1
      simp only [found, if_neg nonempty] at ok
      refine ⟨[], [], t :: ts, rfl, rfl, ?_⟩
      rw [pathComponents_checked (rest plain' all').1 ok, (rest plain' all').2]
      rfl
  | cons f fs ih =>
    obtain ⟨next, found, later⟩ := pathFindFirstComponent_cons true all (plain f (by simp)).1 (by simp)
    have nonempty := (pathComponents_component (c := f) (p := from_) (by simp [all])).2.1
    rw [PlainComponents, forall_mem_cons] at plain
    rw [makeRelativeLoop, found] at ok
    cases ts with
    | nil =>
      rw [pathFindFirstComponent_nil true all'] at ok
      simp only [dif_neg nonempty, if_neg nonempty, countParents_eq plain.2 later, Nat.add_comm 1] at ok
      exact ⟨[], f :: fs, [], rfl, rfl, relativeTo_components (by simp [ShortComponents]) ok⟩
    | cons t ts =>
      obtain ⟨next', found', later'⟩ := pathFindFirstComponent_cons true all' (plain' t (by simp)).1 (by simp)
      have nonempty' := (pathComponents_component (c := t) (p := to_) (by simp [all'])).2.1
      simp only [found', dif_neg nonempty] at ok
      split_ifs at ok with same
      · obtain ⟨common, fs', ts', rfl, rfl, result⟩ :=
          ih plain.2 (fun c member => plain' c (by simp [member])) later later' ok
        exact ⟨f :: common, fs', ts', rfl, by rw [same]; rfl, result⟩
      · simp only [countParents_eq plain.2 later, Nat.add_comm 1] at ok
        refine ⟨[], f :: fs, t :: ts, rfl, rfl, ?_⟩
        rw [relativeTo_components (rest plain' all').1 ok, (rest plain' all').2]
        rfl

theorem resolve_plain (plain : PlainComponents ts) (base : List CString) :
    ts.foldl (fun resolved c => if c = parentDir then resolved.dropLast else resolved ++ [c]) base = base ++ ts := by
  induction ts generalizing base with
  | nil => simp
  | cons t ts ih =>
    rw [PlainComponents, forall_mem_cons] at plain
    rw [foldl_cons, if_neg plain.1.2, ih plain.2, append_assoc]
    rfl

theorem resolve_parents (base fs : List CString) :
    (List.replicate fs.length parentDir).foldl (fun resolved c => if c = parentDir then resolved.dropLast else resolved ++ [c])
      (base ++ fs) = base := by
  induction fs using List.reverseRecOn with
  | nil => simp
  | append_singleton fs f ih =>
    rw [length_append, length_singleton, replicate_succ, foldl_cons, if_pos rfl, ← append_assoc, dropLast_concat, ih]

/-- The relative path leads from the one path to the other. -/
theorem pathMakeRelative_resolves (plain : PlainComponents (pathComponents from_))
    (plain' : PlainComponents (pathComponents to_)) (ok : pathMakeRelative pathMax from_ to_ = .ok rel) :
    resolveLexically (pathComponents (from_ ++ slashChar :: rel)) = pathComponents to_ := by
  unfold pathMakeRelative at ok
  split_ifs at ok
  obtain ⟨common, fs', ts', all, all', result⟩ := makeRelativeLoop_components plain plain' rfl rfl ok
  have later : PlainComponents ts' := fun c member => plain' c (by simp [all', member])
  rw [resolveLexically, pathComponents_append, foldl_append, resolve_plain plain, nil_append, all, result,
    foldl_append, resolve_parents, resolve_plain later, all']

theorem pathMakeRelative_resolves_sibling :
    pathMakeRelative 1024 (cstr "/usr/lib/systemd/") (cstr "/usr/./share//man") = .ok (cstr "../../share/man") ∧
      resolveLexically (pathComponents (cstr "/usr/lib/systemd//../../share/man")) =
        pathComponents (cstr "/usr/./share//man") := by
  have ok : pathMakeRelative 1024 (cstr "/usr/lib/systemd/") (cstr "/usr/./share//man") = .ok (cstr "../../share/man") := by
    decide +kernel
  exact ⟨ok, pathMakeRelative_resolves (by unfold PlainComponents; decide +kernel)
    (by unfold PlainComponents; decide +kernel) ok⟩

end Relative

end SystemdPort.Basic
