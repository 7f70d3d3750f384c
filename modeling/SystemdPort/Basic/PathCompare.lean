/-
# Basic.PathCompare — paths by their components

`path_compare()` and `path_startswith()` of `src/basic/path-util.c` and `path_hash_func()` of
`src/basic/hash-funcs.c`.  Each of them goes through the components on its own.  As long as no
component is too long they all see a path as its list of components, and whether it is absolute,
and `path_simplify()` writes down just that.
-/
import SystemdPort.Basic.PathUtil

namespace SystemdPort.Basic

set_option autoImplicit false

open List

/-- The sign of `memcmp()` -/
def memcmp (a b : CString) (n : Nat) : Ordering := compare (a.take n) (b.take n)

/-- The loop of `path_compare()` -/
def compareLoop (a b : CString) : Ordering :=
  match _found : pathFindFirstComponent true a, pathFindFirstComponent true b with
  | some (aa, a'), some (bb, b') =>
    if _last : aa = [] then if bb = [] then .eq else .lt
    else if bb = [] then .gt
    else (memcmp aa bb (min aa.length bb.length)).then ((compare aa.length bb.length).then (compareLoop a' b'))
  -- an invalid path comes after a valid one
  | some _, none => .lt
  | none, some _ => .gt
  | none, none => compare a b
  termination_by a.length
  decreasing_by exact pathFindFirstComponent_length _found _last

/-- The sign of `path_compare()` -/
def pathCompare (a b : CString) : Ordering := (compare (pathIsAbsolute a) (pathIsAbsolute b)).then (compareLoop a b)

/-- The loop of `path_hash_func()`: what it gives to `siphash24_compress()`, call by call -/
def hashLoop (addSlash : Bool) (q : CString) : List CString :=
  let slash := if addSlash then [[slashChar]] else []
  match _found : pathFindFirstComponent true q with
  -- the rest as a string, with its NUL
  | none => slash ++ [q ++ [0]]
  | some (e, next) => if _last : e = [] then [] else slash ++ e :: hashLoop true next
  termination_by q.length
  decreasing_by exact pathFindFirstComponent_length _found _last

/-- `path_hash_func()` -/
def pathHashFunc (q : CString) : List CString :=
  (if pathIsAbsolute q then [[slashChar]] else []) ++ hashLoop false q

/-- The loop of `path_startswith_full()`: what follows in the path -/
def startswithLoop (acceptDotDot : Bool) (path pre : CString) : Option CString :=
  match pathFindFirstComponent acceptDotDot path, _found : pathFindFirstComponent acceptDotDot pre with
  | some (p, path'), some (q, pre') =>
    if _last : q = [] then some (if p = [] then path' else skipSlashOrDot path)
    else if p = q then startswithLoop acceptDotDot path' pre'
    else none
  | _, _ => none
  termination_by pre.length
  decreasing_by exact pathFindFirstComponent_length _found _last

/-- `path_startswith()` -/
def pathStartswith (path pre : CString) : Option CString :=
  if pathIsAbsolute path ≠ pathIsAbsolute pre then none else startswithLoop true path pre

section Compare

variable {a b p q : CString} {cs ds : List CString}

theorem memcmp_then (a b : CString) :
    (memcmp a b (min a.length b.length)).then (compare a.length b.length) = compare a b := by
  induction a generalizing b with
  | nil => cases b <;> rfl
  | cons x a ih =>
    cases b with
    | nil => rfl
    | cons y b =>
      have lengths : compare (a.length + 1) (b.length + 1) = compare a.length b.length := by
        simp [compare, compareOfLessAndEq]
      rw [List.compare_cons_cons, ← ih b]
      simp [memcmp, lengths, Ordering.then_assoc]

/-- The first component of a path without components that are too long. -/
theorem ShortComponents.first {c : CString} (short : ShortComponents p) (all : pathComponents p = c :: cs) :
    c ≠ [] ∧ ∃ next, pathFindFirstComponent true p = some (c, next) ∧ pathComponents next = cs ∧
      ShortComponents next := by
  rw [ShortComponents, all, forall_mem_cons] at short
  obtain ⟨next, found, later⟩ := pathFindFirstComponent_cons true all short.1 (by simp)
  refine ⟨(pathComponents_component (p := p) (by simp [all])).2.1, next, found, later, ?_⟩
  rw [ShortComponents, later]
  exact short.2

section

variable (short : ShortComponents a) (short' : ShortComponents b)

include short short'

theorem compareLoop_eq (all : pathComponents a = cs) (all' : pathComponents b = ds) :
    compareLoop a b = compare cs ds := by
  induction cs generalizing a b ds with
  | nil =>
    rw [compareLoop, pathFindFirstComponent_nil true all]
    cases ds with
    | nil => rw [pathFindFirstComponent_nil true all']; rfl
    | cons d ds =>
      obtain ⟨nonempty, next, found, -⟩ := short'.first all'
      simp only [found, if_neg nonempty]
      rfl
  | cons c cs ih =>
    obtain ⟨nonempty, next, found, later, short₁⟩ := short.first all
    rw [compareLoop, found]
    cases ds with
    | nil =>
      simp only [pathFindFirstComponent_nil true all', dif_neg nonempty]
      rfl
    | cons d ds =>
      obtain ⟨nonempty', next', found', later', short₂⟩ := short'.first all'
      simp [found', dif_neg nonempty, if_neg nonempty', ih short₁ short₂ later later', ← Ordering.then_assoc,
        memcmp_then]

/-- The order of paths: the relative ones first, then by their components. -/
theorem pathCompare_eq : pathCompare a b = compareLex (compareOn pathIsAbsolute) (compareOn pathComponents) a b := by
  rw [pathCompare, compareLoop_eq short short' rfl rfl]
  rfl

theorem pathCompare_eq_iff :
    pathCompare a b = .eq ↔ pathIsAbsolute a = pathIsAbsolute b ∧ pathComponents a = pathComponents b := by
  rw [pathCompare_eq short short', compareLex, Ordering.then_eq_eq, compareOn, compareOn, compare_eq_iff_eq,
    Std.LawfulEqCmp.compare_eq_iff_eq]

end

theorem hashLoop_congr (short : ShortComponents p) (short' : ShortComponents q) (all : pathComponents p = cs)
    (all' : pathComponents q = cs) (addSlash : Bool) : hashLoop addSlash p = hashLoop addSlash q := by
  induction cs generalizing p q addSlash with
  | nil => rw [hashLoop, hashLoop, pathFindFirstComponent_nil true all, pathFindFirstComponent_nil true all']
  | cons c cs ih =>
    obtain ⟨-, next, found, later, short₁⟩ := short.first all
    obtain ⟨-, next', found', later', short₂⟩ := short'.first all'
    rw [hashLoop, hashLoop, found, found']
    simp [ih short₁ short₂ later later']

theorem startswithLoop_iff (short : ShortComponents p) (short' : ShortComponents q) (all : pathComponents p = cs)
    (all' : pathComponents q = ds) : (startswithLoop true p q).isSome = true ↔ ds <+: cs := by
  induction ds generalizing p q cs with
  | nil =>
    rw [startswithLoop, pathFindFirstComponent_nil true all']
    cases cs with
    | nil => simp [pathFindFirstComponent_nil true all]
    | cons c cs =>
      obtain ⟨-, next, found, -⟩ := short.first all
      simp [found]
  | cons d ds ih =>
    obtain ⟨nonempty, next, found, later, short₁⟩ := short'.first all'
    rw [startswithLoop, found]
    cases cs with
    | nil => simp [pathFindFirstComponent_nil true all, nonempty]
    | cons c cs =>
      obtain ⟨-, next', found', later', short₂⟩ := short.first all
      simp only [found', dif_neg nonempty, cons_prefix_cons]
      split_ifs with same
      · rw [ih short₂ short₁ later' later]
        exact (and_iff_right same.symm).symm
      · simp [Ne.symm same]

theorem pathSimplify_absolute (short : ShortComponents p) : pathIsAbsolute (pathSimplify p) = pathIsAbsolute p := by
  by_cases empty : p = []
  · rw [empty, pathSimplify]
  rw [pathSimplify_eq short empty]
  split_ifs with absolute none
  · exact absolute.symm
  · rw [Bool.not_eq_true] at absolute
    exact absolute.symm
  · rw [Bool.not_eq_true] at absolute
    obtain ⟨c, cs, all⟩ := exists_cons_of_ne_nil none
    obtain ⟨-, nonempty, noSlash⟩ := pathComponents_component (c := c) (p := p) (by simp [all])
    obtain ⟨d, c, rfl⟩ := exists_cons_of_ne_nil nonempty
    have notSlash : d ≠ slashChar := by
      rintro rfl
      exact noSlash (by simp)
    rw [absolute, all, pathIsAbsolute]
    cases cs <;> simp [notSlash]

/-- Comparing, hashing, simplifying and looking for a prefix agree on what a path is. -/
theorem paths_by_components {a b c : CString} (short : ShortComponents a) (short' : ShortComponents b)
    (short'' : ShortComponents c) :
    (pathCompare a a = .eq ∧ pathCompare b a = (pathCompare a b).swap ∧
      ((pathCompare a b).isLE → (pathCompare b c).isLE → (pathCompare a c).isLE)) ∧
    (pathCompare a b = .eq ↔ pathIsAbsolute a = pathIsAbsolute b ∧ pathComponents a = pathComponents b) ∧
    (pathCompare a b = .eq → pathHashFunc a = pathHashFunc b) ∧
    pathSimplify (pathSimplify a) = pathSimplify a ∧
    (a ≠ [] → b ≠ [] → (pathSimplify a = pathSimplify b ↔ pathCompare a b = .eq)) ∧
    ((pathStartswith a b).isSome ↔ pathIsAbsolute a = pathIsAbsolute b ∧ pathComponents b <+: pathComponents a) := by
  have equal := pathCompare_eq_iff short short'
  refine ⟨⟨(pathCompare_eq_iff short short).mpr ⟨rfl, rfl⟩, ?_, ?_⟩, equal, ?_, ?_, ?_, ?_⟩
  · rw [pathCompare_eq short short', pathCompare_eq short' short]
    exact Std.OrientedCmp.eq_swap
  · rw [pathCompare_eq short short', pathCompare_eq short' short'', pathCompare_eq short short'']
    exact Std.TransCmp.isLE_trans
  · intro same
    obtain ⟨absolute, all⟩ := equal.mp same
    rw [pathHashFunc, pathHashFunc, absolute, hashLoop_congr short short' all rfl]
  · by_cases empty : a = []
    · rw [empty, pathSimplify, pathSimplify]
    have all := pathComponents_simplify short
    have nonempty : pathSimplify a ≠ [] := by
      obtain ⟨d, rest, rfl⟩ := exists_cons_of_ne_nil empty
      rw [pathSimplify]
      split_ifs <;> simp_all
    conv_lhs => rw [pathSimplify_eq (by rwa [ShortComponents, all]) nonempty, all, pathSimplify_absolute short]
    exact (pathSimplify_eq short empty).symm
  · intro nonempty nonempty'
    rw [equal]
    constructor
    · intro same
      rw [← pathSimplify_absolute short, ← pathSimplify_absolute short', ← pathComponents_simplify short,
        ← pathComponents_simplify short', same]
      exact ⟨rfl, rfl⟩
    · rintro ⟨absolute, all⟩
      rw [pathSimplify_eq short nonempty, pathSimplify_eq short' nonempty', absolute, all]
  · rw [pathStartswith]
    split_ifs with differ
    · simp [differ]
    · rw [startswithLoop_iff short short' rfl rfl]
      simp [not_not.mp differ]

theorem paths_by_components_usr :
    pathSimplify (cstr "/usr//./lib/") = pathSimplify (cstr "//usr/lib") ∧
      pathCompare (cstr "/usr//./lib/") (cstr "//usr/lib") = .eq := by
  have same : pathCompare (cstr "/usr//./lib/") (cstr "//usr/lib") = .eq := by decide +kernel
  obtain ⟨-, -, -, -, simple, -⟩ := @paths_by_components (cstr "/usr//./lib/") (cstr "//usr/lib") []
    (by unfold ShortComponents; decide +kernel) (by unfold ShortComponents; decide +kernel) (by simp [ShortComponents])
  exact ⟨(simple (by decide) (by decide)).mpr same, same⟩

/-- A relative path is no beginning of an absolute one, even with the same components. -/
theorem pathStartswith_relative :
    pathComponents (cstr "usr") <+: pathComponents (cstr "/usr/lib") ∧
      pathStartswith (cstr "/usr/lib") (cstr "usr") = none := by
  decide +kernel

end Compare

end SystemdPort.Basic
