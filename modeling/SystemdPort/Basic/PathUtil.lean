/-
# Basic.PathUtil — paths

`path_simplify()` and `path_is_normalized()` of `src/basic/path-util.c`, with the function that
finds the next component for both.  `pathMax` is the `PATH_MAX` of the host.

A normalized absolute path is a walk through its components, and simplifying it only takes away
a slash at its end.
-/
import SystemdPort.Basic.StringUtil

namespace SystemdPort.Basic

set_option autoImplicit false

open List

/-- `NAME_MAX` -/
def nameMax : Nat := 255

def slashChar : UInt8 := 47
def dotChar : UInt8 := 46

/-- `path_is_absolute()` -/
def pathIsAbsolute (p : CString) : Bool := p.head? = some slashChar

/-- `skip_slash_or_dot()` -/
def skipSlashOrDot (p : CString) : CString :=
  match p with
  | [] => []
  | c :: rest =>
    if c = slashChar then skipSlashOrDot rest
    else
      match rest with
      | d :: rest' => if c = dotChar ∧ d = slashChar then skipSlashOrDot rest' else p
      | [] => p

/-- `path_find_first_component()`: the component, which is empty at the end, and where the next
one begins. -/
def pathFindFirstComponent (acceptDotDot : Bool) (q : CString) : Option (CString × CString) :=
  let first := skipSlashOrDot q
  if first = [] ∨ first = [dotChar] then some ([], [])
  else
    let component := first.takeWhile (· ≠ slashChar)
    if nameMax < component.length then none
    else if !acceptDotDot ∧ component = [dotChar, dotChar] then none
    else
      let next := skipSlashOrDot (first.dropWhile (· ≠ slashChar))
      some (component, if next = [dotChar] then [] else next)

variable (p : CString)

theorem length_skipSlashOrDot_le : (skipSlashOrDot p).length ≤ p.length := by
  fun_induction skipSlashOrDot p with
  | case1 => simp
  | case2 => simp_all; omega
  | case3 => simp_all; omega
  | case4 => simp
  | case5 => simp

theorem pathFindFirstComponent_length {acceptDotDot : Bool} {q component next : CString}
    (found : pathFindFirstComponent acceptDotDot q = some (component, next)) (more : component ≠ []) :
    next.length < q.length := by
  have first := length_skipSlashOrDot_le q
  have later := length_skipSlashOrDot_le ((skipSlashOrDot q).dropWhile (· ≠ slashChar))
  have parts : ((skipSlashOrDot q).takeWhile (· ≠ slashChar)).length +
      ((skipSlashOrDot q).dropWhile (· ≠ slashChar)).length = (skipSlashOrDot q).length := by
    rw [← length_append, takeWhile_append_dropWhile]
  unfold pathFindFirstComponent at found
  dsimp only at found
  split_ifs at found with stop long dots isDot
  · simp only [Option.some.injEq, Prod.mk.injEq] at found
    exact absurd found.1.symm more
  all_goals
    cases found
    have positive : 0 < ((skipSlashOrDot q).takeWhile (· ≠ slashChar)).length := length_pos_of_ne_nil more
    try rw [length_nil]
    omega

/-- The loop of `path_simplify_full()`. -/
def simplifyLoop (addSlash : Bool) (p : CString) : CString :=
  match _found : pathFindFirstComponent true p with
  -- a component that is too long, where the rest is left as it is
  | none => (if addSlash then [slashChar] else []) ++ p
  | some (component, next) =>
    if _last : component = [] then []
    else (if addSlash then [slashChar] else []) ++ component ++ simplifyLoop true next
  termination_by p.length
  decreasing_by exact pathFindFirstComponent_length _found _last

/-- `path_simplify()` -/
def pathSimplify (path : CString) : CString :=
  match path with
  | [] => []
  | c :: rest =>
    let simple := if c = slashChar then slashChar :: simplifyLoop false rest else simplifyLoop false path
    if simple = [] then [dotChar] else simple

/-- The loop of `path_is_valid_full()`, with the length of the whole path. -/
def validLoop (pathMax : Nat) (acceptDotDot : Bool) (length : Nat) (e : CString) : Bool :=
  match _found : pathFindFirstComponent acceptDotDot e with
  | none => false
  | some (component, next) =>
    if pathMax ≤ length - next.length then false
    else if next = [] then true
    else if _last : component = [] then false
    else validLoop pathMax acceptDotDot length next
  termination_by e.length
  decreasing_by exact pathFindFirstComponent_length _found _last

/-- `path_is_valid_full()` -/
def pathIsValidFull (pathMax : Nat) (acceptDotDot : Bool) (p : CString) : Bool :=
  p ≠ [] && validLoop pathMax acceptDotDot p.length p

/-- `path_is_normalized()` -/
def pathIsNormalized (pathMax : Nat) (p : CString) : Bool :=
  pathIsValidFull pathMax false p &&
    !(p = [dotChar] ∨ [dotChar, slashChar] <+: p ∨ [slashChar, dotChar] <:+ p ∨ [slashChar, dotChar, slashChar] <:+: p) &&
    !([slashChar, slashChar] <:+: p)

/-- `empty_or_root()`: `path_equal()` compares components, and the root has none. -/
def emptyOrRoot (path : CString) : Bool :=
  path = [] || (pathIsAbsolute path && (pathFindFirstComponent true path).any (·.1 = []))

/-! ## Components -/

/-- The components of a path, with any number of slashes and single dots between them. -/
def pathComponents (p : CString) : List CString :=
  (p.splitOn slashChar).filter fun c => c ≠ [] ∧ c ≠ [dotChar]

/-- No component is too long. -/
def ShortComponents (p : CString) : Prop := ∀ c ∈ pathComponents p, c.length ≤ nameMax

/-- A path is cut at its first slash. -/
theorem cut_at_slash : ∃ c rest, p = c ++ rest ∧ slashChar ∉ c ∧ (rest = [] ∨ ∃ more, rest = slashChar :: more) := by
  induction p with
  | nil => exact ⟨[], [], rfl, by simp, .inl rfl⟩
  | cons d p ih =>
    by_cases here : d = slashChar
    · exact ⟨[], d :: p, rfl, by simp, .inr ⟨p, by rw [here]⟩⟩
    · obtain ⟨c, rest, rfl, noSlash, after⟩ := ih
      refine ⟨d :: c, rest, rfl, ?_, after⟩
      rw [mem_cons, not_or]
      exact ⟨fun same => here same.symm, noSlash⟩

section Components

variable {c p rest : CString} {cs : List CString}

theorem join_cons (c d : CString) (ds : List CString) :
    [slashChar].intercalate (c :: d :: ds) = c ++ slashChar :: [slashChar].intercalate (d :: ds) := by
  simp

@[simp] theorem pathComponents_nil : pathComponents [] = [] := rfl

theorem pathComponents_append (p q : CString) :
    pathComponents (p ++ slashChar :: q) = pathComponents p ++ pathComponents q := by
  rw [pathComponents, splitOn_append_cons_self, filter_append]
  rfl

theorem pathComponents_slash (p : CString) : pathComponents (slashChar :: p) = pathComponents p :=
  pathComponents_append [] p

theorem pathComponents_of_noSlash (noSlash : slashChar ∉ c) :
    pathComponents c = if c = [] ∨ c = [dotChar] then [] else [c] := by
  rw [pathComponents, splitOn_eq_singleton noSlash]
  grind

theorem pathComponents_cut (noSlash : slashChar ∉ c) (after : rest = [] ∨ ∃ more, rest = slashChar :: more) :
    pathComponents (c ++ rest) = (if c = [] ∨ c = [dotChar] then [] else [c]) ++ pathComponents rest := by
  rw [← pathComponents_of_noSlash noSlash]
  rcases after with rfl | ⟨more, rfl⟩
  · simp
  · rw [pathComponents_append, pathComponents_slash]

/-- A component is the only one of itself. -/
theorem pathComponents_component (member : c ∈ pathComponents p) :
    pathComponents c = [c] ∧ c ≠ [] ∧ slashChar ∉ c := by
  induction size : p.length using Nat.strong_induction_on generalizing p with
  | _ size ih =>
    subst size
    obtain ⟨d, rest, rfl, noSlash, after⟩ := cut_at_slash p
    rw [pathComponents_cut noSlash after, mem_append] at member
    rcases member with here | later
    · split_ifs at here with trivial
      · cases here
      obtain rfl := mem_singleton.mp here
      exact ⟨(pathComponents_of_noSlash noSlash).trans (if_neg trivial), fun empty => trivial (.inl empty), noSlash⟩
    · rcases after with rfl | ⟨more, rfl⟩
      · cases later
      · rw [pathComponents_slash] at later
        exact ih more.length (by simp; omega) later rfl

theorem pathComponents_join (own : ∀ c ∈ cs, pathComponents c = [c]) : pathComponents ([slashChar].intercalate cs) = cs := by
  induction cs with
  | nil => rfl
  | cons c cs ih =>
    rw [forall_mem_cons] at own
    cases cs with
    | nil => simpa using own.1
    | cons d ds =>
      rw [join_cons, pathComponents_append, own.1, ih own.2]
      rfl

theorem pathComponents_skip (p : CString) : pathComponents (skipSlashOrDot p) = pathComponents p := by
  fun_induction skipSlashOrDot p with
  | case1 => rfl
  | case2 rest ih => rw [ih, pathComponents_slash]
  | case3 c notSlash d rest both ih =>
    obtain ⟨rfl, rfl⟩ := both
    rw [ih]
    exact (pathComponents_append [dotChar] rest).symm
  | case4 => rfl
  | case5 => rfl

theorem skipSlashOrDot_head (p : CString) :
    (∀ rest, skipSlashOrDot p ≠ slashChar :: rest) ∧ ∀ rest, skipSlashOrDot p ≠ dotChar :: slashChar :: rest := by
  fun_induction skipSlashOrDot p with
  | case1 => simp
  | case2 rest ih => exact ih
  | case3 c notSlash d rest both ih => exact ih
  | case4 c notSlash d rest notBoth => simp_all
  | case5 c notSlash => simp_all

theorem span_cut (noSlash : slashChar ∉ c) (after : rest = [] ∨ ∃ more, rest = slashChar :: more) :
    (c ++ rest).takeWhile (· ≠ slashChar) = c ∧ (c ++ rest).dropWhile (· ≠ slashChar) = rest := by
  have all : ∀ d ∈ c, decide (d ≠ slashChar) = true := by
    intro d member
    rw [decide_eq_true_eq]
    rintro rfl
    exact noSlash member
  rw [takeWhile_append_of_pos all, dropWhile_append_of_pos all]
  rcases after with rfl | ⟨more, rfl⟩ <;> simp

variable (acceptDotDot : Bool)

theorem refused_ite {α : Type} (c : CString) (found : α) :
    (if nameMax < c.length then none else if !acceptDotDot ∧ c = [dotChar, dotChar] then none else some found) =
      if nameMax < c.length ∨ (acceptDotDot = false ∧ c = [dotChar, dotChar]) then none else some found := by
  cases acceptDotDot <;> split_ifs <;> simp_all <;> omega

/-- `path_find_first_component()` takes the first component off. -/
theorem pathFindFirstComponent_eq (p : CString) :
    (pathComponents p = [] ∧ pathFindFirstComponent acceptDotDot p = some ([], [])) ∨
      ∃ c next, pathComponents p = c :: pathComponents next ∧ pathFindFirstComponent acceptDotDot p =
        if nameMax < c.length ∨ (acceptDotDot = false ∧ c = [dotChar, dotChar]) then none else some (c, next) := by
  obtain ⟨c, rest, cut, noSlash, after⟩ := cut_at_slash (skipSlashOrDot p)
  obtain ⟨head, head'⟩ := skipSlashOrDot_head p
  have whole := pathComponents_cut noSlash after
  rw [← cut, pathComponents_skip] at whole
  rw [pathFindFirstComponent]
  by_cases trivial : c = [] ∨ c = [dotChar]
  · obtain rfl : rest = [] := by
      rcases after with rfl | ⟨more, rfl⟩
      · rfl
      · rcases trivial with rfl | rfl
        · exact absurd cut (head more)
        · exact absurd cut (head' more)
    rw [if_pos trivial] at whole
    refine .inl ⟨by exact whole, if_pos ?_⟩
    rwa [cut, append_nil]
  · have notStop : ¬(c ++ rest = [] ∨ c ++ rest = [dotChar]) := by
      rcases after with rfl | ⟨more, rfl⟩
      · rwa [append_nil]
      · simp [append_eq_cons_iff, slashChar, dotChar]
    obtain ⟨taken, dropped⟩ := span_cut noSlash after
    rw [if_neg trivial] at whole
    refine .inr ⟨c, if skipSlashOrDot rest = [dotChar] then [] else skipSlashOrDot rest, ?_, ?_⟩
    · rw [whole, ← pathComponents_skip rest]
      split_ifs with isDot
      · rw [isDot]
        rfl
      · rfl
    · simp only [cut, if_neg notStop, taken, dropped]
      exact refused_ite acceptDotDot c _

theorem pathFindFirstComponent_nil (none : pathComponents p = []) :
    pathFindFirstComponent acceptDotDot p = some ([], []) := by
  rcases pathFindFirstComponent_eq acceptDotDot p with ⟨-, found⟩ | ⟨c, next, some, -⟩
  · exact found
  · rw [none] at some
    cases some

theorem pathFindFirstComponent_cons (some : pathComponents p = c :: cs) (short : c.length ≤ nameMax)
    (accepted : acceptDotDot = false → c ≠ [dotChar, dotChar]) :
    ∃ next, pathFindFirstComponent acceptDotDot p = .some (c, next) ∧ pathComponents next = cs := by
  rcases pathFindFirstComponent_eq acceptDotDot p with ⟨none, -⟩ | ⟨c', next, first, found⟩
  · rw [none] at some
    cases some
  · obtain ⟨rfl, rfl⟩ := List.cons.inj (some.symm.trans first)
    refine ⟨next, ?_, rfl⟩
    rw [found, if_neg]
    rintro (long | ⟨refuses, dots⟩)
    · omega
    · exact accepted refuses dots

theorem simplifyLoop_eq (short : ShortComponents p) (addSlash : Bool) :
    simplifyLoop addSlash p = if pathComponents p = [] then []
      else (if addSlash then [slashChar] else []) ++ [slashChar].intercalate (pathComponents p) := by
  induction all : pathComponents p generalizing p addSlash with
  | nil =>
    rw [simplifyLoop, pathFindFirstComponent_nil true all]
    rfl
  | cons c cs ih =>
    rw [ShortComponents, all, forall_mem_cons] at short
    obtain ⟨next, found, later⟩ := pathFindFirstComponent_cons true all short.1 nofun
    have nonempty : c ≠ [] := (pathComponents_component (p := p) (by simp [all])).2.1
    rw [simplifyLoop, found]
    dsimp only
    rw [dif_neg nonempty, ih (by rw [ShortComponents, later]; exact short.2) true later]
    cases cs <;> simp

/-- A path without its extra slashes and dots. -/
theorem pathSimplify_eq (short : ShortComponents p) (nonempty : p ≠ []) :
    pathSimplify p = if pathIsAbsolute p then slashChar :: [slashChar].intercalate (pathComponents p)
      else if pathComponents p = [] then [dotChar] else [slashChar].intercalate (pathComponents p) := by
  obtain ⟨c, rest, rfl⟩ := exists_cons_of_ne_nil nonempty
  by_cases isSlash : c = slashChar
  · subst isSlash
    rw [ShortComponents, pathComponents_slash] at short
    rw [pathComponents_slash]
    by_cases none : pathComponents rest = [] <;>
      simp [pathSimplify, simplifyLoop_eq short, pathIsAbsolute, none]
  · have joined (some : pathComponents (c :: rest) ≠ []) : [slashChar].intercalate (pathComponents (c :: rest)) ≠ [] := by
      obtain ⟨d, ds, all⟩ := exists_cons_of_ne_nil some
      have := (pathComponents_component (c := d) (p := c :: rest) (by simp [all])).2.1
      cases ds <;> simp [all, this]
    simp only [pathSimplify, if_neg isSlash, simplifyLoop_eq short, pathIsAbsolute, head?_cons, Option.some.injEq,
      decide_eq_true_eq]
    by_cases none : pathComponents (c :: rest) = []
    · simp [none]
    · simp [none, joined none]

theorem pathComponents_simplify (short : ShortComponents p) : pathComponents (pathSimplify p) = pathComponents p := by
  by_cases nonempty : p = []
  · rw [nonempty, pathSimplify]
  have joined : pathComponents ([slashChar].intercalate (pathComponents p)) = pathComponents p :=
    pathComponents_join fun c member => (pathComponents_component member).1
  rw [pathSimplify_eq short nonempty]
  split_ifs with absolute none
  · rw [pathComponents_slash, joined]
  · rw [none]
    rfl
  · exact joined

theorem validLoop_iff {pathMax length : Nat} {acceptDotDot : Bool} : validLoop pathMax acceptDotDot length p = true ↔
    length < pathMax ∧ ∀ c ∈ pathComponents p, c.length ≤ nameMax ∧ (acceptDotDot = false → c ≠ [dotChar, dotChar]) := by
  induction all : pathComponents p generalizing p with
  | nil =>
    rw [validLoop, pathFindFirstComponent_nil acceptDotDot all]
    simp
  | cons c cs ih =>
    rcases pathFindFirstComponent_eq acceptDotDot p with ⟨none, -⟩ | ⟨c', next, first, found⟩
    · rw [all] at none
      cases none
    obtain ⟨rfl, rfl⟩ := List.cons.inj (all.symm.trans first)
    have nonempty : c ≠ [] := (pathComponents_component (p := p) (by simp [all])).2.1
    rw [forall_mem_cons]
    by_cases bad : nameMax < c.length ∨ (acceptDotDot = false ∧ c = [dotChar, dotChar])
    · rw [validLoop, found.trans (if_pos bad)]
      simp only [Bool.false_eq_true, false_iff]
      rintro ⟨-, good, -⟩
      rcases bad with long | ⟨refuses, dots⟩
      · omega
      · exact good.2 refuses dots
    · have good : c.length ≤ nameMax ∧ (acceptDotDot = false → c ≠ [dotChar, dotChar]) := by
        simpa using bad
      rw [validLoop, found.trans (if_neg bad)]
      dsimp only
      split_ifs with reached stop
      · simp only [false_iff]
        omega
      · subst stop
        exact iff_of_true rfl ⟨by simpa using reached, good, nofun⟩
      · rw [ih rfl]
        exact ⟨fun valid => ⟨valid.1, good, valid.2⟩, fun valid => ⟨valid.1, valid.2.2⟩⟩

theorem emptyOrRoot_iff : emptyOrRoot p = true ↔ p = [] ∨ pathIsAbsolute p = true ∧ pathComponents p = [] := by
  rcases pathFindFirstComponent_eq true p with ⟨none, found⟩ | ⟨c, next, first, found⟩
  · simp [emptyOrRoot, none, found]
  · have nonempty : c ≠ [] := (pathComponents_component (p := p) (by simp [first])).2.1
    rw [emptyOrRoot, found, first]
    split_ifs <;> simp [nonempty]

end Components

/-! ## Walks -/

structure IsComponent (c : CString) : Prop where
  nonempty : c ≠ []
  noSlash : slashChar ∉ c
  notDot : c ≠ [dotChar]

/-- A path from where its first component begins, with its components.  It may end in a slash. -/
inductive Walk : CString → List CString → Prop
  | nil : Walk [] []
  | last {c : CString} (component : IsComponent c) : Walk c [c]
  | cons {c rest : CString} {cs : List CString} (component : IsComponent c) (walk : Walk rest cs) :
      Walk (c ++ slashChar :: rest) (c :: cs)

section Walks

variable {c p rest : CString} {cs : List CString}

theorem walk_components (walk : Walk p cs) : pathComponents p = cs := by
  have single {c : CString} (component : IsComponent c) : pathComponents c = [c] := by
    rw [pathComponents_of_noSlash component.noSlash, if_neg (not_or.mpr ⟨component.nonempty, component.notDot⟩)]
  induction walk with
  | nil => rfl
  | last component => exact single component
  | @cons c rest cs component walk ih =>
    rw [pathComponents_append, single component, singleton_append, ih]

/-- What `path_is_normalized()` does not find behind a slash. -/
structure Tidy (p : CString) : Prop where
  noDouble : ¬[slashChar, slashChar] <:+: slashChar :: p
  noDot : ¬[slashChar, dotChar, slashChar] <:+: slashChar :: p
  noDotEnd : ¬[slashChar, dotChar] <:+ slashChar :: p

theorem Tidy.later (tidy : Tidy (c ++ slashChar :: rest)) : Tidy rest := by
  have suffix : slashChar :: rest <:+ slashChar :: (c ++ slashChar :: rest) :=
    (suffix_append c (slashChar :: rest)).trans (suffix_cons _ _)
  exact ⟨fun found => tidy.noDouble (found.trans suffix.isInfix), fun found => tidy.noDot (found.trans suffix.isInfix),
    fun found => tidy.noDotEnd (found.trans suffix)⟩

theorem Tidy.walk (tidy : Tidy p) : Walk p (pathComponents p) := by
  induction size : p.length using Nat.strong_induction_on generalizing p with
  | _ size ih =>
    subst size
    obtain ⟨c, rest, rfl, noSlash, after⟩ := cut_at_slash p
    by_cases empty : c = []
    · subst empty
      rcases after with rfl | ⟨more, rfl⟩
      · exact .nil
      · exact absurd (prefix_append [slashChar, slashChar] more).isInfix tidy.noDouble
    have notDot : c ≠ [dotChar] := by
      rintro rfl
      rcases after with rfl | ⟨more, rfl⟩
      · exact tidy.noDotEnd (suffix_refl _)
      · exact tidy.noDot (prefix_append [slashChar, dotChar, slashChar] more).isInfix
    have all := pathComponents_cut noSlash after
    rw [if_neg (not_or.mpr ⟨empty, notDot⟩), singleton_append] at all
    have component : IsComponent c := ⟨empty, noSlash, notDot⟩
    rw [all]
    rcases after with rfl | ⟨more, rfl⟩
    · simpa using Walk.last component
    · exact .cons component (ih more.length (by simp; omega) tidy.later rfl)

/-- A normalized absolute path with its simple form. -/
theorem pathSimplify_normalized {pathMax : Nat} {path : CString} (absolute : pathIsAbsolute path = true)
    (normalized : pathIsNormalized pathMax path = true) :
    ∃ rest cs, path = slashChar :: rest ∧ Walk rest cs ∧ pathSimplify path = slashChar :: [slashChar].intercalate cs := by
  obtain ⟨rest, rfl⟩ : ∃ rest, path = slashChar :: rest := by
    cases path with
    | nil => cases absolute
    | cons c rest => exact ⟨rest, by simpa [pathIsAbsolute] using absolute⟩
  simp only [pathIsNormalized, pathIsValidFull, Bool.and_eq_true, Bool.not_eq_true', decide_eq_false_iff_not, not_or,
    validLoop_iff] at normalized
  obtain ⟨⟨⟨-, -, valid⟩, -, -, noDotEnd, noDot⟩, noDouble⟩ := normalized
  have short : ShortComponents (slashChar :: rest) := fun c member => (valid c member).1
  refine ⟨rest, pathComponents rest, rfl, Tidy.walk ⟨noDouble, noDot, noDotEnd⟩, ?_⟩
  rw [pathSimplify_eq short nofun, if_pos absolute, pathComponents_slash]

/-! ## A path without slashes around it -/

theorem walk_join_head (walk : Walk p cs) (more : cs ≠ []) :
    ∃ d rest, [slashChar].intercalate cs = d :: rest ∧ d ≠ slashChar := by
  have head {c : CString} (component : IsComponent c) (rest : CString) : ∃ d tail, c ++ rest = d :: tail ∧ d ≠ slashChar := by
    obtain ⟨d, tail, rfl⟩ := exists_cons_of_ne_nil component.nonempty
    refine ⟨d, tail ++ rest, rfl, ?_⟩
    rintro rfl
    exact component.noSlash (by simp)
  cases walk with
  | nil => exact absurd rfl more
  | last component => exact head component []
  | @cons c rest cs component walk =>
    cases cs with
    | nil => exact head component []
    | cons c' cs =>
      exact head component _

theorem walk_join_last (walk : Walk p cs) (more : cs ≠ []) : ([slashChar].intercalate cs).getLast? ≠ some slashChar := by
  have single {c : CString} (component : IsComponent c) : ([slashChar].intercalate [c]).getLast? ≠ some slashChar := by
    intro isSlash
    apply component.noSlash
    rw [show [slashChar].intercalate [c] = c from by simp [List.intercalate]] at isSlash
    exact mem_of_getLast? isSlash
  induction walk with
  | nil => exact absurd rfl more
  | last component => exact single component
  | @cons c rest cs component walk ih =>
    cases cs with
    | nil => exact single component
    | cons c' cs =>
      have later := ih (by simp)
      obtain ⟨d, tail, same, -⟩ := walk_join_head walk (by simp)
      rw [join_cons, ← singleton_append]
      rw [same] at later ⊢
      rwa [getLast?_append_of_ne_nil _ (by simp)]

end Walks

end SystemdPort.Basic
