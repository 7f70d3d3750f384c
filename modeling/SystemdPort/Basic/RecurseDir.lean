/-
# Basic.RecurseDir — walking a directory tree

`recurse_dir()` and `recurse_dir_at()` of the port's `src/basic/recurse-dir.c`.  Names
and paths are byte strings.  `opendir()` is a parameter: which names it lists for the
text of a path, in the order `readdir()` gives them.  A symbolic link comes with what
`stat()` says when it is followed.

The walk opens each directory by the text of its path, but looks up the entries of
every one of them in the directory it started from.  `recurseDirAt_iff` says what
that means: the walk is right exactly if the texts that are opened lead to the
directories, and each entry found has a twin with the same stat data at the top.
-/
import SystemdPort.Basic.Errno
import SystemdPort.Basic.StringUtil

namespace SystemdPort.Basic

set_option autoImplicit false

open List

def slash : UInt8 := 47

def dot : CString := [46]

def dotDot : CString := [46, 46]

/-- The names the loop skips. -/
def isDots (name : CString) : Bool := name = dot || name = dotDot

/-- `PATH_MAX` -/
def pathMax : Nat := 1024

inductive FileType where
  | regular | directory | link
  deriving DecidableEq

/-- `struct stat`: the type of the file and which one it is. -/
structure Stat where
  type : FileType
  ino : Nat
  deriving DecidableEq

inductive Node where
  | file (ino : Nat)
  | dir (ino : Nat) (entries : List (CString × Node))
  | symlink (ino : Nat) (target : Except Errno Stat)

abbrev Entries := List (CString × Node)

def Node.lstat : Node → Stat
  | file ino => ⟨.regular, ino⟩
  | dir ino _ => ⟨.directory, ino⟩
  | symlink ino _ => ⟨.link, ino⟩

def Node.stat : Node → Except Errno Stat
  | symlink _ target => target
  | node => .ok node.lstat

/-- `fstatat()` of a name in a directory. -/
def fstatat (entries : Entries) (name : CString) (follow : Bool) : Except Errno Stat :=
  match entries.find? fun e => e.1 = name with
  | none => .error .enoent
  | some e => if follow then e.2.stat else .ok e.2.lstat

/-! ## recurse_dir() -/

/-- A call of the callback: where it is, what it is called, and its stat data. -/
structure Call where
  path : CString
  name : CString
  st : Stat
  depth : Nat
  deriving DecidableEq

/-- `RECURSE_DIR_FOLLOW_SYMLINKS`, which has the value of `RECURSE_DIR_SORT`. -/
def recurseDirFollowSymlinks : BitVec 32 := 1

/-- `snprintf(child_path, PATH_MAX, "%s/%s", path, name)` -/
def childPath (path name : CString) : CString := (path ++ slash :: name).take (pathMax - 1)

section Walk

variable (opendir : CString → Except Errno (List CString)) (top : Entries) (flags : BitVec 32)
  (func : Call → Int)

/-- The value returned, with the calls made. -/
abbrev WalkResult := Except Errno Int × List Call

/-- The loop over the names in a directory, up to the first result that is not 0. -/
def visitEntries (visit : CString → WalkResult) : List CString → WalkResult
  | [] => (.ok 0, [])
  | name :: names =>
    if isDots name then visitEntries visit names
    else
      match visit name with
      | (.ok 0, calls) =>
        let rest := visitEntries visit names
        (rest.1, calls ++ rest.2)
      | stopped => stopped

def visitEntry (recurse : CString → WalkResult) (path : CString) (depth : Nat) (name : CString) : WalkResult :=
  match fstatat top name (flags &&& recurseDirFollowSymlinks ≠ 0) with
  | .error e => (.error e, [])
  | .ok st =>
    let call := ⟨path, name, st, depth⟩
    if func call ≠ 0 then (.ok (func call), [call])
    else if st.type = .directory then
      let below := recurse (childPath path name)
      (below.1, call :: below.2)
    else (.ok 0, [call])

def recurseDir : Nat → CString → WalkResult
  | 0, _ => (.ok 0, [])
  | depth + 1, path =>
    match opendir path with
    | .error e => (.error e, [])
    | .ok names => visitEntries (visitEntry top flags func (recurseDir depth) path (depth + 1)) names

end Walk

/-- `recurse_dir_at()`, where `opened` is what `openat()` gives. -/
def recurseDirAt (opendir : CString → Except Errno (List CString)) (opened : Except Errno Entries)
    (path : Option CString) (depth : Nat) (flags : BitVec 32) (func : Call → Int) : WalkResult :=
  match opened with
  | .error e => (.error e, [])
  | .ok top =>
    match path with
    | some path => recurseDir opendir top flags func depth path
    -- without a path `opendir()` gets NULL
    | none => if depth = 0 then (.ok 0, []) else (.error .efault, [])

/-! ## What should be visited -/

/-- The calls for all entries within the depth limit, each with its own stat data. -/
def within : Nat → CString → Entries → List Call
  | 0, _, _ => []
  | depth + 1, path, entries =>
    entries.flatMap fun e => ⟨path, e.1, e.2.lstat, depth + 1⟩ ::
      match e.2 with
      | .dir _ sub => within depth (path ++ slash :: e.1) sub
      | _ => []

/-- Where a directory is opened by a text, that leads to the directory, and is the path of the directory unless it
is empty; and looking an entry up at the top gives the entry's own data. -/
def Leads (opendir : CString → Except Errno (List CString)) (top : Entries) (flags : BitVec 32) :
    Nat → (text path : CString) → Entries → Prop
  | 0, _, _, _ => True
  | depth + 1, text, path, entries =>
    (∃ names, opendir text = .ok names ∧ names.filter (!isDots ·) = entries.map Prod.fst) ∧
    ∀ e ∈ entries, text = path ∧ fstatat top e.1 (flags &&& recurseDirFollowSymlinks ≠ 0) = .ok e.2.lstat ∧
      ∀ ino sub, e.2 = .dir ino sub →
        Leads opendir top flags depth (childPath text e.1) (path ++ slash :: e.1) sub

section Correct

variable {opendir : CString → Except Errno (List CString)} {top entries : Entries} {flags : BitVec 32}
  {depth : Nat} {text path : CString}

theorem visitEntries_filter (visit : CString → WalkResult) (names : List CString) :
    visitEntries visit names = visitEntries visit (names.filter (!isDots ·)) := by
  induction names with
  | nil => rfl
  | cons name names ih =>
    cases special : isDots name with
    | true => simp [visitEntries, special, ih]
    | false => simp [visitEntries, special, ih]

variable {visit : CString → WalkResult} {names : List CString} {name : CString} {c : Call} {e : CString × Node}

/-- The calls for one entry and what is below it. -/
def entryCalls (depth : Nat) (path : CString) (e : CString × Node) : List Call :=
  ⟨path, e.1, e.2.lstat, depth + 1⟩ ::
    match e.2 with
    | .dir _ sub => within depth (path ++ slash :: e.1) sub
    | _ => []

theorem within_succ : within (depth + 1) path entries = entries.flatMap (entryCalls depth path) := rfl

/-! ## Depths tell where the calls for an entry end -/

theorem within_depth (member : c ∈ within depth path entries) : c.depth ≤ depth := by
  induction depth generalizing path entries with
  | zero => simp [within] at member
  | succ depth ih =>
    rw [within_succ, mem_flatMap] at member
    obtain ⟨⟨name, node⟩, -, member⟩ := member
    rcases mem_cons.mp member with rfl | below
    · exact le_rfl
    cases node with
    | file _ => simp at below
    | symlink _ _ => simp at below
    | dir ino sub => exact Nat.le_succ_of_le (ih below)

theorem mem_visitEntries (member : c ∈ (visitEntries visit names).2) : ∃ name, c ∈ (visit name).2 := by
  induction names with
  | nil => simp [visitEntries] at member
  | cons first rest ih =>
    unfold visitEntries at member
    split at member
    · exact ih member
    split at member
    · rename_i own visited
      rcases mem_append.mp member with here | later
      · exact ⟨first, by rwa [visited]⟩
      · exact ih later
    · exact ⟨first, member⟩

/-- The calls for an entry: one of the depth of the walk, and what is below it. -/
theorem visitEntry_calls {recurse : CString → WalkResult} :
    (∃ e, visitEntry top flags (fun _ => 0) recurse text depth name = (.error e, [])) ∨ ∃ st below,
      (visitEntry top flags (fun _ => 0) recurse text depth name).2 = ⟨text, name, st, depth⟩ :: below ∧
        below ⊆ (recurse (childPath text name)).2 := by
  unfold visitEntry
  split
  · exact .inl ⟨_, rfl⟩
  · rename_i st _
    simp only [ne_eq, not_true_eq_false, if_false]
    split
    · exact .inr ⟨st, _, rfl, List.Subset.refl _⟩
    · exact .inr ⟨st, [], rfl, nil_subset _⟩

theorem recurseDir_depth (member : c ∈ (recurseDir opendir top flags (fun _ => 0) depth text).2) : c.depth ≤ depth := by
  induction depth generalizing text c with
  | zero => simp [recurseDir] at member
  | succ depth ih =>
    unfold recurseDir at member
    split at member
    · simp at member
    · obtain ⟨name, member⟩ := mem_visitEntries member
      rcases visitEntry_calls with ⟨e, none⟩ | ⟨st, below, calls, sub⟩
      · rw [none] at member
        simp at member
      · rw [calls] at member
        rcases mem_cons.mp member with rfl | later
        · exact le_rfl
        · exact Nat.le_succ_of_le (ih (sub later))

/-- The calls of a walk start with one of its depth. -/
def Starts (depth : Nat) (calls : List Call) : Prop := ∀ c ∈ calls.head?, c.depth = depth + 1

theorem blocks_inj {first first' : Call} {below below' rest rest' : List Call} (low : ∀ c ∈ below, c.depth ≤ depth)
    (low' : ∀ c ∈ below', c.depth ≤ depth) (starts : Starts depth rest) (starts' : Starts depth rest')
    (same : first :: below ++ rest = first' :: below' ++ rest') :
    first :: below = first' :: below' ∧ rest = rest' := by
  have cut : ∀ {below rest : List Call}, (∀ c ∈ below, c.depth ≤ depth) → Starts depth rest →
      (below ++ rest).takeWhile (·.depth ≤ depth) = below := by
    intro below rest low starts
    rw [takeWhile_append_of_pos (by simpa using low)]
    cases rest with
    | nil => simp
    | cons c rest => simp [starts c rfl]
  obtain ⟨rfl, later⟩ : first = first' ∧ below ++ rest = below' ++ rest' := by simpa using same
  obtain rfl : below = below' := by rw [← cut low starts, later, cut low' starts']
  exact ⟨rfl, append_cancel_left later⟩

theorem entryCalls_eq (e : CString × Node) : ∃ below,
    entryCalls depth path e = ⟨path, e.1, e.2.lstat, depth + 1⟩ :: below ∧ ∀ c ∈ below, c.depth ≤ depth := by
  obtain ⟨name, node⟩ := e
  refine ⟨_, rfl, fun c member => ?_⟩
  cases node with
  | file _ => simp at member
  | symlink _ _ => simp at member
  | dir ino sub => exact within_depth member

theorem starts_within : Starts depth (entries.flatMap (entryCalls depth path)) := by
  cases entries with
  | nil => simp [Starts]
  | cons e rest => simp [Starts, entryCalls]

/-! ## The walk -/

theorem visitEntry_iff {recurse : CString → WalkResult} :
    visitEntry top flags (fun _ => 0) recurse text (depth + 1) name = (.ok 0, entryCalls depth path e) ↔
      name = e.1 ∧ text = path ∧ fstatat top e.1 (flags &&& recurseDirFollowSymlinks ≠ 0) = .ok e.2.lstat ∧
        ∀ ino sub, e.2 = .dir ino sub →
          recurse (childPath text e.1) = (.ok 0, within depth (path ++ slash :: e.1) sub) := by
  obtain ⟨ownName, node⟩ := e
  unfold visitEntry
  split
  · rename_i failed
    simp only [Prod.mk.injEq, reduceCtorEq, false_and, false_iff, not_and]
    rintro rfl _ found
    rw [failed] at found
    cases found
  · rename_i st found
    simp only [ne_eq, not_true_eq_false, if_false, entryCalls]
    constructor
    · intro visited
      split at visited
      · simp only [Prod.mk.injEq, List.cons.injEq, Call.mk.injEq, and_true] at visited
        obtain ⟨ok, ⟨rfl, rfl, rfl⟩, below⟩ := visited
        refine ⟨rfl, rfl, found, ?_⟩
        rintro ino sub rfl
        exact Prod.ext ok below
      · rename_i noDir
        simp only [Prod.mk.injEq, List.cons.injEq, Call.mk.injEq, and_true, true_and] at visited
        obtain ⟨⟨rfl, rfl, rfl⟩, -⟩ := visited
        refine ⟨rfl, rfl, found, ?_⟩
        rintro ino sub rfl
        exact absurd rfl noDir
    · rintro ⟨rfl, rfl, own, below⟩
      obtain rfl : st = node.lstat := Except.ok.inj (found.symm.trans own)
      cases node with
      | file _ => rfl
      | symlink _ _ => rfl
      | dir ino sub => simp [Node.lstat, below ino sub rfl]

section Visits

variable (calls : ∀ name l, visit name = (.ok 0, l) → ∃ first below, l = first :: below ∧ first.depth = depth + 1 ∧
  ∀ c ∈ below, c.depth ≤ depth)

include calls

theorem visitEntries_starts {l : List Call}
    (done : visitEntries visit names = (.ok 0, l)) : Starts depth l := by
  induction names with
  | nil =>
    cases done
    simp [Starts]
  | cons name names ih =>
    unfold visitEntries at done
    split at done
    · exact ih done
    split at done
    · rename_i own visited
      obtain ⟨-, rfl⟩ := Prod.mk.inj done
      obtain ⟨first, below, rfl, depth, -⟩ := calls _ _ visited
      simpa [Starts] using depth
    · rename_i other
      exact absurd done (other l)

theorem visitEntries_iff {own : CString × Node → Prop} (plain : ∀ name ∈ names, isDots name = false)
    (each : ∀ name e, visit name = (.ok 0, entryCalls depth path e) ↔ name = e.1 ∧ own e) :
    visitEntries visit names = (.ok 0, entries.flatMap (entryCalls depth path)) ↔
      names = entries.map Prod.fst ∧ ∀ e ∈ entries, own e := by
  induction names generalizing entries with
  | nil =>
    cases entries with
    | nil => simp [visitEntries]
    | cons e rest => simp [visitEntries, entryCalls]
  | cons name names ih =>
    obtain ⟨here, later⟩ := forall_mem_cons.mp plain
    rw [visitEntries, if_neg (by simp [here])]
    cases entries with
    | nil =>
      simp only [flatMap_nil, map_nil, reduceCtorEq, false_and, iff_false]
      intro done
      split at done
      · rename_i l visited
        obtain ⟨first, below, rfl, -⟩ := calls _ _ visited
        simp at done
      · rename_i other
        exact other [] done
    | cons e rest =>
      rw [map_cons, List.cons.injEq, forall_mem_cons, flatMap_cons]
      constructor
      · intro done
        split at done
        · rename_i l visited
          obtain ⟨ok, same⟩ := Prod.mk.inj done
          obtain ⟨first, below, rfl, -, low⟩ := calls _ _ visited
          obtain ⟨below', isCalls, low'⟩ := @entryCalls_eq depth path e
          rw [isCalls] at same
          obtain ⟨sameCalls, others⟩ := blocks_inj low low' (visitEntries_starts calls (Prod.ext ok rfl)) starts_within same
          rw [sameCalls, ← isCalls] at visited
          obtain ⟨isName, isOwn⟩ := (each name e).mp visited
          obtain ⟨areNames, areOwn⟩ := (ih later).mp (Prod.ext ok others)
          exact ⟨⟨isName, areNames⟩, isOwn, areOwn⟩
        · rename_i other
          exact absurd done (other _)
      · rintro ⟨⟨rfl, areNames⟩, isOwn, areOwn⟩
        simp [(each e.1 e).mpr ⟨rfl, isOwn⟩, (ih later).mpr ⟨areNames, areOwn⟩]

end Visits

theorem recurseDir_iff : recurseDir opendir top flags (fun _ => 0) depth text = (.ok 0, within depth path entries) ↔
    Leads opendir top flags depth text path entries := by
  induction depth generalizing text path entries with
  | zero => simp [recurseDir, within, Leads]
  | succ depth ih =>
    unfold recurseDir Leads
    cases opened : opendir text with
    | error e => simp
    | ok names =>
      dsimp only
      rw [visitEntries_filter, within_succ, visitEntries_iff ?_ (by simp) fun name e => visitEntry_iff]
      · simp [ih]
      · intro name l visited
        obtain ⟨e, failed⟩ | ⟨st, below, calls, sub⟩ := visitEntry_calls
        · cases failed.symm.trans visited
        · rw [visited] at calls
          exact ⟨_, below, calls, rfl, fun c member => recurseDir_depth (sub member)⟩

/-- The walk ends well and calls the callback exactly once for each entry of the tree, given in the order in which its
directories are read, and with the data of that entry, if and only if the texts that are opened lead to the directories
and every entry has a twin in the top directory. -/
theorem recurseDirAt_iff (tree : Entries) : recurseDirAt opendir (.ok top) (some path) depth flags (fun _ => 0) =
    (.ok 0, within depth path tree) ↔ Leads opendir top flags depth path path tree :=
  recurseDir_iff

end Correct

section Trees

/-- What is below `t`: a directory `d` with a file `f` in it. -/
def nested : Entries := [([100], .dir 1 [([102], .file 2)])]

def nestedOpendir (path : CString) : Except Errno (List CString) :=
  if path = [116] then .ok [dot, dotDot, [100]]
  else if path = [116, slash, 100] then .ok [dot, dotDot, [102]]
  else .error .enoent

-- with depth 1 only `d` itself is due, and it is at the top
example : recurseDirAt nestedOpendir (.ok nested) (some [116]) 1 0 (fun _ => 0) = (.ok 0, within 1 [116] nested) := rfl

/-- With depth 2 the walk fails at `d/f`, because there is no `f` at the top. -/
theorem recurseDirAt_nested_fails :
    recurseDirAt nestedOpendir (.ok nested) (some [116]) 2 0 (fun _ => 0) =
      (.error .enoent, [⟨[116], [100], ⟨.directory, 1⟩, 2⟩]) :=
  rfl

end Trees

end SystemdPort.Basic
