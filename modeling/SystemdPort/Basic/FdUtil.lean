/-
# Basic.FdUtil — closing all descriptors but some

`close_all_fds()` of `src/basic/fd-util.c` and what it calls, over the `close_range()`
that the port puts in place of the system call (`missing_syscall.h`).

A loop takes a bound on its rounds and is `none` when that runs out, so a call
returns if it is `some` for some bound, and does not end if it is `none` for all.
Unsigned numbers are natural numbers below 2^32 and `int` values are integers;
`close()` releases an open descriptor and does nothing to any other number.  There
is no `/proc/self/fd` to list on macOS, so what is left to fall back on is the loop
over all possible descriptors.

`closeAllFds_iff` says when the call leaves open what it should.
-/
import SystemdPort.Basic.Errno
import Mathlib.Tactic

namespace SystemdPort.Basic

set_option autoImplicit false

open List

def intMax : Int := 2 ^ 31 - 1

/-- A value of type `int`. -/
structure CInt where
  val : Int
  lower : -2 ^ 31 ≤ val
  upper : val ≤ intMax

/-- Conversion of an `int` to `unsigned`. -/
def toUnsigned (x : Int) : Nat := (x % 2 ^ 32).toNat

/-- Conversion of an `unsigned` to `int`. -/
def toSigned (n : Nat) : Int := if n < 2 ^ 31 then n else (n : Int) - 2 ^ 32

/-! ## Descriptors -/

/-- The open descriptors of the process. -/
@[ext]
structure Fds where
  set : Finset Int
  range : ∀ fd ∈ set, 0 ≤ fd ∧ fd ≤ intMax

namespace Fds

def close (fds : Fds) (fd : Int) : Fds where
  set := fds.set.erase fd
  range x hx := fds.range x (Finset.mem_of_mem_erase hx)

/-- What is left when everything from `lo` to `hi` is closed. -/
def outside (fds : Fds) (lo hi : Int) : Fds where
  set := fds.set.filter fun fd => ¬(lo ≤ fd ∧ fd ≤ hi)
  range x hx := fds.range x (Finset.mem_of_mem_filter x hx)

@[simp] theorem mem_close {fds : Fds} {fd x : Int} : x ∈ (fds.close fd).set ↔ x ≠ fd ∧ x ∈ fds.set :=
  Finset.mem_erase

@[simp] theorem mem_outside {fds : Fds} {lo hi x : Int} :
    x ∈ (fds.outside lo hi).set ↔ x ∈ fds.set ∧ ¬(lo ≤ x ∧ x ≤ hi) :=
  Finset.mem_filter

end Fds

/-- The process as far as `close_all_fds()` knows it. -/
structure Process where
  fds : Fds
  /-- `have_close_range`, assumed until it turns out to be missing. -/
  haveCloseRange : Bool := true

/-- What the system provides otherwise: RLIMIT_NOFILE and memory. -/
structure Limits where
  getrlimit : Except Errno (Nat × Nat)
  malloc : Bool

/-! ## close_range() -/

def closeLoop : Nat → Nat → Nat → Fds → Option Fds
  | 0, _, _, _ => none
  | n + 1, fd, last, fds =>
    if fd ≤ last then closeLoop n ((fd + 1) % 2 ^ 32) last (fds.close (toSigned fd)) else some fds

/-- `close_range()`; with an error number when it returns -1. -/
def closeRange (n first last : Nat) (p : Process) : Option (Process × Option Errno) :=
  if first > last then some (p, some .einval)
  else (closeLoop n first last p.fds).map fun fds => ({ p with fds }, none)

/-! ## close_all_fds() -/

/-- What a failed `close_range()` means: it is not there, or the error is returned. -/
def rangeFailed {α : Type} (p : Process) (e : Errno) (missing : α) : Process × Except Errno α :=
  if e.isNotSupported || e.isPrivilege then ({ p with haveCloseRange := false }, .ok missing)
  else (p, .error e)

def rangeDone {α : Type} (worked missing : α) : Process × Option Errno → Process × Except Errno α
  | (p, none) => (p, .ok worked)
  | (p, some e) => rangeFailed p e missing

def closeEverything (n : Nat) (p : Process) : Option (Process × Except Errno Bool) :=
  (closeRange n 3 (toUnsigned intMax) p).map (rangeDone true false)

def closeBelow (n : Nat) (e : Int) (p : Process) : Option (Process × Option Errno) :=
  if e ≤ 3 then some (p, none) else closeRange n 3 (toUnsigned (e - 1)) p

def closeAbove (n : Nat) (e : Int) (p : Process) : Option (Process × Option Errno) :=
  if e ≥ intMax then some (p, none)
  else closeRange n (toUnsigned (max 3 (e + 1))) (toUnsigned (-1)) p

def closeAllButOne (n : Nat) (e : Int) (p : Process) : Option (Process × Except Errno Bool) :=
  match closeBelow n e p with
  | none => none
  | some (p, some errno) => some (rangeFailed p errno false)
  | some (p, none) => (closeAbove n e p).map (rangeDone true false)

/-- The cases that need no sorting; tells whether it was one of them and worked. -/
def closeAllFdsSpecialCase (n : Nat) (except : List CInt) (p : Process) : Option (Process × Except Errno Bool) :=
  if !p.haveCloseRange then some (p, .ok false)
  else
    match except with
    | [] => closeEverything n p
    | [e] => if e.val < 0 then closeEverything n p else closeAllButOne n e.val p
    | _ => some (p, .ok false)

/-- Closes what lies between neighbours, with 2 in place of everything below. -/
def closeGaps (n : Nat) : List Int → Process → Option (Process × Option Errno)
  | a :: b :: rest, p =>
    let first := max a 2
    let last := max b 2
    if last - first ≤ 1 then closeGaps n (b :: rest) p
    else
      match closeRange n (toUnsigned (first + 1)) (toUnsigned (last - 1)) p with
      | none => none
      | some (p, some errno) => some (p, some errno)
      | some (p, none) => closeGaps n (b :: rest) p
  | _, p => some (p, none)

def closeBeyond (n : Nat) (last : Int) (p : Process) : Option (Process × Option Errno) :=
  if last ≥ intMax then some (p, none)
  else closeRange n (toUnsigned (last + 1)) (toUnsigned intMax) p

/-- The exceptions and 2, sorted. -/
def sortedExceptions (except : List CInt) : List Int :=
  (except.map CInt.val ++ [2]).insertionSort (· ≤ ·)

/-- Closes the gaps between the exceptions and what lies beyond; tells whether that
worked. -/
def closeAroundSorted (n : Nat) (sorted : List Int) (p : Process) : Option (Process × Except Errno Bool) :=
  match closeGaps n sorted p with
  | none => none
  | some (p, some errno) => some (rangeFailed p errno false)
  | some (p, none) => (closeBeyond n (sorted.getLastD 2) p).map (rangeDone true false)

def fdInSet (fd : Int) (fdset : List CInt) : Bool := fdset.any fun e => 0 ≤ e.val && e.val = fd

def fdSetsize : Nat := 1024

/-- `RLIM_INFINITY` -/
def rlimInfinity : Nat := 2 ^ 63 - 1

def getMaxFd (limits : Limits) : Except Errno Int :=
  match limits.getrlimit with
  | .error e => .error e
  | .ok (cur, max) =>
    let m := Nat.max cur max
    if m < fdSetsize then .ok (fdSetsize - 1)
    else if m = rlimInfinity ∨ (m : Int) > intMax then .ok intMax
    else .ok (m - 1)

def maxFdLoopLimit : Int := 1024 * 1024

def frugalLoop (except : List CInt) (maxFd : Int) : Nat → Int → Fds → Option Fds
  | 0, _, _ => none
  | n + 1, fd, fds =>
    if 0 ≤ fd then
      frugalLoop except maxFd n (if fd < maxFd then fd + 1 else -1)
        (if fdInSet fd except then fds else fds.close fd)
    else some fds

def closeAllFdsFrugal (limits : Limits) (n : Nat) (except : List CInt) (p : Process) :
    Option (Process × Except Errno Unit) :=
  match getMaxFd limits with
  | .error e => some (p, .error e)
  | .ok maxFd =>
    if maxFd > maxFdLoopLimit then some (p, .error .eperm)
    else (frugalLoop except maxFd n 3 p.fds).map fun fds => ({ p with fds }, .ok ())

/-- Arrays of up to 64 elements go on the stack. -/
def Limits.hasRoom (limits : Limits) (nSorted : Nat) : Bool := nSorted ≤ 64 || limits.malloc

def closeAllFds (limits : Limits) (n : Nat) (except : List CInt) (p : Process) :
    Option (Process × Except Errno Unit) :=
  match closeAllFdsSpecialCase n except p with
  | none => none
  | some (p, .error e) => some (p, .error e)
  | some (p, .ok true) => some (p, .ok ())
  | some (p, .ok false) =>
    if p.haveCloseRange && limits.hasRoom (except.length + 1) then
      match closeAroundSorted n (sortedExceptions except) p with
      | none => none
      | some (p, .error e) => some (p, .error e)
      | some (p, .ok true) => some (p, .ok ())
      | some (p, .ok false) => closeAllFdsFrugal limits n except p
    else closeAllFdsFrugal limits n except p

/-! ## Ranges -/

theorem toUnsigned_of_range {x : Int} (lower : 0 ≤ x) (upper : x ≤ intMax) : (toUnsigned x : Int) = x := by
  unfold toUnsigned
  unfold intMax at upper
  omega

theorem toUnsigned_neg_one : toUnsigned (-1) = 2 ^ 32 - 1 := by decide

section Ranges

variable {n first last : Nat} {p : Process} {fds : Fds}

theorem closeLoop_outside (order : first ≤ last + 1) (small : last + 1 < 2 ^ 32)
    (enough : last + 2 ≤ n + first) : closeLoop n first last fds = some (fds.outside first last) := by
  induction n generalizing first fds with
  | zero => omega
  | succ n ih =>
    unfold closeLoop
    split
    · have next : (first + 1) % 2 ^ 32 = first + 1 := Nat.mod_eq_of_lt (by omega)
      rw [ih (by omega) (by omega)]
      congr 1
      ext x
      rw [Fds.mem_outside, Fds.mem_close, and_comm (a := x ≠ _), and_assoc, Fds.mem_outside]
      refine and_congr_right fun member => ?_
      have := fds.range x member
      unfold intMax at this
      unfold toSigned
      split <;> omega
    · congr 1
      ext x
      rw [Fds.mem_outside, iff_self_and]
      omega

/-- The largest number is never exceeded: the loop wraps around and goes on. -/
theorem closeLoop_diverges (small : first < 2 ^ 32) : closeLoop n first (2 ^ 32 - 1) fds = none := by
  induction n generalizing first fds with
  | zero => rfl
  | succ n ih =>
    unfold closeLoop
    rw [if_pos (by omega)]
    exact ih (Nat.mod_lt _ (by decide))

theorem closeRange_between {lo hi : Int} (lower : 0 ≤ lo) (order : lo ≤ hi) (upper : hi ≤ intMax)
    (enough : 2 ^ 32 ≤ n) : closeRange n (toUnsigned lo) (toUnsigned hi) p =
      some ({ p with fds := p.fds.outside lo hi }, none) := by
  have hlo := toUnsigned_of_range lower (order.trans upper)
  have hhi := toUnsigned_of_range (lower.trans order) upper
  unfold intMax at upper
  rw [closeRange, if_neg (by omega), closeLoop_outside (by omega) (by omega) (by omega), hlo, hhi]
  rfl

theorem closeAbove_diverges {e : Int} (lower : 0 ≤ e) (upper : e < intMax) : closeAbove n e p = none := by
  unfold closeAbove
  rw [if_neg (by omega), toUnsigned_neg_one, closeRange]
  have range : (toUnsigned (max 3 (e + 1)) : Int) = max 3 (e + 1) :=
    toUnsigned_of_range (by omega) (by unfold intMax at *; omega)
  unfold intMax at upper
  rw [if_neg (by omega), closeLoop_diverges (by omega)]
  rfl

/-- A range that is not empty gives no error. -/
theorem closeBelow_no_error {e : Int} {p' : Process} {errno : Errno} (upper : e ≤ intMax) :
    closeBelow n e p ≠ some (p', some errno) := by
  unfold closeBelow
  split
  · simp
  · have range : (toUnsigned (e - 1) : Int) = e - 1 := toUnsigned_of_range (by omega) (by omega)
    rw [closeRange, if_neg (by omega)]
    simp

end Ranges

/-! ## Every path -/

section Paths

variable {limits : Limits} {n : Nat} {except : List CInt} {fds : Fds} {p : Process}

/-- The descriptors that shall stay open. -/
def Fds.kept (fds : Fds) (except : List CInt) : Finset Int :=
  fds.set.filter fun fd => fd < 3 ∨ fd ∈ except.map CInt.val

@[simp] theorem Fds.mem_kept {x : Int} : x ∈ fds.kept except ↔ x ∈ fds.set ∧ (x < 3 ∨ x ∈ except.map CInt.val) :=
  Finset.mem_filter

theorem closeEverything_keeps (enough : 2 ^ 32 ≤ n) :
    ∃ p', closeEverything n p = some (p', .ok true) ∧ ∀ x, x ∈ p'.fds.set ↔ x ∈ p.fds.set ∧ x < 3 := by
  refine ⟨{ p with fds := p.fds.outside 3 intMax }, ?_, fun x => ?_⟩
  · have three : toUnsigned 3 = 3 := by decide
    rw [closeEverything, ← three, closeRange_between (by omega) (by decide) (le_refl _) enough]
    rfl
  · rw [Fds.mem_outside]
    refine and_congr_right fun member => ?_
    have := p.fds.range x member
    omega

/-- With the largest possible exception nothing is left to close above it. -/
theorem closeAllButOne_intMax (enough : 2 ^ 32 ≤ n) : ∃ p', closeAllButOne n intMax p = some (p', .ok true) ∧
      ∀ x, x ∈ p'.fds.set ↔ x ∈ p.fds.set ∧ (x < 3 ∨ x = intMax) := by
  refine ⟨{ p with fds := p.fds.outside 3 (intMax - 1) }, ?_, fun x => ?_⟩
  · have three : toUnsigned 3 = 3 := by decide
    have below : closeBelow n intMax p =
        some ({ p with fds := p.fds.outside 3 (intMax - 1) }, none) := by
      rw [closeBelow, if_neg (by decide), ← three, closeRange_between (by omega) (by decide) (by omega) enough]
    rw [closeAllButOne, below]
    simp [closeAbove, rangeDone]
  · rw [Fds.mem_outside]
    refine and_congr_right fun member => ?_
    have := p.fds.range x member
    omega

theorem closeAllButOne_diverges {e : CInt} (lower : 0 ≤ e.val) (upper : e.val < intMax) :
    closeAllButOne n e.val p = none := by
  unfold closeAllButOne
  split
  · rfl
  · rename_i failed
    exact absurd failed (closeBelow_no_error e.upper)
  · rw [closeAbove_diverges lower upper]
    rfl

/-- The last of sorted numbers is one of them, and none is larger. -/
theorem getLastD_greatest (a : Int) (l : List Int) (sorted : (a :: l).Pairwise (· ≤ ·)) :
    l.getLastD a ∈ a :: l ∧ ∀ x ∈ a :: l, x ≤ l.getLastD a := by
  induction l generalizing a with
  | nil => simp
  | cons b rest ih =>
    obtain ⟨least, sorted'⟩ := pairwise_cons.mp sorted
    obtain ⟨member, greatest⟩ := ih b sorted'
    rw [getLastD_cons]
    exact ⟨mem_cons_of_mem a member, forall_mem_cons.mpr ⟨(least b (by simp)).trans (greatest b (by simp)), greatest⟩⟩

/-- Between the first and the last of the sorted numbers, only they stay. -/
theorem closeGaps_keeps (enough : 2 ^ 32 ≤ n) (a : Int) (l : List Int) (p : Process)
    (sorted : (a :: l).Pairwise (· ≤ ·)) (small : ∀ x ∈ a :: l, x ≤ intMax) :
    ∃ p', closeGaps n (a :: l) p = some (p', none) ∧ ∀ x, x ∈ p'.fds.set ↔
        x ∈ p.fds.set ∧ (x ≤ max a 2 ∨ max (l.getLastD a) 2 ≤ x ∨ x ∈ a :: l) := by
  induction l generalizing a p with
  | nil =>
    refine ⟨p, rfl, fun x => ?_⟩
    rw [getLastD_nil, iff_self_and]
    omega
  | cons b rest ih =>
    have order : a ≤ b := (pairwise_cons.mp sorted).1 b (by simp)
    have sorted' := (pairwise_cons.mp sorted).2
    have upper : b ≤ intMax := small b (by simp)
    have last : b ≤ rest.getLastD b := (getLastD_greatest b rest sorted').2 b (by simp)
    have least : ∀ x ∈ b :: rest, b ≤ x := forall_mem_cons.mpr ⟨le_refl _, (pairwise_cons.mp sorted').1⟩
    -- the first gap is closed, whether it is empty or not
    obtain ⟨p₁, stepped, kept₁⟩ : ∃ p₁, closeGaps n (a :: b :: rest) p = closeGaps n (b :: rest) p₁ ∧
        ∀ x, x ∈ p₁.fds.set ↔ x ∈ p.fds.set ∧ (x ≤ max a 2 ∨ max b 2 ≤ x) := by
      rw [closeGaps]
      split
      · refine ⟨p, rfl, fun x => ?_⟩
        rw [iff_self_and]
        omega
      · rw [closeRange_between (by omega) (by omega) (by omega) enough]
        refine ⟨_, rfl, fun x => ?_⟩
        rw [Fds.mem_outside]
        exact and_congr_right fun _ => by omega
    obtain ⟨p', done, kept'⟩ := ih b p₁ sorted' fun x hx => small x (mem_cons_of_mem a hx)
    refine ⟨p', stepped.trans done, fun x => ?_⟩
    rw [kept', kept₁, getLastD_cons, and_assoc]
    refine and_congr_right fun _ => ⟨?_, ?_⟩
    · rintro ⟨near, far | far | far⟩
      · by_cases same : x = b
        · exact .inr (.inr (by simp [same]))
        · exact .inl (by omega)
      · exact .inr (.inl far)
      · exact .inr (.inr (mem_cons_of_mem a far))
    · rintro (near | far | listed)
      · exact ⟨.inl near, .inl (by omega)⟩
      · exact ⟨by omega, .inr (.inl far)⟩
      · rcases mem_cons.mp listed with rfl | listed
        · exact ⟨by omega, .inl (by omega)⟩
        · have := least x listed
          exact ⟨by omega, .inr (.inr listed)⟩

theorem closeBeyond_keeps {z : Int} (enough : 2 ^ 32 ≤ n) (lower : 2 ≤ z) :
    ∃ p', closeBeyond n z p = some (p', none) ∧ ∀ x, x ∈ p'.fds.set ↔ x ∈ p.fds.set ∧ x ≤ z := by
  unfold closeBeyond
  split
  · refine ⟨p, rfl, fun x => ?_⟩
    rw [iff_self_and]
    exact fun member => (p.fds.range x member).2.trans (by omega)
  · rw [closeRange_between (by omega) (by omega) (le_refl _) enough]
    refine ⟨_, rfl, fun x => ?_⟩
    rw [Fds.mem_outside]
    refine and_congr_right fun member => ?_
    have := p.fds.range x member
    omega

theorem mem_sortedExceptions {x : Int} : x ∈ sortedExceptions except ↔ x ∈ except.map CInt.val ∨ x = 2 := by
  rw [sortedExceptions]
  simp

theorem closeAroundSorted_keeps (except : List CInt) (enough : 2 ^ 32 ≤ n) :
    ∃ p', closeAroundSorted n (sortedExceptions except) p = some (p', .ok true) ∧
      ∀ x, x ∈ p'.fds.set ↔ x ∈ p.fds.set ∧ (x < 3 ∨ x ∈ except.map CInt.val) := by
  have sorted : (sortedExceptions except).Pairwise (· ≤ ·) := pairwise_insertionSort _ _
  have members : ∀ x, x ∈ sortedExceptions except ↔ _ := fun x => mem_sortedExceptions
  have small : ∀ x ∈ sortedExceptions except, x ≤ intMax := by
    intro x hx
    rcases (members x).mp hx with listed | rfl
    · obtain ⟨e, -, rfl⟩ := mem_map.mp listed
      exact e.upper
    · decide
  obtain ⟨a, l, list⟩ : ∃ a l, sortedExceptions except = a :: l := by
    cases h : sortedExceptions except with
    | nil => exact absurd ((members 2).mpr (Or.inr rfl)) (by simp [h])
    | cons a l => exact ⟨a, l, rfl⟩
  rw [list] at sorted members small ⊢
  have least : ∀ x ∈ a :: l, a ≤ x := forall_mem_cons.mpr ⟨le_refl _, (pairwise_cons.mp sorted).1⟩
  obtain ⟨inside, greatest⟩ := getLastD_greatest a l sorted
  have two := (members 2).mpr (Or.inr rfl)
  have first : max a 2 = 2 := max_eq_right (least 2 two)
  have last : max (l.getLastD a) 2 = l.getLastD a := max_eq_left (greatest 2 two)
  obtain ⟨p₁, gaps, kept⟩ := closeGaps_keeps enough a l p sorted small
  rw [last] at kept
  obtain ⟨p', beyond, kept'⟩ := closeBeyond_keeps (p := p₁) enough (greatest 2 two)
  refine ⟨p', ?_, fun x => ?_⟩
  · simp only [closeAroundSorted, gaps, getLastD_cons, beyond]
    rfl
  have low_or_listed : ∀ {x}, x ∈ a :: l → x < 3 ∨ x ∈ except.map CInt.val := by
    intro x hx
    rcases (members x).mp hx with listed | rfl
    · exact Or.inr listed
    · exact Or.inl (by decide)
  rw [kept', kept]
  constructor
  · rintro ⟨⟨member, near⟩, below⟩
    refine ⟨member, ?_⟩
    rcases near with near | near | near
    · exact Or.inl (by omega)
    · obtain rfl : x = l.getLastD a := le_antisymm below near
      exact low_or_listed inside
    · exact low_or_listed near
  · rintro ⟨member, low | listed⟩
    · exact ⟨⟨member, Or.inl (by omega)⟩, by have := greatest 2 two; omega⟩
    · have here := (members x).mpr (Or.inl listed)
      exact ⟨⟨member, Or.inr (Or.inr here)⟩, greatest x here⟩

/-! ## Without memory -/

theorem fdInSet_iff {fd : Int} (lower : 0 ≤ fd) : fdInSet fd except = true ↔ fd ∈ except.map CInt.val := by
  simp only [fdInSet, any_eq_true, Bool.and_eq_true, decide_eq_true_eq, mem_map]
  constructor
  · rintro ⟨e, he, -, same⟩
    exact ⟨e, he, same⟩
  · rintro ⟨e, he, same⟩
    exact ⟨e, he, same ▸ lower, same⟩

/-- The loop over all numbers up to `maxFd` ends and closes what is not listed. -/
theorem frugalLoop_keeps (except : List CInt) (maxFd : Int) (n : Nat) (fds : Fds) {fd : Int} (lower : 0 ≤ fd) :
    (∀ fds', frugalLoop except maxFd n fd fds = some fds' → ∀ x, x ∈ fds'.set ↔
      x ∈ fds.set ∧ (x < fd ∨ max fd maxFd < x ∨ x ∈ except.map CInt.val)) ∧
    (max fd maxFd + 2 ≤ n + fd → ∃ fds', frugalLoop except maxFd n fd fds = some fds') := by
  induction n generalizing fd fds with
  | zero => exact ⟨by simp [frugalLoop], by omega⟩
  | succ n ih =>
    unfold frugalLoop
    rw [if_pos lower]
    have closed : ∀ x, x ∈ (if fdInSet fd except then fds else fds.close fd).set ↔
        x ∈ fds.set ∧ (x ≠ fd ∨ x ∈ except.map CInt.val) := by
      intro x
      by_cases same : x = fd
      · subst same
        by_cases listed : fdInSet x except = true
        · simpa [listed] using fun _ => (fdInSet_iff lower).mp listed
        · have := mt (fdInSet_iff lower).mpr listed
          simp only [listed, Bool.false_eq_true, if_false, Fds.mem_close]
          tauto
      · split <;> simp [same]
    split
    · obtain ⟨spec, ends⟩ := ih (if fdInSet fd except then fds else fds.close fd)
        (by omega : (0 : Int) ≤ fd + 1)
      refine ⟨fun fds' done x => ?_, fun enough => ends (by omega)⟩
      rw [spec fds' done x, closed, and_assoc]
      refine and_congr_right fun _ => ?_
      by_cases listed : x ∈ except.map CInt.val
      · simp [listed]
      · simp only [listed, or_false]
        omega
    · rename_i last
      -- -1 ends the loop in the round after
      cases n with
      | zero => exact ⟨by simp [frugalLoop], by omega⟩
      | succ n =>
        have ended : ∀ fds, frugalLoop except maxFd (n + 1) (-1) fds = some fds := fun _ => rfl
        refine ⟨fun fds' done x => ?_, fun _ => ⟨_, rfl⟩⟩
        obtain rfl := Option.some.inj done
        rw [closed, show x ≠ fd ↔ x < fd ∨ max fd maxFd < x by omega, or_assoc]

theorem getMaxFd_ge {maxFd : Int} (limit : getMaxFd limits = .ok maxFd) : 1023 ≤ maxFd := by
  unfold getMaxFd at limit
  split at limit
  · simp at limit
  · dsimp only at limit
    unfold fdSetsize intMax at limit
    split_ifs at limit <;> simp only [Except.ok.injEq] at limit <;> omega

/-- What the loop over all numbers needs to get right what is still to be closed. -/
def Limits.Covers (limits : Limits) (fds : Fds) (except : List CInt) : Prop :=
  ∀ fd ∈ fds.set, 3 ≤ fd → fd ∉ except.map CInt.val →
    ∃ maxFd, getMaxFd limits = .ok maxFd ∧ maxFd ≤ maxFdLoopLimit ∧ fd ≤ maxFd

theorem eq_kept {s : Finset Int}
    (members : ∀ x, x ∈ s ↔ x ∈ fds.set ∧ (x < 3 ∨ x ∈ except.map CInt.val)) : s = fds.kept except := by
  ext x
  rw [members, Fds.mem_kept]

/-- A call that closes nothing is right only if there is nothing to close. -/
theorem refused_iff {e : Errno} (refused : ∀ maxFd, getMaxFd limits = .ok maxFd → maxFdLoopLimit < maxFd) :
    (∃ (_ : Nat) (p' : Process) (r : Except Errno Unit),
      some (p, .error e) = some (p', r) ∧ p'.fds.set = p.fds.kept except) ↔ limits.Covers p.fds except := by
  constructor
  · rintro ⟨n, p', r, done, unchanged⟩ fd member high unlisted
    cases done
    rw [unchanged, Fds.mem_kept] at member
    rcases member.2 with low | listed
    · omega
    · exact absurd listed unlisted
  · intro covers
    refine ⟨0, p, .error e, rfl, eq_kept fun x => ⟨fun member => ⟨member, ?_⟩, And.left⟩⟩
    by_contra neither
    obtain ⟨high, unlisted⟩ := not_or.mp neither
    obtain ⟨maxFd, found, small, -⟩ := covers x member (by omega) unlisted
    have := refused maxFd found
    omega

theorem frugal_keeps_iff :
    (∃ n p' r, closeAllFdsFrugal limits n except p = some (p', r) ∧ p'.fds.set = p.fds.kept except) ↔
      limits.Covers p.fds except := by
  unfold closeAllFdsFrugal
  cases limit : getMaxFd limits with
  | error e => exact refused_iff (by simp [limit])
  | ok maxFd =>
    by_cases large : maxFd > maxFdLoopLimit
    · simp only [large]
      exact refused_iff (by simpa [limit] using large)
    · simp only [large, if_false, Option.map_eq_some_iff, Prod.mk.injEq]
      have loop := fun n => frugalLoop_keeps except maxFd n p.fds (by omega : (0 : Int) ≤ 3)
      constructor
      · rintro ⟨n, p', r, ⟨fds', done, rfl, -⟩, same⟩ fd member high unlisted
        refine ⟨maxFd, limit, by omega, ?_⟩
        by_contra beyond
        have stays : fd ∈ fds'.set := ((loop n).1 fds' done fd).mpr
          ⟨member, Or.inr (Or.inl (by have := getMaxFd_ge limit; omega))⟩
        rw [same, Fds.mem_kept] at stays
        rcases stays.2 with low | listed
        · omega
        · exact unlisted listed
      · intro covers
        obtain ⟨fds', done⟩ := (loop (max 3 maxFd).toNat).2 (by omega)
        refine ⟨_, _, _, ⟨fds', done, rfl, rfl⟩, eq_kept fun x => ?_⟩
        rw [(loop _).1 fds' done x]
        refine and_congr_right fun member => ⟨?_, Or.imp_right .inr⟩
        rintro (low | high | listed)
        · exact .inl low
        · by_contra neither
          obtain ⟨low, unlisted⟩ := not_or.mp neither
          obtain ⟨_, found, -, below⟩ := covers x member (by omega) unlisted
          simp only [limit, Except.ok.injEq] at found
          omega
        · exact .inr listed

end Paths

/-! ## The whole call -/

/-- The call returns and leaves open what it should. -/
def ClosesAllBut (limits : Limits) (except : List CInt) (fds : Fds) : Prop :=
  ∃ n p' r, closeAllFds limits n except { fds } = some (p', r) ∧ p'.fds.set = fds.kept except

/-- **When `close_all_fds()` does what it says.**  A single descriptor to keep makes it loop, unless it
is invalid or the largest one; else it fails only if memory is missing and the loop over
all numbers is refused or too short. -/
theorem closeAllFds_iff (limits : Limits) (except : List CInt) (fds : Fds) :
    ClosesAllBut limits except fds ↔
      (∀ e, except = [e] → e.val < 0 ∨ e.val = intMax) ∧
      (limits.hasRoom (except.length + 1) = false → limits.Covers fds except) := by
  obtain ⟨n, enough⟩ : ∃ n : Nat, 2 ^ 32 ≤ n := ⟨2 ^ 32, le_refl _⟩
  match except with
  | [] =>
    refine ⟨fun _ => ⟨by simp, by simp [Limits.hasRoom]⟩, fun _ => ?_⟩
    obtain ⟨p', done, kept⟩ := closeEverything_keeps (p := { fds }) enough
    refine ⟨n, p', .ok (), ?_, eq_kept (by simpa using kept)⟩
    simp [closeAllFds, closeAllFdsSpecialCase, done]
  | [e] =>
    have room : limits.hasRoom ([e].length + 1) = true := by simp [Limits.hasRoom]
    rw [room]
    simp only [List.cons.injEq, and_true, forall_eq', Bool.true_eq_false, false_implies]
    by_cases invalid : e.val < 0
    · refine ⟨fun _ => Or.inl invalid, fun _ => ?_⟩
      obtain ⟨p', done, kept⟩ := closeEverything_keeps (p := { fds }) enough
      refine ⟨n, p', .ok (), by simp [closeAllFds, closeAllFdsSpecialCase, invalid, done],
        eq_kept fun x => ?_⟩
      rw [kept, map_singleton, mem_singleton]
      refine and_congr_right fun member => ?_
      omega
    by_cases top : e.val = intMax
    · refine ⟨fun _ => Or.inr top, fun _ => ?_⟩
      obtain ⟨p', done, kept⟩ := closeAllButOne_intMax (p := { fds }) enough
      refine ⟨n, p', .ok (), ?_, eq_kept (by simpa [top] using kept)⟩
      rw [← top] at done
      simp [closeAllFds, closeAllFdsSpecialCase, invalid, done]
    · refine ⟨?_, fun h => absurd h (by simp [invalid, top])⟩
      rintro ⟨n', p', r, done, -⟩
      have upper : e.val < intMax := lt_of_le_of_ne e.upper top
      simp [closeAllFds, closeAllFdsSpecialCase, invalid,
        closeAllButOne_diverges (not_lt.mp invalid) upper] at done
  | a :: b :: rest =>
    have several : ∀ n, closeAllFdsSpecialCase n (a :: b :: rest) { fds } = some ({ fds }, .ok false) :=
      fun _ => rfl
    rw [← frugal_keeps_iff (p := { fds })]
    unfold ClosesAllBut closeAllFds
    simp only [several]
    cases room : limits.hasRoom ((a :: b :: rest).length + 1) with
    | false => simp
    | true =>
      refine ⟨fun _ => ⟨by simp, by simp⟩, fun _ => ?_⟩
      obtain ⟨p', done, kept⟩ :=
        closeAroundSorted_keeps (p := { fds }) (a :: b :: rest) enough
      exact ⟨n, p', .ok (), by simp [done], eq_kept kept⟩

/-- Five descriptors are open and the fourth one is to be kept. -/
theorem keepOne_diverges :
    let limits : Limits := ⟨.ok (256, 10240), true⟩
    let except : List CInt := [⟨3, by decide, by decide⟩]
    let fds : Fds := ⟨{0, 1, 2, 3, 4}, by decide⟩
    (∀ n, closeAllFds limits n except { fds } = none) ∧ ¬ ClosesAllBut limits except fds := by
  intro limits except fds
  have never : ∀ n, closeAllFds limits n except { fds } = none := by
    intro n
    have diverges : closeAllButOne n 3 { fds } = none :=
      closeAllButOne_diverges (e := ⟨3, by decide, by decide⟩) (by decide) (by decide)
    simp [closeAllFds, closeAllFdsSpecialCase, except, diverges]
  refine ⟨never, ?_⟩
  rintro ⟨n, p', r, done, -⟩
  simp [never n] at done

end SystemdPort.Basic
