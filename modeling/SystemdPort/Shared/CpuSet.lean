/-
# Shared.CpuSet — sets of CPU numbers

`src/shared/cpu-set-util.c` over the macros of the port's `sys_compat/cpu-set.h`.  A
`CPUSet` owns one block of `allocated` bytes, whose first 16 are a `cpu_set_t`: the
number of CPUs, an alias of it, and a pointer to an array of 64-bit words.  The heap is
the memory such pointers lead to.

`cpu_set_realloc()` zeroes what it adds to the block, so the number of CPUs in it is 0
from the start and nothing changes it.  The macros then neither set nor see a bit:
`cpuSets_iff` says that a set holds what was added to it only if that was nothing.
-/
import SystemdPort.Basic.ParseUtil
import SystemdPort.Lib.Bytes
import SystemdPort.Lib.Exec

namespace SystemdPort.Shared

open Basic Lib Lib.Exec Function

set_option autoImplicit false

/-! ## cpu_set_t -/

/-- The 64-bit word at an address. -/
abbrev Heap := Nat → UInt64

/-- `sizeof(cpu_set_t)` -/
def sizeofCpuSetT : Nat := 16

/-- `c->ncpus` -/
def ncpusField (c : List UInt8) : Nat := ofLittleEndian (c.take 4)

/-- `c->bits` -/
def bitsField (c : List UInt8) : Nat := ofLittleEndian ((c.drop 8).take 8)

def wordAddress (c : List UInt8) (cpu : Nat) : Nat := bitsField c + 8 * (cpu / 64)

/-- `CPU_ALLOC_SIZE()` -/
def cpuAllocSize (ncpus : Nat) : Nat := sizeofCpuSetT + 8 * ((ncpus + 63) / 64)

/-- `CPU_ISSET_S()` -/
def cpuIssetS (heap : Heap) (c : List UInt8) (cpu : Nat) : Bool :=
  if cpu < ncpusField c then (heap (wordAddress c cpu)).toNat.testBit (cpu % 64) else false

/-- `CPU_SET_S()` -/
def cpuSetS (heap : Heap) (c : List UInt8) (cpu : Nat) : Heap :=
  if cpu < ncpusField c then
    let a := wordAddress c cpu
    update heap a (heap a ||| (1 <<< (cpu % 64).toUInt64))
  else heap

/-! ## CPUSet -/

structure CPUSet where
  set : Option (List UInt8)
  allocated : Nat
  /-- The block has the size noted, and room for a `cpu_set_t`. -/
  block : match set with
    | none => allocated = 0
    | some c => c.length = allocated ∧ sizeofCpuSetT ≤ allocated

/-- `(CPUSet) {}` -/
def CPUSet.empty : CPUSet := ⟨none, 0, rfl⟩

/-- What the macros see of a set; nothing calls them for one without a block. -/
def CPUSet.isSet (heap : Heap) (s : CPUSet) (cpu : Nat) : Bool :=
  match s.set with
  | none => false
  | some c => cpuIssetS heap c cpu

/-- What `realloc()` does for a size: it fails, or the bytes added have some contents. -/
abbrev Alloc := Nat → Option (Nat → UInt8)

def memzero (t : List UInt8) (offset n : Nat) : List UInt8 :=
  t.take offset ++ List.replicate n 0 ++ t.drop (offset + n)

def reallocBytes (old : List UInt8) (junk : Nat → UInt8) (need : Nat) : List UInt8 :=
  old ++ (List.range (need - old.length)).map junk

theorem CPUSet.set_length (s : CPUSet) : (s.set.getD []).length = s.allocated := by
  have block := s.block
  cases h : s.set with
  | none => simp_all
  | some c => simp_all

theorem length_memzero {t : List UInt8} {offset n : Nat} (fits : offset + n ≤ t.length) :
    (memzero t offset n).length = t.length := by
  simp [memzero]
  omega

variable {need cpu : Nat} {s s' : CPUSet} {alloc : Alloc}

theorem length_reallocBytes {old : List UInt8} {junk : Nat → UInt8} (grows : old.length ≤ need) :
    (reallocBytes old junk need).length = need := by
  simp [reallocBytes]
  omega

def cpuSetRealloc (alloc : Alloc) (s : CPUSet) (ncpus : Nat) : Except Errno CPUSet :=
  let need := cpuAllocSize ncpus
  if grows : s.allocated < need then
    match alloc need with
    | none => .error .enomem
    | some junk =>
      let t := reallocBytes (s.set.getD []) junk need
      .ok ⟨some (memzero t s.allocated (need - s.allocated)), need, by
        have whole : t.length = need := length_reallocBytes (by rw [s.set_length]; omega)
        exact ⟨by rw [length_memzero] <;> omega, by simp [need, cpuAllocSize]⟩⟩
  else .ok s

def cpuSetAdd (alloc : Alloc) (heap : Heap) (s : CPUSet) (cpu : Nat) : Except Errno (Heap × CPUSet) :=
  if 8192 ≤ cpu then .error .erange
  else do
    let s ← cpuSetRealloc alloc s (cpu + 1)
    .ok (match s.set with | none => heap | some c => cpuSetS heap c cpu, s)

/-! ## Several sets -/

/-- The sets a program has, by name. -/
structure Memory where
  heap : Heap
  sets : Nat → CPUSet

def Memory.add (alloc : Alloc) (m : Memory) (v cpu : Nat) : Except Errno Memory := do
  let (heap, s) ← cpuSetAdd alloc m.heap (m.sets v) cpu
  .ok ⟨heap, update m.sets v s⟩

/-- The loop of `cpu_set_add_all()`, downwards from `cpu_p1`. -/
def addAllBelow (alloc : Alloc) (a b : Nat) : Nat → Memory → Except Errno Memory
  | 0, m => .ok m
  | cpu + 1, m =>
    if (m.sets b).isSet m.heap cpu then do addAllBelow alloc a b cpu (← m.add alloc a cpu)
    else addAllBelow alloc a b cpu m

def cpuSetAddAll (alloc : Alloc) (m : Memory) (a b : Nat) : Except Errno Memory :=
  addAllBelow alloc a b ((m.sets b).allocated * 8) m

/-! ## Text and D-Bus -/

structure RangeState where
  range : Option (Nat × Nat) := none
  str : CString := []

/-- `sprintf(str + len, len > 0 ? " %u-%u" : "%u-%u", …)`, or with one number. -/
def RangeState.print (st : RangeState) : CString :=
  match st.range with
  | none => st.str
  | some (lo, hi) =>
    st.str ++ (if st.str.length > 0 then [32] else []) ++
      if hi > lo then decimal lo ++ [chr '-'] ++ decimal hi else decimal lo

def RangeState.step (isSet : Nat → Bool) (st : RangeState) (i : Nat) : RangeState :=
  if isSet i then
    match st.range with
    | some (lo, hi) => { st with range := some (lo, hi + 1) }
    | none => { st with range := some (i, i) }
  else
    match st.range with
    | some _ => ⟨none, st.print⟩
    | none => st

def cpuSetToRangeString (heap : Heap) (s : CPUSet) : CString :=
  ((List.range (s.allocated * 8)).foldl (RangeState.step (s.isSet heap)) {}).print

/-- The loop over a range of numbers, downwards from `cpu_p1`. -/
def addRange (alloc : Alloc) (lower : Nat) : Nat → Heap × CPUSet → Except Errno (Heap × CPUSet)
  | 0, st => .ok st
  | cpu + 1, (heap, s) =>
    if lower < cpu + 1 then do addRange alloc lower cpu (← cpuSetAdd alloc heap s cpu)
    else .ok (heap, s)

def parseWord (alloc : Alloc) (word : CString) : Heap × CPUSet → Except Errno (Heap × CPUSet)
  | (heap, s) => do
      let (lower, upper) ← parseRange word
      let s ← if lower > upper then cpuSetRealloc alloc s 1 else .ok s
      addRange alloc lower (min upper (2 ^ 32 - 2) + 1) (heap, s)

def cpuSeparators : CString := whitespace ++ [chr ',']

def parseWords (alloc : Alloc) (p : CString) (st : Heap × CPUSet) : Except Errno (Heap × CPUSet) :=
  match _extracted : extractFirstWord { unquote := true } cpuSeparators (some p) with
  | .error e => .error e
  | .ok (none, _) => .ok st
  | .ok (some word, none) => parseWord alloc word st
  | .ok (some word, some next) => do parseWords alloc next (← parseWord alloc word st)
  termination_by p.length
  decreasing_by exact extractFirstWord_length rfl _extracted

/-- The set parsed, which is stored only if all went well. -/
def parseCpuSetFull (alloc : Alloc) (heap : Heap) (rvalue : CString) :
    Except Errno (Heap × CPUSet) := parseWords alloc rvalue (heap, .empty)

def cpuSetToDbus (heap : Heap) (s : CPUSet) : List UInt8 :=
  (List.range (s.allocated * 8)).foldl
    (fun out cpu =>
      if s.isSet heap cpu then out.modify (cpu / 8) (· ||| (1 <<< (cpu % 8).toUInt8)) else out)
    (List.replicate s.allocated 0)

/-- The loop of `cpu_set_from_dbus()`, downwards. -/
def fromDbusBelow (alloc : Alloc) (bits : List UInt8) : Nat → Heap × CPUSet → Except Errno (Heap × CPUSet)
  | 0, st => .ok st
  | cpu + 1, (heap, s) =>
    if (bits.getD (cpu / 8) 0).toNat.testBit (cpu % 8) then do
      fromDbusBelow alloc bits cpu (← cpuSetAdd alloc heap s cpu)
    else fromDbusBelow alloc bits cpu (heap, s)

def cpuSetFromDbus (alloc : Alloc) (heap : Heap) (bits : List UInt8) : Except Errno (Heap × CPUSet) :=
  fromDbusBelow alloc bits (bits.length * 8) (heap, .empty)

/-! ## No set ever has a member -/

/-- The `cpu_set_t` of the set is for no CPUs at all. -/
def CPUSet.Blank (s : CPUSet) : Prop := ∀ c, s.set = some c → ncpusField c = 0

theorem CPUSet.blank_empty : CPUSet.empty.Blank := fun _ h => by simp [CPUSet.empty] at h

theorem CPUSet.Blank.isSet (blank : s.Blank) (heap : Heap) (cpu : Nat) : s.isSet heap cpu = false := by
  unfold CPUSet.isSet
  split
  · rfl
  · rename_i c present
    simp [cpuIssetS, blank c present]

theorem ofLittleEndian_replicate_zero (n : Nat) : ofLittleEndian (List.replicate n 0) = 0 := by
  induction n with
  | zero => rfl
  | succ n ih => simpa [ofLittleEndian, List.replicate_succ] using ih

/-- Growing a block leaves the bytes it had and adds zeros. -/
theorem memzero_reallocBytes (old : List UInt8) (junk : Nat → UInt8) :
    memzero (reallocBytes old junk need) old.length (need - old.length) =
      old ++ List.replicate (need - old.length) 0 := by
  rw [memzero]
  simp [reallocBytes]

theorem cpuSetRealloc_blank {ncpus : Nat} (blank : s.Blank) (grown : cpuSetRealloc alloc s ncpus = .ok s') :
    s'.Blank := by
  unfold cpuSetRealloc at grown
  dsimp only at grown
  split at grown
  · split at grown
    · simp at grown
    · obtain rfl := Except.ok.inj grown
      rintro c ⟨⟩
      rw [← s.set_length, memzero_reallocBytes]
      have block := s.block
      cases present : s.set with
      | none =>
        simp only [Option.getD_none, List.nil_append]
        rw [ncpusField, List.take_replicate]
        exact ofLittleEndian_replicate_zero _
      | some old =>
        simp only [present, sizeofCpuSetT] at block
        rw [ncpusField, Option.getD_some, List.take_append_of_le_length (by omega)]
        exact blank old present
  · exact Except.ok.inj grown ▸ blank

theorem cpuSetAdd_blank {heap heap' : Heap} (blank : s.Blank) (added : cpuSetAdd alloc heap s cpu = .ok (heap', s')) :
    s'.Blank := by
  unfold cpuSetAdd at added
  split at added
  · simp at added
  · obtain ⟨t, grown, done⟩ := except_bind_eq_ok.mp added
    cases done
    exact cpuSetRealloc_blank blank grown

def Memory.Blank (m : Memory) : Prop := ∀ v, (m.sets v).Blank

variable {m m' : Memory}

theorem Memory.add_blank {v : Nat} (blank : m.Blank) (added : m.add alloc v cpu = .ok m') : m'.Blank := by
  obtain ⟨st, one, done⟩ := except_bind_eq_ok.mp added
  cases done
  intro w
  by_cases same : w = v
  · subst same
    simpa using cpuSetAdd_blank (blank w) one
  · simpa [update_of_ne same] using blank w

/-- Nothing is copied from a set that has no members. -/
theorem addAllBelow_blank {a b : Nat} (blank : m.Blank) (cpuP1 : Nat) : addAllBelow alloc a b cpuP1 m = .ok m := by
  induction cpuP1 with
  | zero => rfl
  | succ cpu ih => simp [addAllBelow, (blank b).isSet, ih]

/-! ## Runs -/

inductive CpuSetCall where
  | add (alloc : Alloc) (set cpu : Nat)
  | addAll (alloc : Alloc) (a b : Nat)

namespace CpuSetCall

def run (m : Memory) : CpuSetCall → Except Errno Memory
  | add alloc set cpu => m.add alloc set cpu
  | addAll alloc a b => cpuSetAddAll alloc m a b

/-- What the sets should hold after a call. -/
def request (held : Nat → Set Nat) : CpuSetCall → Nat → Set Nat
  | add _ set cpu => update held set (insert cpu (held set))
  | addAll _ a b => update held a (held a ∪ held b)

end CpuSetCall

def runCalls (calls : List CpuSetCall) (m : Memory) : Except Errno Memory :=
  calls.foldlM CpuSetCall.run m

def requested (calls : List CpuSetCall) : Nat → Set Nat :=
  calls.foldl CpuSetCall.request fun _ => ∅

theorem run_blank {call : CpuSetCall} (blank : m.Blank) (ran : call.run m = .ok m') : m'.Blank := by
  cases call with
  | add alloc set cpu => exact Memory.add_blank blank ran
  | addAll alloc a b =>
    have same : m = m' := Except.ok.inj ((addAllBelow_blank blank _).symm.trans ran)
    exact same ▸ blank

theorem runCalls_blank {calls : List CpuSetCall} (blank : m.Blank) (ran : runCalls calls m = .ok m') : m'.Blank := by
  induction calls generalizing m with
  | nil => exact Except.ok.inj ran ▸ blank
  | cons call calls ih =>
    rw [runCalls, List.foldlM_cons] at ran
    obtain ⟨next, first, others⟩ := except_bind_eq_ok.mp ran
    exact ih (run_blank blank first) others

theorem foldl_step_blank {isSet : Nat → Bool} (none : ∀ i, isSet i = false) (is : List Nat) :
    is.foldl (RangeState.step isSet) {} = {} := by
  induction is with
  | nil => rfl
  | cons i is ih => simpa [RangeState.step, none i] using ih

theorem cpuSetToRangeString_blank (blank : s.Blank) (heap : Heap) : cpuSetToRangeString heap s = [] := by
  rw [cpuSetToRangeString, foldl_step_blank (blank.isSet heap)]
  rfl

theorem parseCpuSetFull_nil (alloc : Alloc) (heap : Heap) : parseCpuSetFull alloc heap [] = .ok (heap, .empty) := by
  rw [parseCpuSetFull, parseWords]
  rfl

theorem cpuSetToDbus_blank (blank : s.Blank) (heap : Heap) : cpuSetToDbus heap s = List.replicate s.allocated 0 := by
  simp only [cpuSetToDbus, blank.isSet heap]
  induction List.range (s.allocated * 8) with
  | nil => rfl
  | cons cpu cpus ih => simp

theorem fromDbusBelow_zeros (alloc : Alloc) (n cpuP1 : Nat) (st : Heap × CPUSet) :
    fromDbusBelow alloc (List.replicate n 0) cpuP1 st = .ok st := by
  induction cpuP1 with
  | zero => rfl
  | succ cpu ih =>
    have zero : (List.replicate n (0 : UInt8)).getD (cpu / 8) 0 = 0 := by
      simp only [List.getD_eq_getElem?_getD, List.getElem?_replicate]
      split <;> rfl
    simp only [fromDbusBelow, zero]
    simpa using ih

/-! ## The sets hold what was added only if nothing was -/

/-- A set holds the CPU numbers given, and survives the way to text and D-Bus. -/
structure Faithful (heap : Heap) (s : CPUSet) (held : Set Nat) : Prop where
  members : ∀ cpu, s.isSet heap cpu = true ↔ cpu ∈ held
  text : ∀ alloc, ∃ heap' s', parseCpuSetFull alloc heap (cpuSetToRangeString heap s) = .ok (heap', s') ∧
    ∀ cpu, s'.isSet heap' cpu = s.isSet heap cpu
  dbus : ∀ alloc, ∃ heap' s', cpuSetFromDbus alloc heap (cpuSetToDbus heap s) = .ok (heap', s') ∧
    ∀ cpu, s'.isSet heap' cpu = s.isSet heap cpu

theorem CPUSet.Blank.faithful_iff (blank : s.Blank) (heap : Heap) (held : Set Nat) :
    Faithful heap s held ↔ held = ∅ := by
  constructor
  · intro faithful
    ext cpu
    simp [← faithful.members, blank.isSet]
  · rintro rfl
    have agree : ∀ cpu, CPUSet.empty.isSet heap cpu = s.isSet heap cpu := fun cpu => by
      rw [blank.isSet, CPUSet.blank_empty.isSet]
    refine ⟨by simp [blank.isSet], fun alloc => ⟨heap, .empty, ?_, agree⟩, fun alloc => ⟨heap, .empty, ?_, agree⟩⟩
    · rw [cpuSetToRangeString_blank blank, parseCpuSetFull_nil]
    · rw [cpuSetToDbus_blank blank]
      exact fromDbusBelow_zeros alloc _ _ _

/-- After any run of successful calls that starts with empty sets, a set is right if
and only if no CPU number was to go into it. -/
theorem cpuSets_iff {calls : List CpuSetCall} {heap : Heap} {m : Memory}
    (ran : runCalls calls ⟨heap, fun _ => .empty⟩ = .ok m) (set : Nat) :
    Faithful m.heap (m.sets set) (requested calls set) ↔ requested calls set = ∅ :=
  (runCalls_blank (fun _ => CPUSet.blank_empty) ran set).faithful_iff m.heap _

/-- CPU 5 is added to one of two sets. -/
theorem cpuSets_untouched :
    let calls : List CpuSetCall := [.add (fun _ => some fun _ => 0) 1 5]
    ∃ m, runCalls calls ⟨fun _ => 0, fun _ => .empty⟩ = .ok m ∧ Faithful m.heap (m.sets 0) (requested calls 0) ∧
      ¬ Faithful m.heap (m.sets 1) (requested calls 1) := by
  intro calls
  have ran : runCalls calls ⟨fun _ => 0, fun _ => .empty⟩ = .ok _ := rfl
  exact ⟨_, ran, (cpuSets_iff ran 0).mpr (by simp [calls, requested, CpuSetCall.request]),
    mt (cpuSets_iff ran 1).mp (by simp [calls, requested, CpuSetCall.request])⟩

/-- `cpu_set_add()` of CPU 5 to an empty set succeeds, and CPU 5 is not in the set. -/
theorem cpuSets_lose_five :
    5 ∈ requested [.add (fun _ => some fun _ => 0) 0 5] 0 ∧
      ∃ m, runCalls [.add (fun _ => some fun _ => 0) 0 5] ⟨fun _ => 0, fun _ => .empty⟩ = .ok m ∧
        (m.sets 0).isSet m.heap 5 = false :=
  ⟨by simp [requested, CpuSetCall.request], _, rfl, by decide⟩

end SystemdPort.Shared
