/-
# Basic.PrioqCorrect — the priority queue is one

The items of a queue are a heap, and each variable that has the position of an item has
the right one: `Prioq.Good`, kept by every call while there are at most `2 ^ 31` items.
With more of them, a position times two does not fit in 32 bits.
-/
import SystemdPort.Basic.Prioq

namespace SystemdPort.Basic

open Lib Lib.Exec Function List
open scoped List

set_option autoImplicit false
set_option linter.unusedSectionVars false

variable {i idx j k n : Nat} {α : Type}

variable {D I : Type} [DecidableEq D] [DecidableEq I]

/-! ## The order -/

namespace Comparison

variable (cmp : Comparison D)

/-- The order of the items, with nothing above what is behind their end. -/
def below : Option D → Option D → Prop
  | _, none => True
  | none, some _ => False
  | some a, some b => cmp.compare a b ≤ 0

theorem compare_refl (a : D) : cmp.compare a a ≤ 0 := by
  by_contra above
  exact above ((cmp.flip a a).mpr (by omega))

variable {a b : D}

theorem compare_total (above : ¬ cmp.compare a b ≤ 0) : cmp.compare b a ≤ 0 := by
  have := (cmp.flip a b).not.mp above
  omega

theorem compare_of_not_lt (notLower : ¬ cmp.compare a b < 0) : cmp.compare b a ≤ 0 :=
  (cmp.flip b a).mpr (by omega)

theorem below_refl (a : Option D) : cmp.below a a := by
  cases a with
  | none => trivial
  | some a => exact cmp.compare_refl a

theorem below_trans {a b c : Option D} (first : cmp.below a b) (second : cmp.below b c) : cmp.below a c := by
  match a, b, c, first, second with
  | _, _, none, _, _ => trivial
  | some _, some _, some _, first, second => exact cmp.trans first second

end Comparison

/-! ## Swapping -/

namespace Prioq

variable {q q' : Prioq D I}

/-- What is at each position. -/
def place (q : Prioq D I) (i : Nat) : Option D := q.items[i]?.map PrioqItem.data

/-- Each item's variable has its position. -/
def Tidy (q : Prioq D I) : Prop :=
  ∀ i x s, q.items[i]? = some x → x.idx = some s → q.slots s = i

/-- The items have changed their places only. -/
structure Shuffled (q q' : Prioq D I) : Prop where
  perm : q'.items.Perm q.items
  nAllocated : q'.nAllocated = q.nAllocated
  tidy : q'.Tidy

theorem Shuffled.length (shuffled : Shuffled q q') : q'.items.length = q.items.length :=
  shuffled.perm.length_eq

theorem Shuffled.trans {q'' : Prioq D I} (first : Shuffled q q') (second : Shuffled q' q'') : Shuffled q q'' :=
  ⟨second.perm.trans first.perm, second.nAllocated.trans first.nAllocated, second.tidy⟩

@[simp] theorem note_items (idx : Option I) (k : Nat) (q : Prioq D I) : (q.note idx k).items = q.items := by
  cases idx <;> rfl

@[simp] theorem note_nAllocated (idx : Option I) (k : Nat) (q : Prioq D I) :
    (q.note idx k).nAllocated = q.nAllocated := by
  cases idx <;> rfl

theorem note_slots (idx : Option I) (k : Nat) (q : Prioq D I) (s : I) :
    (q.note idx k).slots s = if idx = some s then k else q.slots s := by
  cases idx with
  | none => rfl
  | some t =>
    show update q.slots t k s = _
    simp [update_apply, eq_comm]

variable {x : PrioqItem D I} {l : List α} {a b : α} {data : D}

theorem getItem_ok (found : q.items[i]? = some x) : getItem i q = .ok x q := by
  rw [getItem, get_bind, found]
  rfl

theorem noted_of_tidy (tidy : q.Tidy) (found : q.items[i]? = some x) : q.noted x.idx i = true := by
  unfold noted
  cases point : x.idx with
  | none => rfl
  | some s => simpa using tidy i x s found point

theorem getElem?_swap (first : l[j]? = some a) (second : l[k]? = some b) (i : Nat) :
    ((l.set j b).set k a)[i]? = l[Equiv.swap j k i]? := by
  have j_lt := (List.getElem?_eq_some_iff.mp first).1
  have k_lt := (List.getElem?_eq_some_iff.mp second).1
  by_cases atK : i = k
  · rw [atK, Equiv.swap_apply_right, getElem?_set_self (by simpa using k_lt), first]
  by_cases atJ : i = j
  · rw [atJ, Equiv.swap_apply_left, getElem?_set_ne (by omega), getElem?_set_self j_lt, second]
  · rw [Equiv.swap_apply_of_ne_of_ne atJ atK, getElem?_set_ne (by omega), getElem?_set_ne (by omega)]

theorem swap_perm (first : l[j]? = some a) (second : l[k]? = some b) : ((l.set j b).set k a).Perm l := by
  obtain ⟨j_lt, rfl⟩ := List.getElem?_eq_some_iff.mp first
  obtain ⟨k_lt, rfl⟩ := List.getElem?_eq_some_iff.mp second
  exact set_set_perm j_lt k_lt

/-- Swapping two items keeps their variables right, and no assertion fails. -/
theorem swap_ok (tidy : q.Tidy) (j_lt : j < q.items.length) (k_lt : k < q.items.length) :
    ∃ q', swap j k q = .ok ⟨⟩ q' ∧ Shuffled q q' ∧ q'.place = q.place ∘ Equiv.swap j k := by
  have atJ : q.items[j]? = some q.items[j] := getElem?_eq_getElem j_lt
  have atK : q.items[k]? = some q.items[k] := getElem?_eq_getElem k_lt
  generalize q.items[j] = a at atJ
  generalize q.items[k] = b at atK
  refine ⟨(({ q with items := (q.items.set j b).set k a } : Prioq D I).note b.idx j).note a.idx k,
    ?_, ⟨?_, ?_, ?_⟩, ?_⟩
  · rw [swap, get_bind, require_of j_lt, require_of k_lt, bind_of_ok (getItem_ok atJ),
      bind_of_ok (getItem_ok atK), require_of (noted_of_tidy tidy atJ), require_of (noted_of_tidy tidy atK)]
    rfl
  · simpa using swap_perm atJ atK
  · simp
  · intro i x s found point
    rw [note_items, note_items, getElem?_swap atJ atK] at found
    rw [note_slots, note_slots]
    have right := tidy _ x s found point
    by_cases isA : a.idx = some s
    · have := tidy j a s atJ isA
      rw [if_pos isA, (Equiv.swap_apply_eq_iff.mp (right.symm.trans this)), Equiv.swap_apply_left]
    by_cases isB : b.idx = some s
    · have := tidy k b s atK isB
      rw [if_neg isA, if_pos isB, (Equiv.swap_apply_eq_iff.mp (right.symm.trans this)), Equiv.swap_apply_right]
    · rw [if_neg isA, if_neg isB, right]
      apply Equiv.swap_apply_of_ne_of_ne
      · rintro rfl
        rw [Equiv.swap_apply_left, atK] at found
        cases found
        exact isB point
      · rintro rfl
        rw [Equiv.swap_apply_right, atJ] at found
        cases found
        exact isA point
  · funext i
    simp [place, getElem?_swap atJ atK]

/-! ## Shuffling -/

variable {cmp : Comparison D}

theorem place_some (lt : i < q.items.length) : ∃ x, q.items[i]? = some x ∧ q.place i = some x.data :=
  ⟨q.items[i], getElem?_eq_getElem lt, by simp [place, lt]⟩

theorem place_none (le : q.items.length ≤ i) : q.place i = none := by
  simp [place, getElem?_eq_none le]

theorem shuffleUpLoop_ok (tidy : q.Tidy) (lt : idx < q.items.length) (enough : idx < n)
    (but : Heap.OrderedBut cmp.below q.place idx) :
    ∃ k q', shuffleUpLoop cmp.compare n idx q = .ok k q' ∧ Shuffled q q' ∧ Heap.Ordered cmp.below q'.place := by
  induction n generalizing idx q with
  | zero => omega
  | succ n ih =>
    rw [shuffleUpLoop]
    by_cases root : idx = 0
    · rw [if_pos root]
      exact ⟨idx, q, rfl, ⟨.refl _, rfl, tidy⟩, but.ordered (by omega)⟩
    rw [if_neg root]
    have up : Heap.parent idx < idx := Heap.parent_lt (by omega)
    obtain ⟨above, atParent, placed⟩ := place_some (by omega : Heap.parent idx < q.items.length)
    obtain ⟨x, atIdx, placedX⟩ := place_some lt
    rw [show (idx - 1) / 2 = Heap.parent idx from rfl, bind_of_ok (getItem_ok atParent),
      bind_of_ok (getItem_ok atIdx)]
    by_cases inOrder : cmp.compare above.data x.data ≤ 0
    · rw [if_pos inOrder]
      refine ⟨idx, q, rfl, ⟨.refl _, rfl, tidy⟩, but.ordered fun _ => ?_⟩
      rwa [placed, placedX]
    · rw [if_neg inOrder]
      obtain ⟨q₁, swapped, shuffled, moved⟩ := swap_ok tidy lt (by omega : Heap.parent idx < q.items.length)
      have but₁ : Heap.OrderedBut cmp.below q₁.place (Heap.parent idx) := by
        rw [moved]
        refine but.swap_up cmp.below_trans (by omega) ?_
        rw [placed, placedX]
        exact cmp.compare_total inOrder
      obtain ⟨k, q', done, shuffled', ordered⟩ := ih shuffled.tidy (by rw [shuffled.length]; omega) (by omega) but₁
      exact ⟨k, q', by rw [bind_of_ok swapped, done], shuffled.trans shuffled', ordered⟩

theorem shuffleUp_ok (tidy : q.Tidy) (lt : idx < q.items.length) (but : Heap.OrderedBut cmp.below q.place idx) :
    ∃ k q', shuffleUp cmp.compare idx q = .ok k q' ∧ Shuffled q q' ∧ Heap.Ordered cmp.below q'.place := by
  rw [shuffleUp, get_bind, require_of lt]
  exact shuffleUpLoop_ok tidy lt (Nat.lt_succ_self idx) but

theorem lower_ok (cmp : Comparison D) {s : Nat} (i_lt : i < q.items.length) (s_lt : s < q.items.length) :
    ∃ r, lower cmp.compare i s q = .ok r q ∧ (r = i ∨ r = s) ∧ cmp.below (q.place r) (q.place i) ∧
      cmp.below (q.place r) (q.place s) := by
  obtain ⟨a, atI, placedI⟩ := place_some i_lt
  obtain ⟨b, atS, placedS⟩ := place_some s_lt
  refine ⟨if cmp.compare a.data b.data < 0 then i else s, ?_, ?_, ?_⟩
  · rw [lower, bind_of_ok (getItem_ok atI), bind_of_ok (getItem_ok atS)]
    rfl
  · split
    · exact .inl rfl
    · exact .inr rfl
  · split
    · rename_i isLower
      refine ⟨cmp.below_refl _, ?_⟩
      rw [placedI, placedS]
      exact isLower.le
    · rename_i notLower
      refine ⟨?_, cmp.below_refl _⟩
      rw [placedI, placedS]
      exact cmp.compare_of_not_lt notLower

theorem smallest_ok (cmp : Comparison D) (lt : 2 * idx + 1 < q.items.length) :
    ∃ s, smallest cmp.compare (2 * idx + 1) (2 * idx + 2) idx q = .ok s q ∧
      (s = idx ∨ s < q.items.length ∧ 0 < s ∧ Heap.parent s = idx) ∧
      ∀ c, 0 < c → Heap.parent c = idx → cmp.below (q.place s) (q.place c) := by
  rw [smallest, get_bind]
  obtain ⟨s, first, which, belowJ, belowIdx⟩ := lower_ok cmp lt (by omega : idx < q.items.length)
  have s_lt : s < q.items.length := by omega
  by_cases two : 2 * idx + 2 < q.items.length
  · obtain ⟨r, second, which', belowK, belowS⟩ := lower_ok cmp two s_lt
    refine ⟨r, by rw [bind_of_ok first, if_pos two, second], ?_, ?_⟩
    · unfold Heap.parent
      omega
    · intro c pos child
      rcases (Heap.parent_eq_iff pos).mp child with rfl | rfl
      · exact cmp.below_trans belowS belowJ
      · exact belowK
  · refine ⟨s, by rw [bind_of_ok first, if_neg two]; rfl, ?_, ?_⟩
    · unfold Heap.parent
      omega
    · intro c pos child
      rcases (Heap.parent_eq_iff pos).mp child with rfl | rfl
      · exact belowJ
      · rw [place_none (by omega : q.items.length ≤ 2 * idx + 2)]
        trivial

theorem shuffleDownLoop_ok (tidy : q.Tidy) (small : q.items.length ≤ 2 ^ 31) (lt : idx < q.items.length)
    (enough : q.items.length < n + idx) (around : Heap.OrderedAround cmp.below q.place idx) :
    ∃ k q', shuffleDownLoop cmp.compare n idx q = .ok k q' ∧ Shuffled q q' ∧ k < q'.items.length ∧
      Heap.OrderedBut cmp.below q'.place k := by
  induction n generalizing idx q with
  | zero => omega
  | succ n ih =>
    rw [shuffleDownLoop, get_bind]
    by_cases leaf : q.items.length ≤ 2 * idx + 1
    · have stop : q.items.length ≤ ((idx + 1) * 2 % 2 ^ 32 + (2 ^ 32 - 1)) % 2 ^ 32 := by omega
      rw [if_pos stop]
      refine ⟨idx, q, rfl, ⟨.refl _, rfl, tidy⟩, lt, around, ?_⟩
      intro c pos child
      rw [place_none (by have := (Heap.parent_eq_iff pos).mp child; omega : q.items.length ≤ c)]
      trivial
    · have right : (idx + 1) * 2 % 2 ^ 32 = 2 * idx + 2 := by omega
      have left : (2 * idx + 2 + (2 ^ 32 - 1)) % 2 ^ 32 = 2 * idx + 1 := by omega
      rw [right, left, if_neg leaf]
      obtain ⟨s, found, which, least⟩ := smallest_ok cmp (by omega : 2 * idx + 1 < q.items.length)
      rw [bind_of_ok found]
      by_cases stop : s = idx
      · rw [if_pos stop]
        exact ⟨idx, q, rfl, ⟨.refl _, rfl, tidy⟩, lt, around, stop ▸ least⟩
      · rw [if_neg stop]
        obtain ⟨s_lt, s_pos, child⟩ := which.resolve_left stop
        have down := Heap.parent_lt s_pos
        obtain ⟨q₁, swapped, shuffled, moved⟩ := swap_ok tidy lt s_lt
        have around₁ : Heap.OrderedAround cmp.below q₁.place s := by
          rw [moved]
          exact around.swap_down s_pos child least
        obtain ⟨k, q', done, shuffled', k_lt, but⟩ := ih shuffled.tidy (by rw [shuffled.length]; exact small)
          (by rw [shuffled.length]; exact s_lt) (by rw [shuffled.length]; omega) around₁
        exact ⟨k, q', by rw [bind_of_ok swapped, done], shuffled.trans shuffled', k_lt, but⟩

/-- An item in a wrong place gets to its right one. -/
theorem shuffle_ok {f : Unit → PrioqM D I α} (tidy : q.Tidy) (small : q.items.length ≤ 2 ^ 31)
    (lt : idx < q.items.length) (around : Heap.OrderedAround cmp.below q.place idx) :
    ∃ q', Shuffled q q' ∧ Heap.Ordered cmp.below q'.place ∧
      (do
        let k ← shuffleDown cmp.compare idx
        let _ ← shuffleUp cmp.compare k
        f ⟨⟩) q = f ⟨⟩ q' := by
  obtain ⟨k, q₁, down, shuffled, k_lt, but⟩ :=
    shuffleDownLoop_ok tidy small lt (by omega : q.items.length < q.items.length + 1 + idx) around
  obtain ⟨k', q₂, up, shuffled', ordered⟩ := shuffleUp_ok shuffled.tidy k_lt but
  refine ⟨q₂, shuffled.trans shuffled', ordered, ?_⟩
  have down : shuffleDown cmp.compare idx q = .ok k q₁ := by
    rwa [shuffleDown, get_bind]
  rw [bind_of_ok down, bind_of_ok up]

/-! ## The calls -/

/-- The size of the largest queue: from there, a growth would wrap around. -/
def maxItems : Nat := 18 * 2 ^ 27 - 2

structure Sound (cmp : Comparison D) (q : Prioq D I) : Prop where
  ordered : Heap.Ordered cmp.below q.place
  tidy : q.Tidy
  room : q.items.length ≤ q.nAllocated
  /-- The sizes that the growth of the queue goes through. -/
  grown : q.nAllocated = 0 ∨ ∃ i ≤ 27, q.nAllocated = 18 * 2 ^ i - 2

/-- What holds between calls. -/
structure Good (cmp : Comparison D) (q : Prioq D I) : Prop extends Sound cmp q where
  small : q.items.length ≤ 2 ^ 31

theorem Good.shuffled (good : Good cmp q) {cmp' : Comparison D} (shuffled : Shuffled q q')
    (ordered : Heap.Ordered cmp'.below q'.place) : Good cmp' q' where
  ordered := ordered
  tidy := shuffled.tidy
  small := shuffled.length ▸ good.small
  room := by
    rw [shuffled.length, shuffled.nAllocated]
    exact good.room
  grown := shuffled.nAllocated ▸ good.grown

/-- Nothing in the queue is below what `prioq_peek()` gives. -/
theorem Good.root_below (good : Good cmp q) {y : PrioqItem D I} (first : q.items[0]? = some x) (stored : y ∈ q.items) :
    cmp.compare x.data y.data ≤ 0 := by
  obtain ⟨i, found⟩ := mem_iff_getElem?.mp stored
  have least := good.ordered.root_le cmp.below_refl cmp.below_trans i
  rwa [place, place, first, found] at least

theorem growth (small : n < maxItems) (grown : n = 0 ∨ ∃ i ≤ 27, n = 18 * 2 ^ i - 2) :
    n < max ((n + 1) * 2 % 2 ^ 32) 16 ∧ ∃ i ≤ 27, max ((n + 1) * 2 % 2 ^ 32) 16 = 18 * 2 ^ i - 2 := by
  rcases grown with rfl | ⟨i, le, rfl⟩
  · exact ⟨by decide, 0, by decide, by decide⟩
  · have shallow : i ≤ 26 := by
      by_contra deep
      obtain rfl : i = 27 := by omega
      exact absurd small (lt_irrefl _)
    have next : (18 * 2 ^ i - 2 + 1) * 2 = 18 * 2 ^ (i + 1) - 2 := by
      have := Nat.one_le_two_pow (n := i)
      omega
    have fits : 18 * 2 ^ (i + 1) - 2 < 2 ^ 32 := by
      have : 2 ^ (i + 1) ≤ 2 ^ 27 := Nat.pow_le_pow_right (by decide) (by omega)
      omega
    have large : 16 ≤ 18 * 2 ^ (i + 1) - 2 := by
      omega
    rw [next, Nat.mod_eq_of_lt fits, Nat.max_eq_left large]
    refine ⟨?_, i + 1, by omega, rfl⟩
    omega

theorem put_ok (good : Sound cmp q) (data : D) (idx : Option I) (memory : Bool)
    (own : ∀ s, idx = some s → ∀ x ∈ q.items, x.idx ≠ some s) (fits : q.items.length < maxItems) :
    ∃ r q', put cmp.compare data idx memory q = .ok r q' ∧ Sound cmp q' ∧
      (r = false → memory = false ∧ q' = q) ∧ (r = true → q'.items.Perm (⟨data, idx⟩ :: q.items)) := by
  rw [put, get_bind]
  by_cases refused : q.nAllocated ≤ q.items.length ∧ memory = false
  · rw [if_pos refused]
    exact ⟨false, q, rfl, good, fun _ => ⟨refused.2, rfl⟩, by simp⟩
  rw [if_neg refused, modify_bind]
  generalize grownTo : (if q.nAllocated ≤ q.items.length then
    { q with nAllocated := max ((q.items.length + 1) * 2 % 2 ^ 32) 16 } else q) = q₁
  have items₁ : q₁.items = q.items := by
    rw [← grownTo]
    split <;> rfl
  have slots₁ : q₁.slots = q.slots := by
    rw [← grownTo]
    split <;> rfl
  have grown₁ : q.items.length < q₁.nAllocated ∧ ∃ i ≤ 27, q₁.nAllocated = 18 * 2 ^ i - 2 := by
    rw [← grownTo]
    split
    · rename_i full
      have : q.nAllocated = q.items.length := le_antisymm full good.room
      exact growth fits (this ▸ good.grown)
    · exact ⟨by omega, good.grown.resolve_left (by omega)⟩
  rw [get_bind, require_of grown₁.1, modify_bind]
  generalize stored : ({ q₁ with items := q₁.items ++ [⟨data, idx⟩] } : Prioq D I).note idx q.items.length = q₂
  have items₂ : q₂.items = q.items ++ [⟨data, idx⟩] := by rw [← stored, note_items, items₁]
  have tidy₂ : q₂.Tidy := by
    intro i x s found point
    rw [items₂] at found
    rw [← stored, note_slots, slots₁]
    by_cases last : i < q.items.length
    · rw [getElem?_append_left last] at found
      rw [if_neg fun mine => own s mine x (mem_of_getElem? found) point]
      exact good.tidy i x s found point
    · have at_end : i = q.items.length := by
        have := (List.getElem?_eq_some_iff.mp found).1
        rw [length_append, length_singleton] at this
        omega
      rw [at_end, getElem?_concat_length] at found
      cases found
      rw [if_pos point, at_end]
  have same : ∀ i, i ≠ q.items.length → q₂.place i = q.place i := by
    intro i ne
    unfold place
    rw [items₂, getElem?_append]
    split
    · rfl
    · rw [getElem?_eq_none (by simp; omega), getElem?_eq_none (by omega : q.items.length ≤ i)]
  have but : Heap.OrderedBut cmp.below q₂.place q.items.length := by
    refine ⟨good.ordered.around cmp.below_trans same, ?_⟩
    intro c pos child
    have := Heap.parent_lt pos
    rw [same c (by omega), place_none (by omega : q.items.length ≤ c)]
    trivial
  obtain ⟨k, q', up, shuffled, ordered⟩ := shuffleUp_ok tidy₂ (by rw [items₂]; simp) but
  rw [bind_of_ok up]
  refine ⟨true, q', rfl, ?_, by simp, fun _ => ?_⟩
  · refine ⟨ordered, shuffled.tidy, ?_, ?_⟩
    · rw [shuffled.length, shuffled.nAllocated, items₂, length_append, ← stored, note_nAllocated]
      exact grown₁.1
    · rw [shuffled.nAllocated, ← stored, note_nAllocated]
      exact .inr grown₁.2
  · exact (items₂ ▸ shuffled.perm).trans (perm_append_singleton _ _)

theorem dropLast_getElem? :
    l.dropLast[i]? = if i < l.length - 1 then l[i]? else none := by
  rw [getElem?_dropLast]

/-- The last element takes the place of one that goes. -/
theorem replace_perm {x last : α} (found : l[k]? = some x) (end_ : l[l.length - 1]? = some last)
    (inner : k ≠ l.length - 1) : l.Perm (x :: (l.set k last).dropLast) := by
  have k_lt := (List.getElem?_eq_some_iff.mp found).1
  have split : l.dropLast ++ [last] = l := by
    obtain ⟨_, rfl⟩ := List.getElem?_eq_some_iff.mp end_
    have some_l : l ≠ [] := by
      rintro rfl
      simp at k_lt
    rw [← getLast_eq_getElem some_l, dropLast_append_getLast some_l]
  have in_front : k < l.dropLast.length := by
    rw [length_dropLast]
    omega
  have at_k : l.dropLast[k] = x := by
    rw [getElem_dropLast]
    exact (List.getElem?_eq_some_iff.mp found).2
  have placed : (l.set k last).dropLast = l.dropLast.set k last := by
    conv_lhs => rw [← split, set_append_left k last in_front]
    simp
  calc l
      _ = l.dropLast ++ [last] := split.symm
      _ ~ last :: l.dropLast := perm_append_singleton _ _
      _ ~ last :: x :: l.dropLast.eraseIdx k := by
        rw [← at_k]
        exact ((getElem_cons_eraseIdx_perm in_front).symm).cons last
      _ ~ x :: last :: l.dropLast.eraseIdx k := .swap ..
      _ ~ x :: l.dropLast.set k last := ((set_perm_cons_eraseIdx in_front last).symm).cons x
      _ = x :: (l.set k last).dropLast := by rw [placed]

/-- A heap without its last item is one. -/
theorem ordered_dropLast (ordered : Heap.Ordered cmp.below q.place) :
    Heap.Ordered cmp.below (place { q with items := q.items.dropLast }) := by
  intro i pos
  have up := Heap.parent_lt pos
  unfold place
  rw [dropLast_getElem?, dropLast_getElem?]
  by_cases inside : i < q.items.length - 1
  · rw [if_pos inside, if_pos (by omega)]
    exact ordered i pos
  · rw [if_neg inside]
    trivial

theorem tidy_dropLast (tidy : q.Tidy) : Tidy { q with items := q.items.dropLast } := by
  intro i x s found point
  rw [dropLast_getElem?] at found
  split at found
  · exact tidy i x s found point
  · cases found

theorem removeItem_ok (good : Good cmp q) (found : q.items[k]? = some x) :
    ∃ q', removeItem cmp.compare k q = .ok ⟨⟩ q' ∧ Good cmp q' ∧ q.items.Perm (x :: q'.items) ∧
      q'.nAllocated = q.nAllocated := by
  have k_lt := (List.getElem?_eq_some_iff.mp found).1
  have small := good.small
  have room := good.room
  rw [removeItem, get_bind]
  by_cases last : k = q.items.length - 1
  · rw [if_pos last]
    refine ⟨{ q with items := q.items.dropLast }, rfl, ⟨⟨ordered_dropLast good.ordered,
      tidy_dropLast good.tidy, ?_, good.grown⟩, ?_⟩, ?_, rfl⟩
    · show q.items.dropLast.length ≤ q.nAllocated
      rw [length_dropLast]
      omega
    · rw [length_dropLast]
      omega
    · obtain ⟨_, rfl⟩ := List.getElem?_eq_some_iff.mp found
      have some_items : q.items ≠ [] := ne_nil_of_length_pos (by omega)
      have at_end : q.items[k] = q.items.getLast some_items := by
        rw [getLast_eq_getElem]
        simp [last]
      rw [at_end]
      conv_lhs => rw [← dropLast_append_getLast some_items]
      exact perm_append_singleton _ _
  rw [if_neg last]
  obtain ⟨moved, at_end, -⟩ := place_some (by omega : q.items.length - 1 < q.items.length)
  rw [bind_of_ok (getItem_ok at_end), modify_bind]
  generalize stored : ({ q with items := (q.items.set k moved).dropLast } : Prioq D I).note moved.idx k = q₁
  have items₁ : q₁.items = (q.items.set k moved).dropLast := by rw [← stored, note_items]
  have length₁ : q₁.items.length = q.items.length - 1 := by simp [items₁]
  have other {i : Nat} (ne : i ≠ k) : q₁.items[i]? = q.items.dropLast[i]? := by
    rw [items₁, dropLast_getElem?, dropLast_getElem?, length_set, getElem?_set_ne (Ne.symm ne)]
  have at_k : q₁.items[k]? = some moved := by
    rw [items₁, dropLast_getElem?, length_set, if_pos (by omega), getElem?_set_self k_lt]
  have tidy₁ : q₁.Tidy := by
    intro i y s there point
    rw [← stored, note_slots]
    by_cases here : i = k
    · rw [here, at_k] at there
      cases there
      rw [if_pos point, here]
    · rw [other here, dropLast_getElem?] at there
      split at there
      · have right := good.tidy i y s there point
        rw [if_neg, right]
        intro mine
        have := good.tidy _ moved s at_end mine
        omega
      · cases there
  have around : Heap.OrderedAround cmp.below q₁.place k := by
    refine (ordered_dropLast good.ordered).around cmp.below_trans ?_
    intro i ne
    rw [place, place, other ne]
  obtain ⟨q', shuffled, ordered, done⟩ :=
    shuffle_ok (f := fun _ => pure ()) tidy₁ (by omega) (by omega : k < q₁.items.length) around
  have allocated : q'.nAllocated = q.nAllocated := by rw [shuffled.nAllocated, ← stored, note_nAllocated]
  refine ⟨q', done, ⟨⟨ordered, shuffled.tidy, ?_, ?_⟩, ?_⟩, ?_, allocated⟩
  · rw [shuffled.length]
    omega
  · rw [allocated]
    exact good.grown
  · rw [shuffled.length]
    omega
  · exact (replace_perm found at_end last).trans ((items₁ ▸ shuffled.perm.symm).cons x)

/-- The item that a search finds. -/
theorem findItem_some (good : Good cmp q) {idx : Option I} (found : q.findItem data idx = some k) :
    ∃ x, q.items[k]? = some x ∧ x.data = data ∧ (idx ≠ none → PrioqItem.mk data idx ∈ q.items → x.idx = idx) := by
  cases idx with
  | none =>
    obtain ⟨lt, same, -⟩ := findIdx?_eq_some_iff_getElem.mp found
    exact ⟨q.items[k], getElem?_eq_getElem lt, by simpa using same, by simp⟩
  | some s =>
    rw [findItem] at found
    split at found
    · cases found
    split at found
    · rename_i same
      cases found
      obtain ⟨x, there, data_eq⟩ := Option.map_eq_some_iff.mp same
      refine ⟨x, there, data_eq, ?_⟩
      intro _ stored
      obtain ⟨i, there'⟩ := mem_iff_getElem?.mp stored
      rw [good.tidy i _ s there' rfl, there'] at there
      cases there
      rfl
    · cases found

/-- No such item, where a variable stands for its item. -/
def Missing (items : Multiset (PrioqItem D I)) (data : D) : Option I → Prop
  | none => ∀ x ∈ items, x.data ≠ data
  | some s => PrioqItem.mk data (some s) ∉ items

theorem findItem_none (good : Good cmp q) {idx : Option I} (nothing : q.findItem data idx = none) :
    Missing q.items data idx := by
  cases idx with
  | none =>
    intro x stored
    have := findIdx?_eq_none_iff.mp nothing x stored
    simpa using this
  | some s =>
    intro stored
    obtain ⟨i, there⟩ := mem_iff_getElem?.mp stored
    have position := good.tidy i _ s there rfl
    have lt := (List.getElem?_eq_some_iff.mp there).1
    have small := good.small
    rw [findItem, position, there, if_neg (by omega)] at nothing
    simp at nothing

end Prioq

end SystemdPort.Basic
