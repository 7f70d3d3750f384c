/-
# Basic.PrioqRuns — any calls on a priority queue

The queue against a multiset of items: what each call has to answer and to leave behind
is in `PrioqCall.Expects`.  Any calls do that (`Prioq.run_expected`), of which no two give the
same variable to two items in the queue, and of which none leaves more than `2 ^ 31` items.
`Prioq.put_past_end` shows where the growth of a queue without that limit ends.
-/
import SystemdPort.Basic.PrioqCorrect

namespace SystemdPort.Basic

open Lib Lib.Exec

set_option autoImplicit false
set_option linter.unusedSectionVars false

variable {D I : Type} [DecidableEq D] [DecidableEq I]

/-! ## What is expected -/

namespace PrioqCall

/-- What a call may ask for: a variable is that of one item only, and a priority that has
changed is that of the item to shuffle. -/
def Allowed (cmp : Comparison D) (q : Prioq D I) : PrioqCall D I → Prop
  | put _ idx _ => ∀ s, idx = some s → ∀ x ∈ q.items, x.idx ≠ some s
  | reshuffle data idx changed => ∀ i j x y, q.items[i]? = some x → q.items[j]? = some y →
      q.findItem data idx ≠ some i → q.findItem data idx ≠ some j →
      (cmp.compare x.data y.data ≤ 0 ↔ changed.compare x.data y.data ≤ 0)
  | _ => True

/-- At most `2 ^ 31` items. -/
def Fits (q : Prioq D I) : PrioqCall D I → Prop
  | put _ _ _ => q.items.length < 2 ^ 31
  | _ => True

/-- The answer to a call, and the items after it. -/
def Expects (cmp : Comparison D) (before : Multiset (PrioqItem D I)) :
    PrioqCall D I → PrioqAnswer D → Multiset (PrioqItem D I) → Prop
  | put data idx memory, .done r, after =>
    if r then after = ⟨data, idx⟩ ::ₘ before else memory = false ∧ after = before
  | remove data idx, .done r, after =>
    if r then ∃ x ∈ before, x.data = data ∧ (idx ≠ none → ⟨data, idx⟩ ∈ before → x.idx = idx) ∧
      after = before.erase x
    else Prioq.Missing before data idx ∧ after = before
  | reshuffle data idx _, .done r, after => (r = false → Prioq.Missing before data idx) ∧ after = before
  | pop, .popped none, after => before = 0 ∧ after = 0
  | pop, .popped (some data), after => ∃ x ∈ before, x.data = data ∧
      (∀ y ∈ before, cmp.compare data y.data ≤ 0) ∧ after = before.erase x
  | _, _, _ => False

end PrioqCall

/-- Each call is allowed in the state it is made in. -/
def AllowedRun (P : Comparison D → Prioq D I → PrioqCall D I → Prop) :
    Comparison D → List (PrioqCall D I) → Prioq D I → Prop
  | _, [], _ => True
  | cmp, call :: calls, q => P cmp q call ∧
      ∀ answer q', call.run (call.comparison cmp).compare q = .ok answer q' →
        AllowedRun P (call.comparison cmp) calls q'

/-- The answers to calls one after another, and the items at their end. -/
def ExpectedRun : Comparison D → List (PrioqCall D I) → List (PrioqAnswer D) →
    Multiset (PrioqItem D I) → Multiset (PrioqItem D I) → Prop
  | _, [], [], before, after => after = before
  | cmp, call :: calls, answer :: answers, before, after =>
    ∃ between, call.Expects (call.comparison cmp) before answer between ∧
      ExpectedRun (call.comparison cmp) calls answers between after
  | _, _, _, _, _ => False

/-- The comparison after some calls. -/
def lastComparison (cmp : Comparison D) (calls : List (PrioqCall D I)) : Comparison D :=
  calls.foldl (fun cmp call => call.comparison cmp) cmp

namespace Prioq

variable {cmp : Comparison D} {q q' : Prioq D I}

/-! ## Steps -/

theorem coe_erase_of_perm {x : PrioqItem D I} (perm : q.items.Perm (x :: q'.items)) :
    (q'.items : Multiset (PrioqItem D I)) = (q.items : Multiset (PrioqItem D I)).erase x := by
  rw [Multiset.coe_eq_coe.mpr perm, ← Multiset.cons_coe, Multiset.erase_cons_head]

/-- A change of what is at one place leaves the rest in order. -/
theorem Good.around_changed (good : Good cmp q) {changed : Comparison D} {k : Nat}
    (same : ∀ (i j : Nat) (x y : PrioqItem D I), q.items[i]? = some x → q.items[j]? = some y → i ≠ k → j ≠ k →
      (cmp.compare x.data y.data ≤ 0 ↔ changed.compare x.data y.data ≤ 0)) :
    Heap.OrderedAround changed.below q.place k := by
  have transfer {i j : Nat} (ne : i ≠ k) (ne' : j ≠ k) (below : cmp.below (q.place i) (q.place j)) :
      changed.below (q.place i) (q.place j) := by
    unfold place at below ⊢
    cases there : q.items[j]? with
    | none => trivial
    | some y =>
      cases there' : q.items[i]? with
      | none =>
        rwa [there, there'] at below
      | some x =>
        rw [there, there'] at below
        exact (same i j x y there' there ne ne').mp below
  have around : Heap.OrderedAround cmp.below q.place k := good.ordered.around cmp.below_trans fun _ _ => rfl
  refine ⟨?_, ?_⟩
  · intro i pos here above
    exact transfer above here (around.away i pos here above)
  · intro pos c c_pos child
    have := Heap.parent_lt pos
    have := Heap.parent_lt c_pos
    exact transfer (by omega) (by omega) (around.across pos c c_pos child)

/-- If nothing is found, no comparison has changed. -/
theorem Good.changed (good : Good cmp q) {changed : Comparison D}
    (same : ∀ (i j : Nat) (x y : PrioqItem D I), q.items[i]? = some x → q.items[j]? = some y →
      (cmp.compare x.data y.data ≤ 0 ↔ changed.compare x.data y.data ≤ 0)) : Good changed q := by
  refine ⟨⟨?_, good.tidy, good.room, good.grown⟩, good.small⟩
  intro i pos
  have below := good.ordered i pos
  unfold place at below ⊢
  cases there : q.items[i]? with
  | none => trivial
  | some y =>
    cases there' : q.items[Heap.parent i]? with
    | none =>
      rwa [there, there'] at below
    | some x =>
      rw [there, there'] at below
      exact (same _ i x y there' there).mp below

theorem call_ok (good : Good cmp q) (call : PrioqCall D I) (allowed : call.Allowed cmp q) (fits : call.Fits q) :
    ∃ answer q', call.run (call.comparison cmp).compare q = .ok answer q' ∧ Good (call.comparison cmp) q' ∧
      call.Expects (call.comparison cmp) q.items answer q'.items := by
  cases call with
  | put data idx memory =>
    have fits : q.items.length < 2 ^ 31 := fits
    obtain ⟨r, q', run, sound, refused, stored⟩ := put_ok good.toSound data idx memory allowed
      (by unfold maxItems; omega)
    have small : q'.items.length ≤ 2 ^ 31 := by
      cases r with
      | false => exact (refused rfl).2 ▸ good.small
      | true =>
        rwa [(stored rfl).length_eq]
    refine ⟨.done r, q', bind_of_ok run, ⟨sound, small⟩, ?_⟩
    cases r with
    | false =>
      obtain ⟨noMemory, rfl⟩ := refused rfl
      exact ⟨noMemory, rfl⟩
    | true => exact Multiset.coe_eq_coe.mpr (stored rfl)
  | remove data idx =>
    cases found : q.findItem data idx with
    | none =>
      refine ⟨.done false, q, bind_of_ok ?_, good, findItem_none good found, rfl⟩
      rw [Prioq.remove, get_bind, found]
      rfl
    | some k =>
      obtain ⟨x, there, data_eq, mine⟩ := findItem_some good found
      obtain ⟨q', removed, good', perm, -⟩ := removeItem_ok good there
      refine ⟨.done true, q', bind_of_ok ?_, good', x, ?_, data_eq, mine, coe_erase_of_perm perm⟩
      · rw [Prioq.remove, get_bind, found]
        exact bind_of_ok removed
      · exact List.mem_of_getElem? there
  | reshuffle data idx changed =>
    cases found : q.findItem data idx with
    | none =>
      have good' : Good changed q := by
        refine good.changed fun i j x y there there' => ?_
        exact allowed i j x y there there' (by rw [found]; simp) (by rw [found]; simp)
      refine ⟨.done false, q, bind_of_ok ?_, good', fun _ => findItem_none good found, rfl⟩
      rw [Prioq.reshuffle, get_bind, found]
      rfl
    | some k =>
      obtain ⟨x, there, -⟩ := findItem_some good found
      have around : Heap.OrderedAround changed.below q.place k := by
        refine good.around_changed fun i j x y there there' ne ne' => ?_
        exact allowed i j x y there there' (by rw [found]; simpa using Ne.symm ne)
          (by rw [found]; simpa using Ne.symm ne')
      obtain ⟨q', shuffled, ordered, done⟩ := shuffle_ok (f := fun _ => pure true) good.tidy good.small
        (List.getElem?_eq_some_iff.mp there).1 around
      refine ⟨.done true, q', bind_of_ok ?_, good.shuffled shuffled ordered, by simp,
        Multiset.coe_eq_coe.mpr shuffled.perm⟩
      rwa [Prioq.reshuffle, get_bind, found]
  | pop =>
    cases items : q.items with
    | nil =>
      refine ⟨.popped none, q, bind_of_ok ?_, good, rfl, ?_⟩
      · rw [Prioq.pop, get_bind, items]
        rfl
      · rw [items]
        rfl
    | cons x rest =>
      have there : q.items[0]? = some x := by rw [items]; rfl
      obtain ⟨q', removed, good', perm, -⟩ := removeItem_ok good there
      refine ⟨.popped (some x.data), q', bind_of_ok ?_, good', x, by simp, rfl, ?_, ?_⟩
      · rw [Prioq.pop, get_bind, items]
        exact bind_of_ok removed
      · intro y stored
        exact good.root_below there (by rw [items]; exact stored)
      · rw [← items]
        exact coe_erase_of_perm perm

/-! ## Runs -/

theorem run_good (good : Good cmp q) (calls : List (PrioqCall D I))
    (allowed : AllowedRun (fun cmp q call => call.Allowed cmp q ∧ call.Fits q) cmp calls q) :
    ∃ answers q', runPrioq cmp calls q = .ok answers q' ∧ Good (lastComparison cmp calls) q' ∧
      ExpectedRun cmp calls answers q.items q'.items := by
  induction calls generalizing cmp q with
  | nil => exact ⟨[], q, rfl, good, rfl⟩
  | cons call calls ih =>
    obtain ⟨⟨ok, fits⟩, rest⟩ := allowed
    obtain ⟨answer, q₁, run, good₁, expected⟩ := call_ok good call ok fits
    obtain ⟨answers, q', runs, good', expected'⟩ := ih good₁ (rest answer q₁ run)
    refine ⟨answer :: answers, q', ?_, good', _, expected, expected'⟩
    rw [runPrioq, bind_of_ok run, bind_of_ok runs]
    rfl

/-- A new queue, with anything in the variables of the caller. -/
def new (slots : I → Nat) : Prioq D I := { slots }

theorem new_good (cmp : Comparison D) (slots : I → Nat) : Good cmp (new slots : Prioq D I) where
  ordered := by
    intro i pos
    trivial
  tidy := by
    intro i x s found
    simp [new] at found
  small := by simp [new]
  room := by simp [new]
  grown := .inl rfl

/-- Any calls on a new queue come back; then it is a heap with its index variables right, the answers
and items are those expected, and `prioq_peek()` gives a least one. -/
theorem run_expected (cmp : Comparison D) (slots : I → Nat) (calls : List (PrioqCall D I))
    (allowed : AllowedRun (fun cmp q call => call.Allowed cmp q ∧ call.Fits q) cmp calls (new slots)) :
    ∃ answers q', runPrioq cmp calls (new slots) = .ok answers q' ∧
      (∀ i x y, 0 < i → q'.items[(i - 1) / 2]? = some x → q'.items[i]? = some y →
        (lastComparison cmp calls).compare x.data y.data ≤ 0) ∧
      (∀ i x s, q'.items[i]? = some x → x.idx = some s → q'.slots s = i) ∧
      ExpectedRun cmp calls answers 0 q'.items ∧
      (q'.peek = none ↔ q'.items = []) ∧
      ∀ data, q'.peek = some data →
        (∃ x ∈ q'.items, x.data = data) ∧
        ∀ y ∈ q'.items, (lastComparison cmp calls).compare data y.data ≤ 0 := by
  obtain ⟨answers, q', run, good, expected⟩ := run_good (new_good cmp slots) calls allowed
  refine ⟨answers, q', run, ?_, good.tidy, expected, ?_, ?_⟩
  · intro i x y pos atParent atI
    have below := good.ordered i pos
    rwa [place, place, atI, show Heap.parent i = (i - 1) / 2 from rfl, atParent] at below
  · simp [peek, peekByIndex]
  · intro data peeked
    obtain ⟨x, first, rfl⟩ := Option.map_eq_some_iff.mp peeked
    exact ⟨⟨x, List.mem_of_getElem? first, rfl⟩, fun y stored => good.root_below first stored⟩

def byNumber : Comparison Nat where
  compare a b := a - b
  flip := by
    intro a b
    omega
  trans := by
    intro a b c first second
    omega

theorem run_expected_two :
    ∃ q' : Prioq Nat Nat, runPrioq byNumber [.put 5 (some 0) true, .put 3 (some 1) true] (new fun _ => 7) =
        .ok [.done true, .done true] q' ∧
      ∀ data, q'.peek = some data → ∀ y ∈ q'.items, byNumber.compare data y.data ≤ 0 := by
  have allowed : AllowedRun (fun cmp q call => call.Allowed cmp q ∧ call.Fits q) byNumber
      [.put 5 (some 0) true, .put 3 (some 1) true] (new fun _ => 7 : Prioq Nat Nat) := by
    refine ⟨⟨by simp [PrioqCall.Allowed, new], by simp [PrioqCall.Fits, new]⟩, ?_⟩
    rintro answer q₁ ⟨⟩
    refine ⟨⟨?_, ?_⟩, fun _ _ _ => trivial⟩
    · rintro s ⟨⟩ x stored
      obtain rfl : x = ⟨5, some 0⟩ := by simpa [new] using stored
      simp
    · show 1 < 2 ^ 31
      decide
  obtain ⟨answers, q', run, -, -, -, -, least⟩ := run_expected byNumber (fun _ => 7) _ allowed
  have answered : answers = [.done true, .done true] := by
    cases run
    rfl
  exact ⟨q', answered ▸ run, fun data peeked => (least data peeked).2⟩

/-- One item too many is stored behind the end of the items. -/
theorem puts_past_end {q : Prioq D I} (sound : Sound cmp q) (data : D) (k : Nat)
    (full : q.items.length + k = maxItems) :
    ∃ q', runPrioq cmp (List.replicate (k + 1) (.put data none true)) q = .error .outOfBounds q' := by
  induction k generalizing q with
  | zero =>
    have allocated : q.nAllocated = maxItems := by
      have room := sound.room
      rcases sound.grown with none | ⟨i, le, size⟩
      · omega
      · have : 2 ^ i ≤ 2 ^ 27 := Nat.pow_le_pow_right (by decide) le
        unfold maxItems at full ⊢
        omega
    have wraps : max ((maxItems + 1) * 2 % 2 ^ 32) 16 ≤ maxItems := by decide
    refine ⟨{ q with nAllocated := max ((maxItems + 1) * 2 % 2 ^ 32) 16 }, ?_⟩
    have failed : put cmp.compare data none true q =
        .error .outOfBounds { q with nAllocated := max ((maxItems + 1) * 2 % 2 ^ 32) 16 } := by
      rw [put, get_bind, if_neg (by simp), modify_bind, if_pos (by omega)]
      rw [show q.items.length = maxItems by omega, get_bind, require]
      rfl
    have first : PrioqCall.run cmp.compare (.put data none true) q =
        .error .outOfBounds { q with nAllocated := max ((maxItems + 1) * 2 % 2 ^ 32) 16 } := by
      rw [PrioqCall.run, bind_apply, failed]
    have same : (PrioqCall.put data none true : PrioqCall D I).comparison cmp = cmp := rfl
    rw [List.replicate_succ, runPrioq, same, bind_apply, first]
  | succ k ih =>
    rw [List.replicate_succ]
    obtain ⟨r, q₁, run, sound₁, refused, stored⟩ := put_ok sound data none true (by simp)
      (by omega : q.items.length < maxItems)
    obtain rfl : r = true := by
      by_contra no
      exact absurd (refused (by simpa using no)).1 (by decide)
    have length₁ : q₁.items.length = q.items.length + 1 := (stored rfl).length_eq
    obtain ⟨q', failed⟩ := ih sound₁ (by omega)
    have first : PrioqCall.run cmp.compare (.put data none true) q = .ok (.done true) q₁ := bind_of_ok run
    refine ⟨q', ?_⟩
    have same : (PrioqCall.put data none true : PrioqCall D I).comparison cmp = cmp := rfl
    rw [runPrioq, same, bind_of_ok first, bind_apply, failed]

theorem put_past_end :
    ∃ q, runPrioq byNumber (List.replicate (maxItems + 1) (.put 0 none true)) (new fun _ : Unit => 0) =
      .error .outOfBounds q :=
  puts_past_end (new_good byNumber _).toSound 0 maxItems (by simp [new])

/-! ## Draining -/

/-- As many calls of `prioq_pop()` as there are items give their data in order. -/
theorem Good.drain (good : Good cmp q) : ∃ (data : List D) (q' : Prioq D I),
    runPrioq cmp (.replicate q.items.length .pop) q = .ok (data.map (.popped ∘ some)) q' ∧ q'.items = [] ∧
      data.Perm (q.items.map (·.data)) ∧ data.Pairwise (cmp.compare · · ≤ 0) := by
  generalize size : q.items.length = n
  induction n generalizing q with
  | zero =>
    have empty := List.eq_nil_of_length_eq_zero size
    exact ⟨[], q, rfl, empty, by simp [empty], .nil⟩
  | succ n ih =>
    obtain ⟨answer, q₁, ran, good₁, expected⟩ := call_ok good .pop trivial trivial
    obtain (_ | none | _) := answer
    · cases expected
    · simp [(Multiset.coe_eq_zero _).mp expected.1] at size
    obtain ⟨x, mem, rfl, least, rest⟩ := expected
    have perm : q.items.Perm (x :: q₁.items) := by
      rw [← Multiset.coe_eq_coe, ← Multiset.cons_coe, rest, Multiset.cons_erase mem]
    obtain ⟨data, q', run, empty, same, sorted⟩ := ih good₁ (by simpa [size] using perm.length_eq.symm)
    refine ⟨x.data :: data, q', (bind_of_ok ran).trans (bind_of_ok run), empty, ?_, .cons ?_ sorted⟩
    · exact (same.cons _).trans (perm.map _).symm
    · intro d there
      obtain ⟨y, memY, rfl⟩ := List.mem_map.mp (same.mem_iff.mp there)
      exact least y (perm.mem_iff.mpr (List.mem_cons_of_mem x memY))

/-- Whatever was called before: what is then in the queue comes out in order, each item once. -/
theorem drained_in_order (cmp : Comparison D) (slots : I → Nat) (calls : List (PrioqCall D I))
    (allowed : AllowedRun (fun cmp q call => call.Allowed cmp q ∧ call.Fits q) cmp calls (new slots)) :
    ∃ answers q, ∃ (data : List D) (q' : Prioq D I), runPrioq cmp calls (new slots) = .ok answers q ∧
      runPrioq (lastComparison cmp calls) (.replicate q.items.length .pop) q = .ok (data.map (.popped ∘ some)) q' ∧
      q'.items = [] ∧ data.Perm (q.items.map (·.data)) ∧
      data.Pairwise ((lastComparison cmp calls).compare · · ≤ 0) := by
  obtain ⟨answers, q, run, good, -⟩ := run_good (new_good cmp slots) calls allowed
  obtain ⟨data, q', drained⟩ := good.drain
  exact ⟨answers, q, data, q', run, drained⟩

theorem drained_in_order_two : ∃ (q : Prioq Nat Nat) (data : List Nat) (q' : Prioq Nat Nat),
    runPrioq byNumber [.put 5 none true, .put 3 none true] (new fun _ => 7) = .ok [.done true, .done true] q ∧
      runPrioq byNumber [.pop, .pop] q = .ok (data.map (.popped ∘ some)) q' ∧
      data.Pairwise (byNumber.compare · · ≤ 0) := by
  obtain ⟨answers, q, data, q', run, drained, -, -, sorted⟩ := drained_in_order (I := Nat) byNumber (fun _ => 7)
    [.put 5 none true, .put 3 none true] (by
      refine ⟨⟨fun s => nofun, show 0 < 2 ^ 31 by decide⟩, ?_⟩
      rintro answer q₁ ⟨⟩
      exact ⟨⟨fun s => nofun, show 1 < 2 ^ 31 by decide⟩, fun _ _ _ => trivial⟩)
  cases run
  exact ⟨_, data, q', rfl, drained, sorted⟩

end Prioq

end SystemdPort.Basic
