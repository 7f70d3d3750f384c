/-
# Bus.MatchRules — the tree of match rules is as good as a list of rules

`MatchNodes.rules` reads the rules off a tree: the components on the way to each leaf.  Adding a match
adds its rule and removing one removes it (`adds_match`, `rules_remove`), and the tree stays `Good`: a
value is there once below a compare node, and no value node is left without children.

A run calls the callbacks of the leaves it gets to one after the other (`MatchNodes.run_eq`), and it gets
to those whose components all match (`mem_selected`), where a value that is looked up in a hash table
is one that passes the test (`mem_hashKeys`).
-/
import SystemdPort.Bus.Match

namespace SystemdPort.Bus

set_option autoImplicit false
set_option linter.unusedSectionVars false

open Basic Lib.Exec List

variable {type : MatchType}

variable {C : Type} [DecidableEq C]

/-! ## The rules of a tree -/

/-- The components of a match, and its callback. -/
abbrev MatchRule (C : Type) := List MatchComponent × C

def MatchRule.under (component : MatchComponent) (rule : MatchRule C) : MatchRule C := (component :: rule.1, rule.2)

mutual

def MatchNodes.rules : MatchNodes C → List (MatchRule C)
  | .nil => []
  | .leaf c next => ([], c) :: MatchNodes.rules next
  | .compare type children next => ValueNodes.rules type children ++ MatchNodes.rules next

def ValueNodes.rules (type : MatchType) : ValueNodes C → List (MatchRule C)
  | .nil => []
  | .value value child next => (MatchNodes.rules child).map (MatchRule.under ⟨type, value⟩) ++ ValueNodes.rules type next

end

def ValueNodes.values : ValueNodes C → List MatchValue
  | .nil => []
  | .value v _ next => v :: ValueNodes.values next

mutual

def MatchNodes.Good : MatchNodes C → Prop
  | .nil => True
  | .leaf _ next => MatchNodes.Good next
  | .compare _ children next => ValueNodes.Good children ∧ MatchNodes.Good next

def ValueNodes.Good : ValueNodes C → Prop
  | .nil => True
  | .value value child next =>
    child.isNil = false ∧ MatchNodes.Good child ∧ value ∉ next.values ∧ ValueNodes.Good next

end

/-! ## Adding -/

/-- What adding a rule below a node does. -/
structure Adds (rule : MatchRule C) (f : MatchNodes C → MatchNodes C) : Prop where
  rules : ∀ t, (f t).rules.Perm (rule :: t.rules)
  good : ∀ t, t.Good → (f t).Good
  stays : ∀ t, (f t).isNil = false

theorem ValueNodes.within_adds {rule : MatchRule C} {f : MatchNodes C → MatchNodes C} (adds : Adds rule f)
    (type : MatchType) {value : MatchValue} :
    ∀ {children children' : ValueNodes C}, children.within value f = some children' →
      (children'.rules type).Perm (rule.under ⟨type, value⟩ :: children.rules type) ∧
        children'.values = children.values ∧ (children.Good → children'.Good)
  | .value v child next, children', found => by
    rw [ValueNodes.within] at found
    split at found
    · rename_i same
      subst same
      cases found
      exact ⟨((adds.rules child).map _).append_right _, rfl,
        fun good => ⟨adds.stays child, adds.good child good.2.1, good.2.2⟩⟩
    · obtain ⟨next', inner, rfl⟩ := Option.map_eq_some_iff.mp found
      obtain ⟨perm, values, goodNext⟩ := within_adds adds type inner
      exact ⟨(perm.append_left _).trans perm_middle, congrArg (v :: ·) values,
        fun good => ⟨good.1, good.2.1, values ▸ good.2.2.1, goodNext good.2.2.2⟩⟩

theorem ValueNodes.within_none {value : MatchValue} {f : MatchNodes C → MatchNodes C} :
    ∀ {children : ValueNodes C}, children.within value f = none → value ∉ children.values
  | .nil, _ => by simp [ValueNodes.values]
  | .value v child next, missing => by
    rw [ValueNodes.within] at missing
    split at missing
    · cases missing
    · rename_i apart
      simp only [ValueNodes.values, mem_cons, not_or]
      exact ⟨fun same => apart same.symm, within_none (Option.map_eq_none_iff.mp missing)⟩

variable {rule : MatchRule C} {f : MatchNodes C → MatchNodes C} {next : ValueNodes C} {child t : MatchNodes C}
  {component : MatchComponent} (callback : C)

/-- The value node for a component is found or made. -/
theorem adds_value (adds : Adds rule f) (type : MatchType) (value : MatchValue) (children : ValueNodes C) :
    let added := (children.within value f).getD (.value value (f .nil) children)
    (added.rules type).Perm (rule.under ⟨type, value⟩ :: children.rules type) ∧ (children.Good → added.Good) := by
  cases found : children.within value f with
  | some children' =>
    obtain ⟨perm, -, good⟩ := ValueNodes.within_adds adds type found
    exact ⟨perm, good⟩
  | none =>
    refine ⟨?_, fun good => ⟨adds.stays _, adds.good _ trivial, ValueNodes.within_none found, good⟩⟩
    exact ((adds.rules .nil).map _).append_right _

theorem MatchNodes.within_adds {rule : MatchRule C} {f : ValueNodes C → ValueNodes C}
    (rules : ∀ children, ((f children).rules type).Perm (rule :: children.rules type))
    (good : ∀ children, children.Good → (f children).Good) : ∀ {t t' : MatchNodes C}, t.within type f = some t' →
      t'.rules.Perm (rule :: t.rules) ∧ (t.Good → t'.Good) ∧ t'.isNil = false
  | .leaf c next, t', found => by
    obtain ⟨next', inner, rfl⟩ := Option.map_eq_some_iff.mp found
    obtain ⟨perm, goodNext, -⟩ := within_adds rules good inner
    exact ⟨(perm.cons _).trans (List.Perm.swap _ _ _), goodNext, rfl⟩
  | .compare t children next, t', found => by
    rw [MatchNodes.within] at found
    split at found
    · rename_i same
      subst same
      cases found
      exact ⟨(rules children).append_right _, fun goodT => ⟨good _ goodT.1, goodT.2⟩, rfl⟩
    · obtain ⟨next', inner, rfl⟩ := Option.map_eq_some_iff.mp found
      obtain ⟨perm, goodNext, -⟩ := within_adds rules good inner
      exact ⟨(perm.append_left _).trans perm_middle, fun goodT => ⟨goodT.1, goodNext goodT.2⟩, rfl⟩

theorem adds_compareValue (adds : Adds rule f) (type : MatchType) (value : MatchValue) :
    Adds (rule.under ⟨type, value⟩) (busMatchAddCompareValue type value f) := by
  have step : ∀ t, (busMatchAddCompareValue type value f t).rules.Perm (rule.under ⟨type, value⟩ :: t.rules) ∧
      (t.Good → (busMatchAddCompareValue type value f t).Good) ∧
      (busMatchAddCompareValue type value f t).isNil = false := by
    intro t
    have added := adds_value adds type value
    unfold busMatchAddCompareValue
    dsimp only at added ⊢
    cases found : t.within type (fun children => (children.within value f).getD (.value value (f .nil) children)) with
    | some t' => exact MatchNodes.within_adds (fun children => (added children).1) (fun children => (added children).2) found
    | none => exact ⟨(added .nil).1.append_right _, fun good => ⟨(added .nil).2 trivial, good⟩, rfl⟩
  exact ⟨fun t => (step t).1, fun t => (step t).2.1, fun t => (step t).2.2⟩

theorem adds_match (callback : C) : ∀ components, Adds (components, callback) (busMatchAdd callback components)
  | [] => ⟨fun _ => .refl _, fun _ good => good, fun _ => rfl⟩
  | component :: components => adds_compareValue (adds_match callback components) component.type component.value

/-! ## Removing -/

@[simp] theorem rules_valueMaybeFree (type : MatchType) (value : MatchValue) (next : ValueNodes C) (child : MatchNodes C) :
    (valueMaybeFree value next child).rules type = child.rules.map (MatchRule.under ⟨type, value⟩) ++ next.rules type := by
  cases child <;> rfl

@[simp] theorem rules_compareMaybeFree (type : MatchType) (next : MatchNodes C) (children : ValueNodes C) :
    (compareMaybeFree type next children).rules = children.rules type ++ next.rules := by
  cases children <;> rfl

theorem good_compareMaybeFree {next : MatchNodes C} {children : ValueNodes C} (good : children.Good)
    (goodNext : next.Good) : (compareMaybeFree type next children).Good := by
  cases children with
  | nil => exact goodNext
  | value value child rest => exact ⟨good, goodNext⟩

theorem good_valueMaybeFree {value : MatchValue} (good : child.Good) (new : value ∉ next.values)
    (goodNext : next.Good) : (valueMaybeFree value next child).Good := by
  cases child with
  | nil => exact goodNext
  | leaf _ _ | compare _ _ _ => exact ⟨rfl, good, new, goodNext⟩

theorem values_valueMaybeFree (value : MatchValue) (next : ValueNodes C) (child : MatchNodes C) :
    (valueMaybeFree value next child).values ⊆ value :: next.values := by
  cases child with
  | nil => exact subset_cons_self _ _
  | leaf _ _ | compare _ _ _ => exact List.Subset.refl _

mutual

theorem MatchNodes.removeLeaf_some (callback : C) : ∀ {t t' : MatchNodes C}, t.removeLeaf callback = some t' →
      (∃ components, t.rules.Perm ((components, callback) :: t'.rules)) ∧ (t.Good → t'.Good)
  | .leaf c next, t', found => by
    rw [MatchNodes.removeLeaf] at found
    split at found
    · rename_i same
      cases found
      exact ⟨⟨[], same ▸ .refl _⟩, id⟩
    · obtain ⟨next', inner, rfl⟩ := Option.map_eq_some_iff.mp found
      obtain ⟨⟨components, perm⟩, goodNext⟩ := MatchNodes.removeLeaf_some callback inner
      exact ⟨⟨components, (perm.cons _).trans (List.Perm.swap _ _ _)⟩, goodNext⟩
  | .compare type children next, t', found => by
    rw [MatchNodes.removeLeaf] at found
    split at found
    · rename_i children' inner
      cases found
      obtain ⟨⟨components, perm⟩, -, goodChildren⟩ := ValueNodes.removeLeaf_some callback type inner
      refine ⟨⟨components, ?_⟩, fun good => good_compareMaybeFree (goodChildren good.1) good.2⟩
      rw [rules_compareMaybeFree]
      exact perm.append_right _
    · obtain ⟨next', inner, rfl⟩ := Option.map_eq_some_iff.mp found
      obtain ⟨⟨components, perm⟩, goodNext⟩ := MatchNodes.removeLeaf_some callback inner
      exact ⟨⟨components, (perm.append_left _).trans perm_middle⟩, And.imp_right goodNext⟩

theorem ValueNodes.removeLeaf_some (callback : C) (type : MatchType) :
    ∀ {children children' : ValueNodes C}, children.removeLeaf callback = some children' →
      (∃ components, (children.rules type).Perm ((components, callback) :: children'.rules type)) ∧
        children'.values ⊆ children.values ∧ (children.Good → children'.Good)
  | .value value child next, children', found => by
    rw [ValueNodes.removeLeaf] at found
    split at found
    · rename_i child' inner
      cases found
      obtain ⟨⟨components, perm⟩, goodChild⟩ := MatchNodes.removeLeaf_some callback inner
      refine ⟨⟨⟨type, value⟩ :: components, ?_⟩, values_valueMaybeFree value next child',
        fun good => good_valueMaybeFree (goodChild good.2.1) good.2.2.1 good.2.2.2⟩
      rw [rules_valueMaybeFree]
      exact (perm.map _).append_right _
    · obtain ⟨next', inner, rfl⟩ := Option.map_eq_some_iff.mp found
      obtain ⟨⟨components, perm⟩, fewer, goodNext⟩ := ValueNodes.removeLeaf_some callback type inner
      exact ⟨⟨components, (perm.append_left _).trans perm_middle⟩, cons_subset_cons _ fewer,
        fun good => ⟨good.1, good.2.1, fun mem => good.2.2.1 (fewer mem), goodNext good.2.2.2⟩⟩

end

mutual

theorem MatchNodes.rules_of_removeLeaf_none (callback : C) :
    ∀ {t : MatchNodes C}, t.removeLeaf callback = none → ∀ rule ∈ t.rules, rule.2 ≠ callback
  | .leaf c next, missing, rule, mem => by
    rw [MatchNodes.removeLeaf] at missing
    split at missing
    · cases missing
    · rename_i apart
      rcases mem_cons.mp mem with rfl | mem
      · exact apart
      · exact MatchNodes.rules_of_removeLeaf_none callback (Option.map_eq_none_iff.mp missing) rule mem
  | .compare type children next, missing, rule, mem => by
    rw [MatchNodes.removeLeaf] at missing
    split at missing
    · cases missing
    · rename_i inner
      rcases mem_append.mp mem with mem | mem
      · exact ValueNodes.rules_of_removeLeaf_none callback type inner rule mem
      · exact MatchNodes.rules_of_removeLeaf_none callback (Option.map_eq_none_iff.mp missing) rule mem

theorem ValueNodes.rules_of_removeLeaf_none (callback : C) (type : MatchType) :
    ∀ {children : ValueNodes C}, children.removeLeaf callback = none → ∀ rule ∈ children.rules type, rule.2 ≠ callback
  | .value value child next, missing, rule, mem => by
    rw [ValueNodes.removeLeaf] at missing
    split at missing
    · cases missing
    · rename_i inner
      rcases mem_append.mp mem with mem | mem
      · obtain ⟨below, stored, rfl⟩ := mem_map.mp mem
        exact MatchNodes.rules_of_removeLeaf_none callback inner below stored
      · exact ValueNodes.rules_of_removeLeaf_none callback type (Option.map_eq_none_iff.mp missing) rule mem

end

theorem rules_remove (once : (t.rules.map Prod.snd).Nodup) :
    (busMatchRemove callback t).rules.Perm (t.rules.filter fun rule => rule.2 ≠ callback) := by
  unfold busMatchRemove
  cases found : t.removeLeaf callback with
  | none =>
    have others := MatchNodes.rules_of_removeLeaf_none callback found
    rw [filter_eq_self.mpr (by simpa using others)]
    exact .refl _
  | some t' =>
    obtain ⟨⟨components, perm⟩, -⟩ := MatchNodes.removeLeaf_some callback found
    have once := (perm.map Prod.snd).nodup_iff.mp once
    have others : ∀ rule ∈ t'.rules, rule.2 ≠ callback := by
      intro rule mem same
      have stored : rule.2 ∈ t'.rules.map Prod.snd := mem_map_of_mem mem
      exact (nodup_cons.mp once).1 (same ▸ stored)
    have rest := perm.filter fun rule => rule.2 ≠ callback
    have kept : t'.rules.filter (fun rule => rule.2 ≠ callback) = t'.rules :=
      filter_eq_self.mpr (by simpa using others)
    rw [filter_cons_of_neg (by simp), kept] at rest
    exact rest.symm

theorem good_remove (good : t.Good) : (busMatchRemove callback t).Good := by
  unfold busMatchRemove
  cases found : t.removeLeaf callback with
  | none => exact good
  | some t' => exact (MatchNodes.removeLeaf_some callback found).2 good

/-! ## What a run gets to -/

mutual

/-- The callbacks of the leaves a run gets to. -/
def MatchNodes.selected (m : MatchMessage) : MatchNodes C → List C
  | .nil => []
  | .leaf c next => c :: MatchNodes.selected m next
  | .compare type children next =>
    (if busMatchCanHash type then (hashKeys m type).flatMap fun key => ValueNodes.found m key children
    else ValueNodes.tested m type children) ++ MatchNodes.selected m next

def ValueNodes.found (m : MatchMessage) (key : MatchValue) : ValueNodes C → List C
  | .nil => []
  | .value value child next => if value = key then MatchNodes.selected m child else ValueNodes.found m key next

def ValueNodes.tested (m : MatchMessage) (type : MatchType) : ValueNodes C → List C
  | .nil => []
  | .value value child next =>
    if valueNodeTest m type value then MatchNodes.selected m child ++ ValueNodes.tested m type next
    else ValueNodes.tested m type next

end

/-- What `hashmap_get()` finds is what `value_node_test()` accepts. -/
theorem mem_hashKeys (m : MatchMessage) (hashed : busMatchCanHash type = true) (value : MatchValue) :
    value ∈ hashKeys m type ↔ valueNodeTest m type value = true := by
  cases type <;> cases value <;> simp_all [busMatchCanHash, hashKeys, valueNodeTest]

def MatchComponent.Matches (m : MatchMessage) (component : MatchComponent) : Prop :=
  valueNodeTest m component.type component.value = true

/-- All components of a rule match. -/
def MatchRule.Matches (m : MatchMessage) (rule : MatchRule C) : Prop := ∀ component ∈ rule.1, component.Matches m

theorem matches_under {m : MatchMessage} :
    (rule.under component).Matches m ↔ component.Matches m ∧ rule.Matches m := by
  simp [MatchRule.Matches, MatchRule.under]

theorem ValueNodes.under_of_mem {rule : MatchRule C} : ∀ {children : ValueNodes C}, rule ∈ children.rules type →
      ∃ key ∈ children.values, ∃ below : MatchRule C, rule = below.under ⟨type, key⟩
  | .value v child next, mem => by
    rcases mem_append.mp mem with mem | mem
    · obtain ⟨below, _, rfl⟩ := mem_map.mp mem
      exact ⟨v, mem_cons_self, below, rfl⟩
    · obtain ⟨key, stored, below, same⟩ := under_of_mem mem
      exact ⟨key, mem_cons_of_mem _ stored, below, same⟩

theorem under_inj {component' : MatchComponent} {rule' : MatchRule C}
    (same : rule.under component = rule'.under component') : component = component' ∧ rule = rule' := by
  simp only [MatchRule.under, Prod.mk.injEq, List.cons.injEq] at same
  exact ⟨same.1.1, Prod.ext same.1.2 same.2⟩

/-- A rule below a value is below the one node for it. -/
theorem ValueNodes.under_mem_value {key v : MatchValue} (new : v ∉ next.values) :
    rule.under ⟨type, key⟩ ∈ (ValueNodes.value v child next).rules type ↔
      if v = key then rule ∈ child.rules else rule.under ⟨type, key⟩ ∈ next.rules type := by
  simp only [ValueNodes.rules, mem_append, mem_map]
  split
  · rename_i same
    subst same
    constructor
    · rintro (⟨below, mem, same⟩ | mem)
      · exact (under_inj same).2 ▸ mem
      · obtain ⟨key, stored, below, same⟩ := under_of_mem mem
        obtain ⟨⟨⟩, -⟩ := under_inj same
        exact absurd stored new
    · exact fun mem => .inl ⟨rule, mem, rfl⟩
  · rename_i apart
    constructor
    · rintro (⟨below, mem, same⟩ | mem)
      · obtain ⟨⟨⟩, -⟩ := under_inj same
        exact absurd rfl apart
      · exact mem
    · exact .inr

mutual

theorem MatchNodes.mem_selected (m : MatchMessage) (c : C) :
    ∀ {t : MatchNodes C}, t.Good → (c ∈ t.selected m ↔ ∃ rule ∈ t.rules, rule.2 = c ∧ rule.Matches m)
  | .nil, _ => by simp [MatchNodes.selected, MatchNodes.rules]
  | .leaf d next, good => by
    have goodNext : next.Good := good
    rw [MatchNodes.selected, MatchNodes.rules, mem_cons, MatchNodes.mem_selected m c goodNext]
    simp [MatchRule.Matches, eq_comm]
  | .compare type children next, ⟨goodChildren, goodNext⟩ => by
    simp only [MatchNodes.selected, MatchNodes.rules, mem_append, or_and_right, exists_or,
      MatchNodes.mem_selected m c goodNext]
    refine or_congr_left ?_
    split
    · rename_i hashed
      simp only [mem_flatMap, ValueNodes.mem_found m c type _ goodChildren]
      constructor
      · rintro ⟨key, isKey, rule, mem, same, match_⟩
        exact ⟨_, mem, same, matches_under.mpr ⟨(mem_hashKeys m hashed key).mp isKey, match_⟩⟩
      · rintro ⟨rule, mem, same, match_⟩
        obtain ⟨key, _, below, rfl⟩ := ValueNodes.under_of_mem mem
        obtain ⟨passes, match_⟩ := matches_under.mp match_
        exact ⟨key, (mem_hashKeys m hashed key).mpr passes, below, mem, same, match_⟩
    · exact ValueNodes.mem_tested m c type goodChildren

theorem ValueNodes.mem_found (m : MatchMessage) (c : C) (type : MatchType) (key : MatchValue) :
    ∀ {children : ValueNodes C}, children.Good → (c ∈ children.found m key ↔
        ∃ rule : MatchRule C, rule.under ⟨type, key⟩ ∈ children.rules type ∧ rule.2 = c ∧ rule.Matches m)
  | .nil, _ => by simp [ValueNodes.found, ValueNodes.rules]
  | .value v child next, ⟨_, goodChild, new, goodNext⟩ => by
    simp only [ValueNodes.under_mem_value new, ValueNodes.found]
    split
    · exact MatchNodes.mem_selected m c goodChild
    · exact ValueNodes.mem_found m c type key goodNext

theorem ValueNodes.mem_tested (m : MatchMessage) (c : C) (type : MatchType) :
    ∀ {children : ValueNodes C}, children.Good →
      (c ∈ children.tested m type ↔ ∃ rule ∈ children.rules type, rule.2 = c ∧ rule.Matches m)
  | .nil, _ => by simp [ValueNodes.tested, ValueNodes.rules]
  | .value v child next, ⟨_, goodChild, _, goodNext⟩ => by
    have below : (∃ rule ∈ child.rules.map (MatchRule.under ⟨type, v⟩), rule.2 = c ∧ rule.Matches m) ↔
        valueNodeTest m type v = true ∧ ∃ rule ∈ child.rules, rule.2 = c ∧ rule.Matches m := by
      constructor
      · rintro ⟨_, mem, same, match_⟩
        obtain ⟨rule, stored, rfl⟩ := mem_map.mp mem
        obtain ⟨passes, match_⟩ := matches_under.mp match_
        exact ⟨passes, rule, stored, same, match_⟩
      · rintro ⟨passes, rule, mem, same, match_⟩
        exact ⟨_, mem_map_of_mem mem, same, matches_under.mpr ⟨passes, match_⟩⟩
    simp only [ValueNodes.tested, ValueNodes.rules, mem_append, or_and_right, exists_or, below]
    rw [← ValueNodes.mem_tested m c type goodNext, ← MatchNodes.mem_selected m c goodChild]
    split <;> simp_all

end

/-! ## A run, leaf by leaf -/

section Run

variable (m : MatchMessage) (handlers : Handlers C)

/-- Run the callbacks of some leaves. -/
def deliver : List C → MatchM C Int
  | [] => return 0
  | c :: callbacks => unlessModified (andThen (runLeaf m handlers c) (deliver callbacks))

variable {bus : SdBus C} {c d : C} (first next : MatchM C Int) (callbacks : List C)

theorem andThen_apply (bus : SdBus C) : andThen first next bus =
      match first bus with
      | .ok r bus' => if r ≠ 0 then .ok r bus' else if bus'.matchCallbacksModified then .ok 0 bus' else next bus'
      | .error fault bus' => .error fault bus' := by
  rw [andThen, bind_apply]
  cases first bus with
  | error fault bus' => rfl
  | ok r bus' =>
    dsimp only
    split
    · rfl
    · rw [get_bind]
      split <;> rfl

theorem unlessModified_apply (x : MatchM C Int) (bus : SdBus C) :
    unlessModified x bus = if bus.matchCallbacksModified then .ok 0 bus else x bus := by
  rw [unlessModified, get_bind]
  split <;> rfl

theorem andThen_assoc (second third : MatchM C Int) :
    andThen (andThen first second) third = andThen first (andThen second third) := by
  funext bus
  simp only [andThen_apply]
  cases first bus with
  | error fault bus' => rfl
  | ok r bus' =>
    by_cases stop : r ≠ 0
    · simp [stop]
    · by_cases modified : bus'.matchCallbacksModified = true <;> simp [stop, modified]

theorem unlessModified_andThen : andThen (unlessModified first) next = unlessModified (andThen first next) := by
  funext bus
  simp only [andThen_apply, unlessModified_apply]
  by_cases modified : bus.matchCallbacksModified = true <;> simp [modified]

theorem unlessModified_deliver : unlessModified (deliver m handlers callbacks) = deliver m handlers callbacks := by
  funext bus
  rw [unlessModified_apply]
  split
  · rename_i modified
    cases callbacks with
    | nil => rfl
    | cons c callbacks => rw [deliver, unlessModified_apply, if_pos modified]
  · rfl

theorem deliver_append (more : List C) :
    deliver m handlers (callbacks ++ more) = andThen (deliver m handlers callbacks) (deliver m handlers more) := by
  induction callbacks with
  | nil =>
    funext bus
    have empty : deliver m handlers [] bus = .ok 0 bus := rfl
    rw [andThen_apply, empty]
    dsimp only
    rw [if_neg (by simp), ← unlessModified_apply, unlessModified_deliver, nil_append]
  | cons c callbacks ih =>
    rw [cons_append, deliver, ih, deliver, unlessModified_andThen, andThen_assoc]

theorem forEachKey_deliver (f : MatchValue → MatchM C Int) (leaves : MatchValue → List C)
    (each : ∀ key, f key = deliver m handlers (leaves key)) (keys : List MatchValue) :
    forEachKey f keys = deliver m handlers (keys.flatMap leaves) := by
  induction keys with
  | nil => rfl
  | cons key keys ih =>
    rw [forEachKey, ih, flatMap_cons, deliver_append, each]
    funext bus
    rw [bind_apply, andThen_apply]
    cases deliver m handlers (leaves key) bus with
    | error fault bus' => rfl
    | ok r bus' =>
      dsimp only
      split
      · rfl
      · rw [← unlessModified_apply, unlessModified_deliver]

theorem runValue_eq {child : MatchNodes C} {leaves : List C} (full : child.isNil = false)
    (run : busMatchRun m handlers child = deliver m handlers leaves) :
    unlessModified (do
      require (child.isNil = false) .assertion
      busMatchRun m handlers child) = deliver m handlers leaves := by
  rw [← unlessModified_deliver, ← run]
  congr 1
  funext bus
  exact require_of full

mutual

/-- A run calls the callbacks of the leaves it gets to, one after the other. -/
theorem MatchNodes.run_eq : ∀ {t : MatchNodes C}, t.Good →
    busMatchRun m handlers t = deliver m handlers (t.selected m)
  | .nil, _ => by rw [busMatchRun, MatchNodes.selected, deliver]
  | .leaf c next, good => by
    have goodNext : next.Good := good
    rw [busMatchRun, MatchNodes.selected, deliver, MatchNodes.run_eq goodNext]
  | .compare type children next, ⟨goodChildren, goodNext⟩ => by
    rw [busMatchRun, MatchNodes.selected, MatchNodes.run_eq goodNext]
    split
    · rw [forEachKey_deliver m handlers _ _ (fun key => ValueNodes.runFound_eq key goodChildren), ← deliver_append,
        unlessModified_deliver]
    · rw [ValueNodes.runTested_eq type goodChildren, ← deliver_append, unlessModified_deliver]

theorem ValueNodes.runFound_eq (key : MatchValue) : ∀ {children : ValueNodes C}, children.Good →
    runFound m handlers key children = deliver m handlers (children.found m key)
  | .nil, _ => by rw [runFound, ValueNodes.found, deliver]
  | .value v child next, ⟨full, goodChild, _, goodNext⟩ => by
    rw [runFound, ValueNodes.found]
    split
    · exact runValue_eq m handlers full (MatchNodes.run_eq goodChild)
    · exact ValueNodes.runFound_eq key goodNext

theorem ValueNodes.runTested_eq (type : MatchType) : ∀ {children : ValueNodes C}, children.Good →
    runTested m handlers type children = deliver m handlers (children.tested m type)
  | .nil, _ => by rw [runTested, ValueNodes.tested, deliver]
  | .value v child next, ⟨full, goodChild, _, goodNext⟩ => by
    rw [runTested, ValueNodes.tested]
    split
    · rw [runValue_eq m handlers full (MatchNodes.run_eq goodChild), ValueNodes.runTested_eq type goodNext,
        ← deliver_append]
    · exact ValueNodes.runTested_eq type goodNext

end

/-- A callback that is to be called for a message, once in an iteration. -/
def Due (bus : SdBus C) (c : C) : Prop :=
  ¬ ((bus.callbacks c).installSlot = true ∨ m.readCounter ≤ (bus.callbacks c).after ∨
    (bus.callbacks c).lastIteration = bus.iterationCounter)

theorem due_iterate : Due m (bus.iterate c) d ↔ Due m bus d ∧ d ≠ c := by
  by_cases isC : d = c
  · simp [Due, SdBus.iterate, isC]
  · simp [Due, SdBus.iterate, isC]

theorem callback_iterate (bus : SdBus C) (c d : C) :
    ((bus.iterate c).callbacks d).callback = (bus.callbacks d).callback := by
  by_cases isC : d = c
  · subst isC
    simp [SdBus.iterate]
  · simp [SdBus.iterate, isC]

theorem runLeaf_ok (zero : ∀ c, handlers.result c = 0) (unmodified : ∀ c, handlers.modifies c = false) (c : C)
    (same : bus.matchCallbacksModified = false) :
    ∃ bus', runLeaf m handlers c bus = .ok 0 bus' ∧ bus'.matchCallbacksModified = false ∧
      (∀ d, Due m bus' d ↔ Due m bus d ∧ d ≠ c) ∧ (∀ d, (bus'.callbacks d).callback = (bus.callbacks d).callback) ∧
      ∃ called, bus'.called = bus.called ++ called ∧
        (∀ d, d ∈ called ↔ d = c ∧ Due m bus c ∧ (bus.callbacks c).callback = true) ∧ called.Nodup := by
  unfold runLeaf
  by_cases due : Due m bus c
  · rw [get_bind, if_neg due]
    by_cases callback : (bus.callbacks c).callback = true
    · rw [if_pos callback, zero]
      refine ⟨_, rfl, ?_, fun d => due_iterate m, callback_iterate bus c, [c], rfl, ?_, nodup_singleton c⟩
      · simp [SdBus.call, SdBus.iterate, same, unmodified]
      · simp [due, callback]
    · rw [if_neg callback]
      exact ⟨_, rfl, same, fun d => due_iterate m, callback_iterate bus c, [], by simp [SdBus.iterate], by simp [callback],
        nodup_nil⟩
  · rw [get_bind, if_pos (not_not.mp due)]
    refine ⟨bus, rfl, same, fun d => ⟨fun dueD => ⟨dueD, ?_⟩, And.left⟩, fun d => rfl, [], by simp, by simp [due],
      nodup_nil⟩
    rintro rfl
    exact due dueD

theorem deliver_ok (zero : ∀ c, handlers.result c = 0) (unmodified : ∀ c, handlers.modifies c = false)
    (callbacks : List C) (same : bus.matchCallbacksModified = false) :
    ∃ bus' called, deliver m handlers callbacks bus = .ok 0 bus' ∧ bus'.called = bus.called ++ called ∧ called.Nodup ∧
      ∀ c, c ∈ called ↔ c ∈ callbacks ∧ Due m bus c ∧ (bus.callbacks c).callback = true := by
  induction callbacks generalizing bus with
  | nil => exact ⟨bus, [], rfl, by simp, nodup_nil, by simp⟩
  | cons c callbacks ih =>
    obtain ⟨bus₁, first, same₁, due₁, callback₁, here, called₁, mem₁, nodup₁⟩ :=
      runLeaf_ok m handlers zero unmodified c same
    obtain ⟨bus₂, called, rest, called₂, nodup₂, mem₂⟩ := ih same₁
    refine ⟨bus₂, here ++ called, ?_, ?_, ?_, ?_⟩
    · rw [deliver, unlessModified_apply, same, andThen_apply, first]
      simp [same₁, rest]
    · rw [called₂, called₁, append_assoc]
    · refine nodup_append.mpr ⟨nodup₁, nodup₂, ?_⟩
      rintro d memHere e memRest rfl
      have isC := ((mem₁ d).mp memHere).1
      exact ((due₁ d).mp ((mem₂ d).mp memRest).2.1).2 isC
    · intro d
      rw [mem_append, mem₁, mem₂, due₁, callback₁]
      by_cases isC : d = c
      · subst isC
        simp
      · simp [isC]

end Run

/-! ## Histories -/

/-- What a change does to the rules that are installed. -/
def MatchCall.install (rules : List (MatchRule C)) : MatchCall C → List (MatchRule C)
  | add components callback => (components, callback) :: rules
  | remove callback => rules.filter fun rule => rule.2 ≠ callback

/-- The rules that are installed after some changes. -/
def installed (calls : List (MatchCall C)) : List (MatchRule C) := calls.foldl MatchCall.install []

/-- A callback is added while it is not installed; each match has a slot of its own. -/
def OwnSlots : List (MatchRule C) → List (MatchCall C) → Prop
  | _, [] => True
  | rules, .add components callback :: calls =>
    callback ∉ rules.map Prod.snd ∧ OwnSlots ((MatchCall.add components callback).install rules) calls
  | rules, .remove callback :: calls => OwnSlots ((MatchCall.remove callback).install rules) calls

theorem ownSlots_left {later : List (MatchCall C)} : ∀ {rules : List (MatchRule C)} (calls : List (MatchCall C)),
    OwnSlots rules (calls ++ later) → OwnSlots rules calls
  | _, [], _ => trivial
  | _, .add _ _ :: calls, own => ⟨own.1, ownSlots_left calls own.2⟩
  | _, .remove _ :: calls, own => ownSlots_left calls own

/-- The tree has the rules that are installed. -/
structure Keeps (rules : List (MatchRule C)) (t : MatchNodes C) : Prop where
  good : t.Good
  perm : t.rules.Perm rules
  once : (rules.map Prod.snd).Nodup

theorem Keeps.add {rules : List (MatchRule C)} {t : MatchNodes C} (keeps : Keeps rules t)
    (components : List MatchComponent) {callback : C} (new : callback ∉ rules.map Prod.snd) :
    Keeps ((components, callback) :: rules) (busMatchAdd callback components t) where
  good := (adds_match callback components).good t keeps.good
  perm := ((adds_match callback components).rules t).trans (keeps.perm.cons _)
  once := nodup_cons.mpr ⟨new, keeps.once⟩

theorem Keeps.remove {rules : List (MatchRule C)} (keeps : Keeps rules t) (callback : C) :
    Keeps (rules.filter fun rule => rule.2 ≠ callback) (busMatchRemove callback t) where
  good := good_remove callback keeps.good
  perm := by
    have once : (t.rules.map Prod.snd).Nodup := (keeps.perm.map Prod.snd).nodup_iff.mpr keeps.once
    exact (rules_remove callback once).trans (keeps.perm.filter _)
  once := keeps.once.sublist (filter_sublist.map Prod.snd)

theorem Keeps.run {rules : List (MatchRule C)} {t : MatchNodes C} (keeps : Keeps rules t) (calls : List (MatchCall C))
    (own : OwnSlots rules calls) :
    Keeps (calls.foldl MatchCall.install rules) (calls.foldl (fun root call => call.run root) t) := by
  induction calls generalizing rules t with
  | nil => exact keeps
  | cons call calls ih =>
    cases call with
    | add components callback => exact ih (keeps.add components own.1) own.2
    | remove callback => exact ih (keeps.remove callback) own

theorem keeps_nil : Keeps ([] : List (MatchRule C)) .nil := ⟨trivial, .refl _, nodup_nil⟩

/-- After any changes, a run calls the callbacks of the rules that are installed and match, each once. -/
theorem busMatchRun_exact (calls : List (MatchCall C)) (own : OwnSlots [] calls) (m : MatchMessage)
    (handlers : Handlers C) (zero : ∀ c, handlers.result c = 0) (unmodified : ∀ c, handlers.modifies c = false)
    (bus : SdBus C) (same : bus.matchCallbacksModified = false)
    (advanced : ∀ rule ∈ installed calls, (bus.callbacks rule.2).lastIteration ≠ bus.iterationCounter) :
    ∃ bus' called, busMatchRun m handlers (matchTree calls) bus = .ok 0 bus' ∧ bus'.called = bus.called ++ called ∧
      called.Nodup ∧ ∀ c, c ∈ called ↔
        (∃ rule ∈ installed calls, rule.2 = c ∧ rule.Matches m) ∧ (bus.callbacks c).callback = true ∧
          (bus.callbacks c).installSlot = false ∧ (bus.callbacks c).after < m.readCounter := by
  have keeps : Keeps (installed calls) (matchTree calls) := Keeps.run keeps_nil calls own
  obtain ⟨bus', called, run, log, nodup, mem⟩ :=
    deliver_ok m handlers zero unmodified ((matchTree calls).selected m) same
  refine ⟨bus', called, ?_, log, nodup, ?_⟩
  · rwa [MatchNodes.run_eq m handlers keeps.good]
  · intro c
    have selected : c ∈ (matchTree calls).selected m ↔ ∃ rule ∈ installed calls, rule.2 = c ∧ rule.Matches m := by
      rw [MatchNodes.mem_selected m c keeps.good]
      simp only [keeps.perm.mem_iff]
    rw [mem, selected]
    simp only [Due, not_or, not_le, Bool.not_eq_true]
    constructor
    · rintro ⟨matching, ⟨waits, early, _⟩, callback⟩
      exact ⟨matching, callback, waits, early⟩
    · rintro ⟨⟨rule, stored, rfl, match_⟩, callback, waits, early⟩
      exact ⟨⟨rule, stored, rfl, match_⟩, ⟨waits, early, advanced rule stored⟩, callback⟩

/-- Of three matches, one is removed and one is for another member. -/
theorem busMatchRun_exact_three :
    ∃ bus' called, busMatchRun { type := 4, member := some [65], readCounter := 1 } ⟨fun _ => 0, fun _ => false⟩
        (matchTree [.add [⟨.messageType, .u8 4⟩, ⟨.member, .str [65]⟩] 0, .add [⟨.member, .str [66]⟩] 1, .add [] 2,
          .remove 2]) { callbacks := fun _ : Nat => {}, iterationCounter := 1 } = .ok 0 bus' ∧
      bus'.called = called ∧ called.Nodup ∧ 0 ∈ called ∧ 1 ∉ called ∧ 2 ∉ called := by
  have own : OwnSlots ([] : List (MatchRule Nat))
      [.add [⟨.messageType, .u8 4⟩, ⟨.member, .str [65]⟩] 0, .add [⟨.member, .str [66]⟩] 1, .add [] 2, .remove 2] := by
    simp [OwnSlots, MatchCall.install]
  obtain ⟨bus', called, run, log, nodup, mem⟩ := busMatchRun_exact _ own
    { type := 4, member := some [65], readCounter := 1 } ⟨fun _ => 0, fun _ => false⟩ (fun _ => rfl) (fun _ => rfl)
    { callbacks := fun _ : Nat => {}, iterationCounter := 1 } rfl (by simp)
  refine ⟨bus', called, run, log, nodup, ?_, ?_, ?_⟩ <;> rw [mem] <;>
    simp [installed, MatchCall.install, MatchRule.Matches, MatchComponent.Matches, valueNodeTest]

/-! ## Without memory -/

section Memory

variable {memory : Nat → Bool} {components : List MatchComponent}

theorem busMatchTryAdd_of_memory (enough : ∀ i, memory i = true) (components : List MatchComponent) :
    ∀ n (t : MatchNodes C), busMatchTryAdd callback memory components n t = (true, busMatchAdd callback components t) := by
  induction components with
  | nil => simp [busMatchTryAdd, busMatchAdd, enough]
  | cons component components ih => simp [busMatchTryAdd, busMatchAdd, enough, ih]

theorem ValueNodes.within_same {value : MatchValue} (same : f child = child) :
    ∀ {children : ValueNodes C}, children.find value = some child → children.within value f = some children
  | .value v _ next, found => by
    rw [ValueNodes.find] at found
    rw [ValueNodes.within]
    split at found
    · rename_i here
      cases found
      rw [if_pos here, same]
    · rename_i apart
      rw [if_neg apart, within_same same found]
      rfl

theorem MatchNodes.within_same {f : ValueNodes C → ValueNodes C} {children : ValueNodes C} (same : f children = children) :
    ∀ {t : MatchNodes C}, t.find type = some children → t.within type f = some t
  | .leaf c next, found => by
    rw [MatchNodes.within, within_same (t := next) same found]
    rfl
  | .compare v _ next, found => by
    rw [MatchNodes.find] at found
    rw [MatchNodes.within]
    split at found
    · rename_i here
      cases found
      rw [if_pos here, same]
    · rename_i apart
      rw [if_neg apart, within_same same found]
      rfl

/-- Memory runs out at the first component that is not in the tree, or at the leaf. -/
def FailsAtOnce (memory : Nat → Bool) : List MatchComponent → MatchNodes C → Prop
  | [], _ => True
  | component :: components, where_ =>
    match where_.child component with
    | some child => FailsAtOnce memory components child
    | none => (List.range (allocations component where_)).all memory = false

/-- Such a call leaves the tree as it was. -/
theorem busMatchTryAdd_same (failed : (busMatchTryAdd callback memory components 0 t).1 = false)
    (atOnce : FailsAtOnce memory components t) : (busMatchTryAdd callback memory components 0 t).2 = t := by
  induction components generalizing t with
  | nil =>
    rw [busMatchTryAdd] at failed ⊢
    split at failed
    · cases failed
    · rename_i out
      rw [if_neg out]
  | cons component components ih =>
    rw [busMatchTryAdd] at failed ⊢
    rw [FailsAtOnce] at atOnce
    cases found : t.child component with
    | some child =>
      obtain ⟨children, isType, isValue⟩ := Option.bind_eq_some_iff.mp found
      have none : allocations component t = 0 := by simp [allocations, isType, isValue]
      rw [found] at atOnce
      rw [none, found] at failed
      rw [none]
      have below := ValueNodes.within_same (f := fun child => (busMatchTryAdd callback memory components 0 child).2)
        (ih failed atOnce) isValue
      dsimp only [busMatchAddCompareValue]
      exact congrArg (Option.getD · _) (MatchNodes.within_same (by rw [below]; rfl) isType)
    | none =>
      rw [found, List.range_eq_range'] at atOnce
      rw [atOnce]
      rfl

theorem ValueNodes.good_of_added {value : MatchValue} : ∀ (children : ValueNodes C),
    ((children.within value f).getD (.value value (f .nil) children)).Good →
      (f ((children.find value).getD .nil)).isNil = false ∧ (f ((children.find value).getD .nil)).Good
  | .nil, good => ⟨good.1, good.2.1⟩
  | .value v child next, good => by
    rw [ValueNodes.within] at good
    rw [ValueNodes.find]
    split_ifs at good ⊢
    · exact ⟨good.1, good.2.1⟩
    · refine good_of_added next ?_
      cases found : next.within value f with
      | none =>
        rw [found] at good
        exact ⟨good.1, good.2.1, within_none found, good.2.2.2.2.2.2⟩
      | some next' =>
        rw [found] at good
        exact good.2.2.2

theorem MatchNodes.good_of_added {f : ValueNodes C → ValueNodes C} : ∀ {t : MatchNodes C},
    ((t.within type f).getD (.compare type (f .nil) t)).Good → (f ((t.find type).getD .nil)).Good
  | .nil, good => good.1
  | .leaf c next, good => by
    rw [MatchNodes.within] at good
    refine good_of_added (t := next) ?_
    cases found : next.within type f with
    | none => simpa only [found, Option.map_none, Option.getD_none, MatchNodes.Good] using good
    | some next' => simpa only [found, Option.map_some, Option.getD_some, MatchNodes.Good] using good
  | .compare v children next, good => by
    rw [MatchNodes.within] at good
    rw [MatchNodes.find]
    split_ifs at good ⊢
    · exact good.1
    · refine good_of_added (t := next) ?_
      cases found : next.within type f with
      | none =>
        rw [found] at good
        exact ⟨good.1, good.2.2⟩
      | some next' =>
        rw [found] at good
        exact good.2

/-- Where the tree is good, the value node that was found or made has good children. -/
theorem good_of_addCompareValue (good : (busMatchAddCompareValue component.type component.value f t).Good) :
    (f ((t.child component).getD .nil)).isNil = false ∧ (f ((t.child component).getD .nil)).Good := by
  have below := ValueNodes.good_of_added _ (MatchNodes.good_of_added good)
  rw [MatchNodes.child]
  cases found : t.find component.type <;> rw [found] at below <;> exact below

/-- A failing call that makes value nodes leaves one without children. -/
theorem nil_of_busMatchTryAdd (components : List MatchComponent) : ∀ n,
    (busMatchTryAdd callback memory components n .nil).1 = false →
    (busMatchTryAdd callback memory components n .nil).2.Good →
      (busMatchTryAdd callback memory components n .nil).2.isNil = true := by
  induction components with
  | nil =>
    intro n failed _
    rw [busMatchTryAdd] at failed ⊢
    split_ifs at failed ⊢
    rfl
  | cons component components ih =>
    intro n failed good
    rw [busMatchTryAdd] at failed good ⊢
    split_ifs at failed good ⊢
    · obtain ⟨full, below⟩ := good_of_addCompareValue (t := .nil) good
      exact absurd (ih _ failed below) (Bool.eq_false_iff.mp full)
    · rfl

theorem failsAtOnce_of_good (failed : (busMatchTryAdd callback memory components 0 t).1 = false)
    (good : (busMatchTryAdd callback memory components 0 t).2.Good) : FailsAtOnce memory components t := by
  induction components generalizing t with
  | nil => trivial
  | cons component components ih =>
    rw [busMatchTryAdd] at failed good
    rw [FailsAtOnce]
    cases found : t.child component with
    | some child =>
      obtain ⟨children, isType, isValue⟩ := Option.bind_eq_some_iff.mp found
      have none : allocations component t = 0 := by simp [allocations, isType, isValue]
      rw [none, found] at failed
      rw [none] at good
      have below := good_of_addCompareValue good
      rw [found] at below
      exact ih failed below.2
    | none =>
      dsimp only
      rw [found] at failed
      rw [List.range_eq_range']
      by_contra enough
      rw [if_pos (by simpa using enough)] at failed good
      obtain ⟨full, below⟩ := good_of_addCompareValue good
      rw [found] at full below
      exact absurd (nil_of_busMatchTryAdd callback components _ failed below) (Bool.eq_false_iff.mp full)

theorem deliver_succeeds (m : MatchMessage) (handlers : Handlers C) (callbacks : List C) (bus : SdBus C) :
    succeeds (deliver m handlers callbacks bus) = true := by
  induction callbacks generalizing bus with
  | nil => rfl
  | cons c callbacks ih =>
    obtain ⟨r, bus', run⟩ : ∃ r bus', runLeaf m handlers c bus = .ok r bus' := by
      rw [runLeaf, get_bind]
      split
      · exact ⟨_, _, rfl⟩
      · rw [modify_bind]
        split <;> exact ⟨_, _, rfl⟩
    rw [deliver, unlessModified_apply, andThen_apply, run]
    dsimp only
    split_ifs
    · rfl
    · rfl
    · rfl
    · exact ih bus'

/-- A failing call leaves the tree as it was exactly if it fails at once.  Then the tree is what other calls
make of it, and a run does not fail. -/
theorem failed_add_undone (calls later : List (MatchCall C)) (own : OwnSlots [] (calls ++ later))
    (failed : (busMatchTryAdd callback memory components 0 (matchTree calls)).1 = false) :
    let after := (busMatchTryAdd callback memory components 0 (matchTree calls)).2
    let t := later.foldl (fun root call => call.run root) after
    (after = matchTree calls ↔ FailsAtOnce memory components (matchTree calls)) ∧
      (FailsAtOnce memory components (matchTree calls) →
        t = matchTree (calls ++ later) ∧ ∀ m handlers bus, succeeds (busMatchRun m handlers t bus) = true) := by
  have before : Keeps _ (matchTree calls) := Keeps.run keeps_nil _ (ownSlots_left calls own)
  have keeps : Keeps _ (matchTree (calls ++ later)) := Keeps.run keeps_nil _ own
  have same : later.foldl (fun root call => call.run root) (matchTree calls) = matchTree (calls ++ later) :=
    (foldl_append ..).symm
  refine ⟨⟨fun kept => ?_, busMatchTryAdd_same callback failed⟩, fun atOnce => ?_⟩
  · exact failsAtOnce_of_good callback failed (by rw [kept]; exact before.good)
  · rw [busMatchTryAdd_same callback failed atOnce, same]
    refine ⟨rfl, fun m handlers bus => ?_⟩
    rw [MatchNodes.run_eq m handlers keeps.good]
    exact deliver_succeeds m handlers _ bus

/-- Memory runs out at the second value of a component. -/
theorem failed_add_undone_second :
    let calls : List (MatchCall Nat) := [.add [⟨.member, .str [65]⟩] 0]
    (busMatchTryAdd 1 (· < 1) [⟨.member, .str [66]⟩] 0 (matchTree calls)).2 = matchTree calls := by
  intro calls
  have failed : (busMatchTryAdd 1 (· < 1) [⟨.member, .str [66]⟩] 0 (matchTree calls)).1 = false := rfl
  exact (failed_add_undone 1 calls [] (by simp [calls, OwnSlots]) failed).1.mpr rfl

/-- Memory runs out for the leaf of a rule with a new component; a run with a message that matches fails then. -/
theorem failed_add_asserts :
    let t := busMatchTryAdd 0 (· < 5) [⟨.member, .str [65]⟩] 0 (matchTree ([] : List (MatchCall Nat)))
    let bus : SdBus Nat := { callbacks := fun _ => {}, iterationCounter := 1 }
    t.1 = false ∧ succeeds (busMatchRun { type := 4, member := some [65] } ⟨fun _ => 0, fun _ => false⟩ t.2 bus) = false ∧
      succeeds (busMatchRun { type := 4, member := some [65] } ⟨fun _ => 0, fun _ => false⟩ (matchTree []) bus) = true := by
  decide +kernel

end Memory

end SystemdPort.Bus
