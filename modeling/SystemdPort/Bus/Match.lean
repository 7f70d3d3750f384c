/-
# Bus.Match — the tree of match rules

`src/libsystemd/sd-bus/bus-match.c`: the rules of all matches of a connection in one tree.  The root
and each value node have a list of compare nodes and leaves; a compare node has value nodes, in a
hash table where a value can be looked up and in a list where each value has to be tested.  A rule
is a path of components from the root to the leaf with its callback.

The tree is given by its children and next pointers; the callback's `match_node` is its leaf in the
tree.  The values of a compare node that has a hash table are in some order here that nothing
depends on.  What a callback returns, and whether it adds or removes matches, is told to the run.
-/
import SystemdPort.Basic.StringUtil
import SystemdPort.Lib.Exec

namespace SystemdPort.Bus

set_option autoImplicit false

open Basic Lib.Exec

/-- The kinds of compare nodes. -/
inductive MatchType where
  | sender
  | messageType
  | destination
  | interface
  | member
  | path
  | pathNamespace
  | arg (i : Fin 64)
  | argPath (i : Fin 64)
  | argNamespace (i : Fin 64)
  | argHas (i : Fin 64)
  deriving DecidableEq

/-- `BUS_MATCH_CAN_HASH()` -/
def busMatchCanHash : MatchType → Bool
  | .messageType | .destination | .interface | .member | .path | .arg _ | .argHas _ => true
  | .sender | .pathNamespace | .argPath _ | .argNamespace _ => false

/-- What a component compares with: the number of a message type, else a string. -/
inductive MatchValue where
  | u8 (u : UInt8)
  | str (s : CString)
  deriving DecidableEq

structure MatchComponent where
  type : MatchType
  value : MatchValue
  deriving DecidableEq

/-- What a run reads of a message. -/
structure MatchMessage where
  type : UInt8
  sender : Option CString := none
  destination : Option CString := none
  interface : Option CString := none
  member : Option CString := none
  path : Option CString := none
  /-- What `bus_message_get_arg()` finds. -/
  arg : Nat → Option CString := fun _ => none
  /-- What `bus_message_get_arg_strv()` finds. -/
  argStrv : Nat → Option (List CString) := fun _ => none
  /-- The well-known names of the sender, if `SD_BUS_CREDS_WELL_KNOWN_NAMES` is set. -/
  wellKnownNames : Option (List CString) := none
  readCounter : Nat := 0

/-! ## Patterns -/

/-- The loop of `complex_pattern_check()`; the end of a string is a 0. -/
def complexPatternLoop (c : UInt8) : Bool → CString → CString → Bool
  | _, [], [] => true
  | separator, [], _ :: _ => separator
  | separator, _ :: _, [] => separator
  | _, x :: a, y :: b => if x ≠ y then false else complexPatternLoop c (x = c) a b

/-- `complex_pattern_check()` -/
def complexPatternCheck (c : UInt8) : Option CString → Option CString → Bool
  | none, none => true
  | some a, some b => complexPatternLoop c false a b
  | _, _ => false

/-- The loop of `simple_pattern_check()` -/
def simplePatternLoop (c : UInt8) : Bool → CString → CString → Bool
  | _, [], [] => true
  | separator, [], y :: _ => y = c || separator
  | _, _ :: _, [] => false
  | _, x :: a, y :: b => if x ≠ y then false else simplePatternLoop c (x = c) a b

/-- `simple_pattern_check()` -/
def simplePatternCheck (c : UInt8) : Option CString → Option CString → Bool
  | none, none => true
  | some a, some b => simplePatternLoop c false a b
  | _, _ => false

/-- `namespace_simple_pattern()` -/
def namespaceSimplePattern : Option CString → Option CString → Bool := simplePatternCheck '.'.toUInt8

/-- `path_simple_pattern()` -/
def pathSimplePattern : Option CString → Option CString → Bool := simplePatternCheck '/'.toUInt8

/-- `path_complex_pattern()` -/
def pathComplexPattern : Option CString → Option CString → Bool := complexPatternCheck '/'.toUInt8

/-! ## The tree -/

section Tree

variable (C : Type)

mutual

/-- The children of the root or of a value node. -/
inductive MatchNodes where
  | nil
  | leaf (callback : C) (next : MatchNodes)
  | compare (type : MatchType) (children : ValueNodes) (next : MatchNodes)

/-- The children of a compare node. -/
inductive ValueNodes where
  | nil
  | value (value : MatchValue) (child : MatchNodes) (next : ValueNodes)

end

end Tree

section Change

variable {C : Type}

/-- The value node for `value`, if there is one, gets `f` of its children; both `hashmap_get()` and the
search with `value_node_same()`. -/
def ValueNodes.within (value : MatchValue) (f : MatchNodes C → MatchNodes C) : ValueNodes C → Option (ValueNodes C)
  | .nil => none
  | .value v child next =>
    if v = value then some (.value v (f child) next) else (within value f next).map (.value v child)

/-- The compare node for `type`, if there is one, gets `f` of its values. -/
def MatchNodes.within (type : MatchType) (f : ValueNodes C → ValueNodes C) : MatchNodes C → Option (MatchNodes C)
  | .nil => none
  | .leaf c next => (within type f next).map (.leaf c)
  | .compare t children next =>
    if t = type then some (.compare t (f children) next) else (within type f next).map (.compare t children)

/-- `bus_match_add_compare_value()`; `f` is what is then done with the children of the value node. -/
def busMatchAddCompareValue (type : MatchType) (value : MatchValue) (f : MatchNodes C → MatchNodes C)
    (where_ : MatchNodes C) : MatchNodes C :=
  let add (children : ValueNodes C) : ValueNodes C :=
    (children.within value f).getD (.value value (f .nil) children)
  (where_.within type add).getD (.compare type (add .nil) where_)

/-- `bus_match_add_leaf()` -/
def busMatchAddLeaf (callback : C) (where_ : MatchNodes C) : MatchNodes C := .leaf callback where_

/-- `bus_match_add()` -/
def busMatchAdd (callback : C) : List MatchComponent → MatchNodes C → MatchNodes C
  | [] => busMatchAddLeaf callback
  | component :: components =>
    busMatchAddCompareValue component.type component.value (busMatchAdd callback components)

/-- The value nodes below the compare node for `type`. -/
def MatchNodes.find (type : MatchType) : MatchNodes C → Option (ValueNodes C)
  | .nil => none
  | .leaf _ next => MatchNodes.find type next
  | .compare t children next => if t = type then some children else MatchNodes.find type next

/-- The children of the value node for `value`. -/
def ValueNodes.find (value : MatchValue) : ValueNodes C → Option (MatchNodes C)
  | .nil => none
  | .value v child next => if v = value then some child else ValueNodes.find value next

/-- How many allocations `bus_match_add_compare_value()` needs: for the compare node and its hash table, the
value node and its string, and the entry in the hash table. -/
def allocations (component : MatchComponent) (where_ : MatchNodes C) : Nat :=
  let hash := if busMatchCanHash component.type then 1 else 0
  let value := match component.value with
    | .u8 _ => 1 + hash
    | .str _ => 2 + hash
  match where_.find component.type with
  | none => 1 + hash + value
  | some children => if (children.find component.value).isSome then 0 else value

/-- The children of the value node for a component. -/
def MatchNodes.child (component : MatchComponent) (where_ : MatchNodes C) : Option (MatchNodes C) :=
  (where_.find component.type).bind (ValueNodes.find component.value)

/-- `bus_match_add()` where memory may run out, and whether it succeeds; `n` allocations were made before. -/
def busMatchTryAdd (callback : C) (memory : Nat → Bool) : List MatchComponent → Nat → MatchNodes C → Bool × MatchNodes C
  | [], n, where_ => if memory n then (true, busMatchAddLeaf callback where_) else (false, where_)
  | component :: components, n, where_ =>
    let needed := allocations component where_
    let add := busMatchTryAdd callback memory components (n + needed)
    if (List.range' n needed).all memory then
      ((add ((where_.child component).getD .nil)).1,
        busMatchAddCompareValue component.type component.value (fun child => (add child).2) where_)
    -- a new compare node without values is taken out again
    else (false, where_)

/-- `bus_match_node_maybe_free()` of a value node -/
def valueMaybeFree (value : MatchValue) (next : ValueNodes C) : MatchNodes C → ValueNodes C
  | .nil => next
  | child => .value value child next

/-- `bus_match_node_maybe_free()` of a compare node -/
def compareMaybeFree (type : MatchType) (next : MatchNodes C) : ValueNodes C → MatchNodes C
  | .nil => next
  | children => .compare type children next

variable [DecidableEq C]

mutual

/-- Free the leaf of a callback, and prune the tree above. -/
def MatchNodes.removeLeaf (callback : C) : MatchNodes C → Option (MatchNodes C)
  | .nil => none
  | .leaf c next => if c = callback then some next else (MatchNodes.removeLeaf callback next).map (.leaf c)
  | .compare type children next =>
    match ValueNodes.removeLeaf callback children with
    | some children => some (compareMaybeFree type next children)
    | none => (MatchNodes.removeLeaf callback next).map (.compare type children)

def ValueNodes.removeLeaf (callback : C) : ValueNodes C → Option (ValueNodes C)
  | .nil => none
  | .value value child next =>
    match MatchNodes.removeLeaf callback child with
    | some child => some (valueMaybeFree value next child)
    | none => (ValueNodes.removeLeaf callback next).map (.value value child)

end

/-- `bus_match_remove()` -/
def busMatchRemove (callback : C) (root : MatchNodes C) : MatchNodes C := (root.removeLeaf callback).getD root

end Change

/-! ## Running -/

/-- `value_node_test()` against what the message has for a node of that type -/
def valueNodeTest (m : MatchMessage) : MatchType → MatchValue → Bool
  | .messageType, .u8 u => u = m.type
  | .sender, .str s =>
    if m.sender = some s then true
    else
      match m.wellKnownNames with
      | some names => s ∈ names
      -- we do not know the names of the sender, and hope that we are sent what we want
      | none => s.head? ≠ some ':'.toUInt8 && m.sender.any (fun value => value.head? = some ':'.toUInt8)
  | .destination, .str s => m.destination = some s
  | .interface, .str s => m.interface = some s
  | .member, .str s => m.member = some s
  | .path, .str s => m.path = some s
  | .arg i, .str s => m.arg i = some s
  | .argHas i, .str s => s ∈ (m.argStrv i).getD []
  | .argNamespace i, .str s => (m.arg i).isSome && namespaceSimplePattern (some s) (m.arg i)
  | .pathNamespace, .str s => pathSimplePattern (some s) m.path
  | .argPath i, .str s => (m.arg i).isSome && pathComplexPattern (some s) (m.arg i)
  | _, _ => false

structure MatchCallback where
  /-- Whether there is a function to call. -/
  callback : Bool := true
  /-- Whether the call of `AddMatch()` is not complete. -/
  installSlot : Bool := false
  after : Nat := 0
  lastIteration : Nat := 0

/-- A connection, and the callbacks called so far. -/
structure SdBus (C : Type) where
  callbacks : C → MatchCallback
  iterationCounter : Nat
  matchCallbacksModified : Bool := false
  called : List C := []

inductive MatchFault where
  | assertion

abbrev MatchM (C : Type) := EStateM MatchFault (SdBus C)

/-- What the callbacks do: what they return, and whether they add or remove matches. -/
structure Handlers (C : Type) where
  result : C → Int
  modifies : C → Bool

section Run

variable {C : Type} [DecidableEq C]

/-- A leaf takes note of the iteration. -/
def SdBus.iterate (c : C) (bus : SdBus C) : SdBus C :=
  { bus with callbacks := Function.update bus.callbacks c { bus.callbacks c with lastIteration := bus.iterationCounter } }

/-- A callback is called. -/
def SdBus.call (handlers : Handlers C) (c : C) (bus : SdBus C) : SdBus C :=
  { bus with
    called := bus.called ++ [c]
    matchCallbacksModified := bus.matchCallbacksModified || handlers.modifies c }

/-- Go on after a part of a run, if that returned 0 and the tree is the same. -/
def andThen (first next : MatchM C Int) : MatchM C Int := do
  let r ← first
  if r ≠ 0 then return r
  else if (← get).matchCallbacksModified then return 0
  else next

/-- A run returns at once if a callback has modified the tree. -/
def unlessModified (x : MatchM C Int) : MatchM C Int := do
  if (← get).matchCallbacksModified then return 0 else x

/-- What a run does at a leaf, without its siblings. -/
def runLeaf (m : MatchMessage) (handlers : Handlers C) (c : C) : MatchM C Int := do
  let bus ← get
  if (bus.callbacks c).installSlot ∨ m.readCounter ≤ (bus.callbacks c).after ∨
      (bus.callbacks c).lastIteration = bus.iterationCounter then return 0
  else
    modify (SdBus.iterate c)
    if (bus.callbacks c).callback then
      modify (SdBus.call handlers c)
      return handlers.result c
    else return 0

/-- The keys that are looked up in the hash table of a compare node: the string a message has, those of
an argument that is an array, or its type. -/
def hashKeys (m : MatchMessage) : MatchType → List MatchValue
  | .messageType => [.u8 m.type]
  | .destination => m.destination.toList.map .str
  | .interface => m.interface.toList.map .str
  | .member => m.member.toList.map .str
  | .path => m.path.toList.map .str
  | .arg i => (m.arg i).toList.map .str
  | .argHas i => ((m.argStrv i).getD []).map .str
  | .sender | .pathNamespace | .argPath _ | .argNamespace _ => []

/-- Look up one key after the other. -/
def forEachKey (f : MatchValue → MatchM C Int) : List MatchValue → MatchM C Int
  | [] => return 0
  | key :: keys => do
      let r ← f key
      if r ≠ 0 then return r
      else forEachKey f keys

def MatchNodes.isNil : MatchNodes C → Bool
  | .nil => true
  | _ => false

mutual

/-- `bus_match_run()` of a leaf or a compare node, and of its siblings -/
def busMatchRun (m : MatchMessage) (handlers : Handlers C) : MatchNodes C → MatchM C Int
  | .nil => return 0
  | .leaf c next => unlessModified (andThen (runLeaf m handlers c) (busMatchRun m handlers next))
  | .compare type children next =>
    unlessModified
      (if busMatchCanHash type then
        andThen (forEachKey (fun key => runFound m handlers key children) (hashKeys m type))
          (busMatchRun m handlers next)
      else andThen (runTested m handlers type children) (busMatchRun m handlers next))

/-- `bus_match_run()` of the value node for a key, if there is one -/
def runFound (m : MatchMessage) (handlers : Handlers C) (key : MatchValue) : ValueNodes C → MatchM C Int
  | .nil => return 0
  | .value value child next =>
    if value = key then
      unlessModified (do
        require (child.isNil = false) .assertion
        busMatchRun m handlers child)
    else runFound m handlers key next

/-- `bus_match_run()` of each value node that passes the test -/
def runTested (m : MatchMessage) (handlers : Handlers C) (type : MatchType) : ValueNodes C → MatchM C Int
  | .nil => return 0
  | .value value child next =>
    if valueNodeTest m type value then
      andThen
        (unlessModified (do
          require (child.isNil = false) .assertion
          busMatchRun m handlers child))
        (runTested m handlers type next)
    else runTested m handlers type next

end

end Run

/-! ## Histories -/

/-- Changes of the tree. -/
inductive MatchCall (C : Type) where
  | add (components : List MatchComponent) (callback : C)
  | remove (callback : C)

section Histories

variable {C : Type} [DecidableEq C]

def MatchCall.run : MatchCall C → MatchNodes C → MatchNodes C
  | add components callback => busMatchAdd callback components
  | remove callback => busMatchRemove callback

/-- The tree after some changes, from that of a new connection. -/
def matchTree (calls : List (MatchCall C)) : MatchNodes C := calls.foldl (fun root call => call.run root) .nil

end Histories

end SystemdPort.Bus
