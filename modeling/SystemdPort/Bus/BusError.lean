/-
# Bus.BusError — errno codes of error names

The lookup of `src/libsystemd/sd-bus/bus-error.c`, as it is built for macOS: first the maps that were
registered with `sd_bus_error_add_map()`, then a table of this library.  A map ends with a marker; the
array of maps ends with a NULL pointer; the table has a size, and a marker in it is skipped.

The port leaves out the table of standard errors.  In its place is a table of one entry that has no name
and no marker, so that every lookup that gets there compares with a NULL pointer
(`nameToErrno_iff`).
-/
import SystemdPort.Basic.StringUtil
import SystemdPort.Lib.Exec

namespace SystemdPort.Bus

set_option autoImplicit false

open Basic Lib.Exec List

/-- `sd_bus_error_map` -/
structure ErrorMapEntry where
  name : Option CString
  code : Int
  deriving DecidableEq

/-- `BUS_ERROR_MAP_END_MARKER` -/
def busErrorMapEndMarker : Int := -120

/-- `SD_BUS_ERROR_MAP_END` -/
def errorMapEnd : ErrorMapEntry := ⟨none, busErrorMapEndMarker⟩

inductive LookupFault where
  | invalidMemory
  | assertion
  deriving DecidableEq

def eio : Int := 5

/-- `streq(m->name, name)` -/
def ErrorMapEntry.isNamed (m : ErrorMapEntry) (name : CString) : Except LookupFault Bool :=
  match m.name with
  | none => .error .invalidMemory
  | some n => .ok (n = name)

/-- What both loops do with an entry that is not a marker. -/
def testEntry (name : CString) (m : ErrorMapEntry) (next : Except LookupFault (Option Int)) :
    Except LookupFault (Option Int) := do
  if ← m.isNamed name then
    if 0 < m.code then return some m.code else throw .assertion
  else next

/-- The loop over a registered map, up to its end marker. -/
def scanMap (name : CString) : List ErrorMapEntry → Except LookupFault (Option Int)
  | [] => throw .invalidMemory
  | m :: map => if m.code = busErrorMapEndMarker then return none else testEntry name m (scanMap name map)

/-- The loop over the entries of the library, of which markers are skipped. -/
def scanTable (name : CString) : List ErrorMapEntry → Except LookupFault (Option Int)
  | [] => return none
  | m :: table => if m.code = busErrorMapEndMarker then scanTable name table else testEntry name m (scanTable name table)

/-- `map_stub`, which `systemd_bus_error_map` points to -/
def mapStub : List ErrorMapEntry := [⟨none, 0⟩]

section Maps

-- what is in memory where a map begins
variable (mapAt : Nat → List ErrorMapEntry)

/-- The loop over `additional_error_maps`, up to a NULL pointer. -/
def scanMaps (name : CString) : List (Option Nat) → Except LookupFault (Option Int)
  | [] => throw .invalidMemory
  | none :: _ => return none
  | some map :: maps => do
      match ← scanMap name (mapAt map) with
      | some code => return some code
      | none => scanMaps name maps

/-- `bus_error_name_to_errno()` for a name; `errnoFromName` looks up the name of an error number. -/
def busErrorNameToErrno (errnoFromName : CString → Option Nat) (additionalErrorMaps : Option (List (Option Nat)))
    (name : CString) : Except LookupFault Int := do
  if cstr "System.Error." <+: name then
    return ((errnoFromName (name.drop 13)).map Int.ofNat).getD eio
  else
    match ← scanMaps mapAt name (additionalErrorMaps.getD [none]) with
    | some code => return code
    | none =>
      let found ← scanTable name mapStub
      return found.getD eio

/-- `map_ok()` -/
def mapOk : List ErrorMapEntry → Except LookupFault Bool
  | [] => throw .invalidMemory
  | m :: map =>
    if m.code = busErrorMapEndMarker then return true
    else if m.name = none ∨ m.code ≤ 0 then return false
    else mapOk map

/-- The loop that counts the maps; it ends early where it finds the new one. -/
def countMaps (map : Nat) : List (Option Nat) → Except LookupFault (Option Nat)
  | [] => throw .invalidMemory
  | none :: _ => return some 0
  | some known :: maps => do
      if known = map then return none
      else
        let n ← countMaps map maps
        return n.map (· + 1)

/-- `sd_bus_error_add_map()`; `memory` tells whether the array can be enlarged. -/
def sdBusErrorAddMap (memory : Bool) (map : Nat) (additionalErrorMaps : Option (List (Option Nat))) :
    Except LookupFault (Option (List (Option Nat))) := do
  if (← mapOk (mapAt map)) = false then return additionalErrorMaps
  else
    match ← countMaps map (additionalErrorMaps.getD [none]) with
    | none => return additionalErrorMaps
    | some n =>
      if memory then return some ((additionalErrorMaps.getD []).take n ++ [some map, none])
      else return additionalErrorMaps

/-- A history of registrations. -/
def addMaps : List (Bool × Nat) → Option (List (Option Nat)) → Except LookupFault (Option (List (Option Nat)))
  | [], maps => return maps
  | (memory, map) :: calls, maps => do
      let maps ← sdBusErrorAddMap mapAt memory map maps
      addMaps calls maps

end Maps

/-! ## Valid maps -/

/-- A map as it is built with `SD_BUS_ERROR_MAP()` and `SD_BUS_ERROR_MAP_END`. -/
structure ErrorMap where
  entries : List (CString × Int)
  positive : ∀ e ∈ entries, 0 < e.2

def ErrorMap.cells (map : ErrorMap) : List ErrorMapEntry :=
  map.entries.map (fun e => ⟨some e.1, e.2⟩) ++ [errorMapEnd]

/-- The code of the first entry with a name. -/
def codeIn (name : CString) (entries : List (CString × Int)) : Option Int :=
  (entries.find? fun e => e.1 = name).map Prod.snd

variable (name : CString) (map : ErrorMap)

theorem codeIn_append (l r : List (CString × Int)) : codeIn name (l ++ r) = (codeIn name l).or (codeIn name r) := by
  rw [codeIn, find?_append, Option.map_or]
  rfl

theorem codeIn_cons (e : CString × Int) (l : List (CString × Int)) :
    codeIn name (e :: l) = if e.1 = name then some e.2 else codeIn name l := by
  split <;> simp_all [codeIn]

theorem not_marker {code : Int} (positive : 0 < code) : code ≠ busErrorMapEndMarker := by
  unfold busErrorMapEndMarker
  omega

theorem scanMap_cells : scanMap name map.cells = .ok (codeIn name map.entries) := by
  obtain ⟨entries, positive⟩ := map
  simp only [ErrorMap.cells]
  induction entries with
  | nil => rfl
  | cons e entries ih =>
    have valid := positive e mem_cons_self
    have rest := ih fun e' member => positive e' (mem_cons_of_mem _ member)
    rw [map_cons, cons_append, scanMap, if_neg (not_marker valid), rest, codeIn_cons]
    by_cases same : e.1 = name
    · simp [testEntry, ErrorMapEntry.isNamed, same, valid, bind, Except.bind, pure, Except.pure]
    · simp [testEntry, ErrorMapEntry.isNamed, same, bind, Except.bind]

theorem mapOk_cells : mapOk map.cells = .ok true := by
  obtain ⟨entries, positive⟩ := map
  simp only [ErrorMap.cells]
  induction entries with
  | nil => rfl
  | cons e entries ih =>
    have valid := positive e mem_cons_self
    have rest := ih fun e' member => positive e' (mem_cons_of_mem _ member)
    rw [map_cons, cons_append, mapOk, if_neg (not_marker valid), if_neg (by simpa using valid), rest]

/-! ## Histories -/

section Histories

variable (mapAt : Nat → ErrorMap)

/-- The array of some maps. -/
def cellsOf (maps : List Nat) : List (Option Nat) := maps.map some ++ [none]

/-- What the array is after `maps` were registered. -/
def Registered (maps : List Nat) (array : Option (List (Option Nat))) : Prop :=
  array = some (cellsOf maps) ∨ maps = [] ∧ array = none

/-- The entries of some maps, one map after the other. -/
def entriesOf (maps : List Nat) : List (CString × Int) := maps.flatMap fun map => (mapAt map).entries

variable {maps : List Nat} {array : Option (List (Option Nat))} (name : CString)

theorem scanMaps_cells (maps : List Nat) :
    scanMaps (fun map => (mapAt map).cells) name (cellsOf maps) = .ok (codeIn name (entriesOf mapAt maps)) := by
  induction maps with
  | nil => rfl
  | cons map maps ih =>
    simp only [cellsOf, map_cons, cons_append, scanMaps, scanMap_cells] at ih ⊢
    rw [entriesOf, flatMap_cons, codeIn_append]
    cases codeIn name (mapAt map).entries with
    | none => exact ih
    | some code => rfl

theorem countMaps_cells (map : Nat) (maps : List Nat) :
    countMaps map (cellsOf maps) = .ok (if map ∈ maps then none else some maps.length) := by
  induction maps with
  | nil => rfl
  | cons known maps ih =>
    simp only [cellsOf, map_cons, cons_append, countMaps] at ih ⊢
    by_cases same : known = map
    · simp [same, pure, Except.pure]
    · rw [if_neg same, ih]
      by_cases later : map ∈ maps <;> simp [later, Ne.symm same, bind, Except.bind, pure, Except.pure]

/-- One registration puts the map last, unless it is known or there is no memory. -/
theorem addMap_registered (registered : Registered maps array) (memory : Bool) (map : Nat) :
    ∃ array', sdBusErrorAddMap (fun map => (mapAt map).cells) memory map array = .ok array' ∧
      Registered (if map ∈ maps ∨ memory = false then maps else maps ++ [map]) array' := by
  have counted : countMaps map (array.getD [none]) = .ok (if map ∈ maps then none else some maps.length) := by
    rcases registered with rfl | ⟨rfl, rfl⟩
    · exact countMaps_cells map maps
    · rfl
  have front : (array.getD []).take maps.length = maps.map some := by
    rcases registered with rfl | ⟨rfl, rfl⟩
    · simp [cellsOf]
    · rfl
  simp only [sdBusErrorAddMap, mapOk_cells, counted]
  by_cases known : map ∈ maps
  · exact ⟨array, by simp [known, bind, Except.bind, pure, Except.pure], by simpa [known] using registered⟩
  · cases memory with
    | false => exact ⟨array, by simp [known, bind, Except.bind, pure, Except.pure], by simpa using registered⟩
    | true =>
      refine ⟨some (cellsOf (maps ++ [map])), ?_, by simp [known, Registered]⟩
      simp [known, bind, Except.bind, pure, Except.pure, front, cellsOf]

/-- Registering a map again adds no name. -/
theorem codeIn_known {map : Nat} (known : map ∈ maps) (rest : List Nat) :
    codeIn name (entriesOf mapAt (maps ++ map :: rest)) = codeIn name (entriesOf mapAt (maps ++ rest)) := by
  simp only [entriesOf, flatMap_append, flatMap_cons, codeIn_append]
  cases found : codeIn name (maps.flatMap fun map => (mapAt map).entries) with
  | some code => rfl
  | none =>
    have absent : codeIn name (mapAt map).entries = none := by
      simp only [codeIn, Option.map_eq_none_iff, find?_eq_none, mem_flatMap] at found ⊢
      exact fun e member => found e ⟨map, known, member⟩
    rw [absent]
    rfl

/-- The maps of a history, in the order in which they were registered. -/
def history (calls : List (Bool × Nat)) : List Nat := (calls.filter Prod.fst).map Prod.snd

theorem addMaps_registered (calls : List (Bool × Nat)) (registered : Registered maps array) :
    ∃ maps' array', addMaps (fun map => (mapAt map).cells) calls array = .ok array' ∧ Registered maps' array' ∧
      ∀ name, codeIn name (entriesOf mapAt maps') = codeIn name (entriesOf mapAt (maps ++ history calls)) := by
  induction calls generalizing maps array with
  | nil => exact ⟨maps, array, rfl, registered, by simp [history]⟩
  | cons call calls ih =>
    obtain ⟨memory, map⟩ := call
    obtain ⟨array₁, added, registered₁⟩ := addMap_registered mapAt registered memory map
    obtain ⟨maps', array', run, registered', same⟩ := ih registered₁
    refine ⟨maps', array', by rw [addMaps, added]; exact run, registered', fun name => ?_⟩
    rw [same]
    cases memory with
    | false => simp [history]
    | true =>
      by_cases known : map ∈ maps
      · have := codeIn_known mapAt name known (history calls)
        simpa [known, history] using this.symm
      · simp [known, history]

end Histories

/-! ## The lookup -/

/-- `bus_standard_errors` -/
def busStandardErrors : List (CString × Int) :=
  [("Failed", 13), ("NoMemory", 12), ("ServiceUnknown", 65), ("NameHasNoOwner", 6), ("NoReply", 60), ("IOError", 5),
    ("BadAddress", 49), ("NotSupported", 102), ("LimitsExceeded", 55), ("AccessDenied", 13), ("AuthFailed", 13),
    ("InteractiveAuthorizationRequired", 13), ("NoServer", 64), ("Timeout", 60), ("NoNetwork", 66),
    ("AddressInUse", 48), ("Disconnected", 54), ("InvalidArgs", 22), ("FileNotFound", 2), ("FileExists", 17),
    ("UnknownMethod", 53), ("UnknownObject", 53), ("UnknownInterface", 53), ("UnknownProperty", 53),
    ("PropertyReadOnly", 30), ("UnixProcessIdUnknown", 3), ("InvalidSignature", 22), ("InconsistentMessage", 94),
    ("TimedOut", 60), ("MatchRuleInvalid", 22), ("InvalidFileContent", 22), ("MatchRuleNotFound", 2),
    ("SELinuxSecurityContextUnknown", 3), ("ObjectPathInUse", 16)].map
    fun e => (cstr "org.freedesktop.DBus.Error." ++ cstr e.1, e.2)

/-- What a name stands for: an error number that is named, else what the maps or the standard errors say. -/
def expectedErrno (errnoFromName : CString → Option Nat) (entries : List (CString × Int)) (name : CString) : Int :=
  if cstr "System.Error." <+: name then ((errnoFromName (name.drop 13)).map Int.ofNat).getD eio
  else ((codeIn name entries).or (codeIn name busStandardErrors)).getD eio

theorem codeIn_entriesOf {mapAt : Nat → ErrorMap} {name : CString} {maps : List Nat} :
    (∃ map ∈ maps, ∃ e ∈ (mapAt map).entries, e.1 = name) ↔ (codeIn name (entriesOf mapAt maps)).isSome = true := by
  simp [codeIn, entriesOf]

/-- After any registrations, the lookup gives what a name stands for iff it names an error number or is in one of
the maps; for every other name it follows a NULL pointer. -/
theorem nameToErrno_iff (mapAt : Nat → ErrorMap) (errnoFromName : CString → Option Nat) (calls : List (Bool × Nat)) :
    ∃ array, addMaps (fun map => (mapAt map).cells) calls none = .ok array ∧ ∀ name,
      busErrorNameToErrno (fun map => (mapAt map).cells) errnoFromName array name =
        if cstr "System.Error." <+: name ∨ ∃ map ∈ history calls, ∃ e ∈ (mapAt map).entries, e.1 = name then
          .ok (expectedErrno errnoFromName (entriesOf mapAt (history calls)) name)
        else .error .invalidMemory := by
  obtain ⟨maps, array, run, registered, same⟩ := addMaps_registered mapAt calls (.inr ⟨rfl, rfl⟩)
  refine ⟨array, run, fun name => ?_⟩
  have scanned : scanMaps (fun map => (mapAt map).cells) name (array.getD [none]) =
      .ok (codeIn name (entriesOf mapAt (history calls))) := by
    rw [← nil_append (history calls), ← same]
    rcases registered with rfl | ⟨rfl, rfl⟩
    · exact scanMaps_cells mapAt name maps
    · rfl
  unfold busErrorNameToErrno expectedErrno
  by_cases system : cstr "System.Error." <+: name
  · simp only [system]
    rfl
  · simp only [system, codeIn_entriesOf, scanned]
    cases codeIn name (entriesOf mapAt (history calls)) with
    | none => rfl
    | some code => rfl

/-- A standard error that no map has. -/
theorem standard_error_unknown :
    busErrorNameToErrno (fun _ => [errorMapEnd]) (fun _ => none) none (cstr "org.freedesktop.DBus.Error.Failed") =
        .error .invalidMemory ∧
      expectedErrno (fun _ => none) [] (cstr "org.freedesktop.DBus.Error.Failed") = 13 := by
  decide +kernel

end SystemdPort.Bus
