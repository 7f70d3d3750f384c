/-
# Core.Unit — the unit graph jobs are ordered on

`src/core/unit.h`, `unit-def.h` and `unit-dependency-atom.h`, as far as jobs and
transactions read them.  A unit is an arbitrary identity; what the job code asks
a unit for is its active state and the units that one of its dependency atoms
names.

`unit_add_dependency()` enters every Before= into the other unit as After= and
the other way round, so `Units` carries that the two are inverse.
-/
import Mathlib.Tactic

namespace SystemdPort.Core

set_option autoImplicit false

inductive UnitActiveState where
  | active | reloading | inactive | failed | activating | deactivating | maintenance
  deriving DecidableEq

instance : Fintype UnitActiveState where
  elems := {.active, .reloading, .inactive, .failed, .activating, .deactivating, .maintenance}
  complete := by intro s; cases s <;> decide

namespace UnitActiveState

def isActiveOrReloading : UnitActiveState → Bool
  | active | reloading => true
  | _ => false

def isActiveOrActivating : UnitActiveState → Bool
  | active | activating | reloading => true
  | _ => false

def isInactiveOrFailed : UnitActiveState → Bool
  | inactive | failed => true
  | _ => false

end UnitActiveState

inductive UnitLoadState where
  | stub | loaded | notFound | badSetting | error | merged | masked
  deriving DecidableEq

/-- `UNIT_IS_LOAD_COMPLETE`: neither of the two states that are only temporary. -/
def UnitLoadState.isLoadComplete : UnitLoadState → Bool
  | .stub | .merged => false
  | _ => true

/-- The dependency atoms that the job engine and transactions follow. -/
inductive UnitDependencyAtom where
  | pullInStart | pullInStartIgnored | pullInVerify | pullInStop | pullInStopIgnored
  | propagateStartFailure | propagateStopFailure | propagateInactiveStartAsFailure
  | propagateStop | propagateRestart | propagatesReloadTo | triggeredBy
  | before | after
  deriving DecidableEq

/-- The dependencies of all units, with the two ordering atoms inverse to each
other. -/
structure Units (U : Type) where
  dependencies : UnitDependencyAtom → U → List U
  after_iff_before : ∀ u v, v ∈ dependencies .after u ↔ u ∈ dependencies .before v

namespace Units

variable {U : Type} (units : Units U)

/-- The Before= relation between units. -/
def Before (u v : U) : Prop := v ∈ units.dependencies .before u

theorem mem_before_iff (u v : U) : v ∈ units.dependencies .before u ↔ units.Before u v := Iff.rfl

theorem mem_after_iff (u v : U) : v ∈ units.dependencies .after u ↔ units.Before v u :=
  units.after_iff_before u v

end Units

end SystemdPort.Core
