/-
# Event.MapClock — moving a timestamp from one clock to another

`map_clock_usec()` of `src/basic/time-util.c`, once as the port rewrote it and once as the original
has it (`Upstream`).  The original shifts the timestamp by the distance of the two clocks and
saturates at both ends (`Upstream.mapClockUsecInternal_eq`).  The port gives up on every timestamp
in the future, and wraps around where the original stops at 0.
-/
import SystemdPort.Event.TimeSource

namespace SystemdPort.Event

set_option autoImplicit false

/-- `normalize_clock()` -/
def normalizeClock : ClockId → Option ClockId
  | .realtime => some .realtime
  | .monotonic => some .monotonic
  | .other _ => none

/-- `map_clock_usec()`, with what `now()` reads from the clocks.  It reads infinity if
`clock_gettime()` fails. -/
def mapClockUsec (now : ClockId → UInt64) (t : UInt64) (fromClock toClock : ClockId) : UInt64 :=
  match normalizeClock fromClock, normalizeClock toClock with
  | some fc, some tc =>
    if fc = tc then t
    else if now fc = usecInfinity ∨ now tc = usecInfinity then usecInfinity
    else if now fc < t then usecInfinity
    else now tc - (now fc - t)
  | _, _ => usecInfinity

/-- `map_clock_usec_internal()` of the original -/
def Upstream.mapClockUsecInternal (t fromBase toBase : UInt64) : UInt64 :=
  if fromBase ≤ t then
    if usecInfinity - (t - fromBase) ≤ toBase then usecInfinity else toBase + (t - fromBase)
  else if toBase ≤ fromBase - t then 0
  else toBase - (fromBase - t)

/-- `map_clock_usec()` of the original, for clocks that are not alarms -/
def Upstream.mapClockUsec (now : ClockId → UInt64) (t : UInt64) (fromClock toClock : ClockId) : UInt64 :=
  if fromClock = toClock then t
  else if t = usecInfinity then t
  else mapClockUsecInternal t (now fromClock) (now toClock)

/-- What mapping is for: the timestamp as far from the one clock as it was from the other, cut off
at 0 and at infinity. -/
def saturatedShift (t fromBase toBase : UInt64) : Int :=
  max 0 (min ((t.toNat : Int) - fromBase.toNat + toBase.toNat) usecInfinity.toNat)

theorem toNat_usecInfinity : usecInfinity.toNat = 2 ^ 64 - 1 := rfl

theorem Upstream.mapClockUsecInternal_eq (t fromBase toBase : UInt64) :
    ((mapClockUsecInternal t fromBase toBase).toNat : Int) = saturatedShift t fromBase toBase := by
  have tBound := t.toNat_lt
  have fromBound := fromBase.toNat_lt
  have toBound := toBase.toNat_lt
  unfold mapClockUsecInternal saturatedShift
  simp only [UInt64.le_iff_toNat_le, UInt64.toNat_sub, toNat_usecInfinity]
  split_ifs <;> simp only [UInt64.toNat_add, UInt64.toNat_sub, toNat_usecInfinity, UInt64.toNat_zero] <;> omega

/-- The timestamps that the port maps as the original does: infinity, those in the future that reach
infinity on the other clock, and those in the past that the other clock has seen, if both can be read. -/
def MapsAlike (t nowFrom nowTo : UInt64) : Prop :=
  t = usecInfinity ∨ (nowFrom < t ∧ usecInfinity.toNat ≤ nowTo.toNat + (t.toNat - nowFrom.toNat)) ∨
    (t ≤ nowFrom ∧ nowFrom ≠ usecInfinity ∧ nowFrom - t ≤ nowTo ∧ (nowTo = usecInfinity → t = nowFrom))

/-- Between two clocks the port agrees with the original on these timestamps and on no others. -/
theorem mapClockUsec_eq_upstream_iff (now : ClockId → UInt64) (t : UInt64) {fromClock toClock : ClockId}
    (supported : normalizeClock fromClock = some fromClock ∧ normalizeClock toClock = some toClock) :
    (mapClockUsec now t fromClock toClock = Upstream.mapClockUsec now t fromClock toClock ↔
        fromClock = toClock ∨ MapsAlike t (now fromClock) (now toClock)) ∧
      (t ≠ usecInfinity → ((Upstream.mapClockUsec now t fromClock toClock).toNat : Int) =
        saturatedShift t (now fromClock) (now toClock)) := by
  simp only [mapClockUsec, supported.1, supported.2, Upstream.mapClockUsec]
  have tBound := t.toNat_lt
  by_cases same : fromClock = toClock
  · simp only [same, saturatedShift, toNat_usecInfinity, if_true, true_or, true_and]
    omega
  simp only [same, false_or, if_false]
  generalize now fromClock = nowFrom
  generalize now toClock = nowTo
  have shifted := Upstream.mapClockUsecInternal_eq t nowFrom nowTo
  constructor
  · have fromBound := nowFrom.toNat_lt
    have toBound := nowTo.toNat_lt
    simp only [MapsAlike, saturatedShift, ← UInt64.toNat_inj, UInt64.lt_iff_toNat_lt, UInt64.le_iff_toNat_le,
      toNat_usecInfinity, ne_eq] at shifted ⊢
    split_ifs <;> simp [UInt64.toNat_sub, toNat_usecInfinity] <;> omega
  · intro finite
    rwa [if_neg finite]

theorem mapClockUsec_eq_upstream_past :
    mapClockUsec (fun clock => if clock = .realtime then 100 else 50) 70 .realtime .monotonic =
      Upstream.mapClockUsec (fun clock => if clock = .realtime then 100 else 50) 70 .realtime .monotonic :=
  (mapClockUsec_eq_upstream_iff _ 70 (by decide)).1.mpr (.inr (by unfold MapsAlike; decide))

/-- A timer set for one microsecond from now never elapses, and a time before the system was booted
comes out as one far in the future. -/
theorem mapClockUsec_future_and_before_boot :
    let now : ClockId → UInt64 := fun clock => if clock = .realtime then 100 else 50
    mapClockUsec now 101 .realtime .monotonic = usecInfinity ∧ Upstream.mapClockUsec now 101 .realtime .monotonic = 51 ∧
      mapClockUsec now 40 .realtime .monotonic = usecInfinity - 9 ∧
      Upstream.mapClockUsec now 40 .realtime .monotonic = 0 := by
  decide

end SystemdPort.Event
