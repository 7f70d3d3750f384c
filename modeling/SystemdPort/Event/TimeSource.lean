/-
# Event.TimeSource — timers of the event loop

The time event sources of `src/libsystemd/sd-event/sd-event.c`.  Each clock has two priority queues
of sources, by the time they elapse and by the time they have to be dispatched at the latest.  A
source that dispatches too often is rate limited: it leaves the queues of its own clock for those of
the monotonic clock, until the interval of the rate limit is over.

The comparison of the queues looks at the sources themselves, so each change of a source that
matters to it has to be followed by `event_source_time_prioq_reshuffle()`.

Left out are the queues of pending sources and of sources to prepare, and arming the clocks.  Where
memory is allocated, or a descriptor is opened, the call is told whether that succeeds.
-/
import SystemdPort.Basic.Prioq
import SystemdPort.Basic.StringUtil

namespace SystemdPort.Event

set_option autoImplicit false

open Basic Lib Lib.Exec

/-- The types of time event sources. -/
inductive TimeType where
  | realtime
  | boottime
  | monotonic
  | realtimeAlarm
  | boottimeAlarm
  deriving DecidableEq

/-- `clockid_t` -/
inductive ClockId where
  | realtime
  | monotonic
  | other (id : Int)
  deriving DecidableEq

/-- `clock_to_event_source_type()`; `CLOCK_BOOTTIME` is `CLOCK_MONOTONIC` in the port. -/
def clockToEventSourceType : ClockId → Option TimeType
  | .realtime => some .realtime
  | .monotonic => some .boottime
  | .other _ => none

/-- `SD_EVENT_OFF`, `SD_EVENT_ON` and `SD_EVENT_ONESHOT` -/
inductive Enabled where
  | off
  | on
  | oneshot
  deriving DecidableEq

structure RateLimit where
  interval : UInt64 := 0
  burst : UInt32 := 0
  num : UInt32 := 0
  begin : UInt64 := 0
  deriving DecidableEq

structure EventSource where
  type : TimeType
  enabled : Enabled := .oneshot
  pending : Bool := false
  ratelimited : Bool := false
  next : UInt64
  accuracy : UInt64
  rateLimit : RateLimit := {}
  deriving DecidableEq

/-- `USEC_INFINITY` -/
def usecInfinity : UInt64 := 0xFFFFFFFFFFFFFFFF

/-- `usec_add()` -/
def usecAdd (a b : UInt64) : UInt64 := if usecInfinity - b < a then usecInfinity else a + b

/-- `usec_sub_unsigned()` -/
def usecSubUnsigned (timestamp delta : UInt64) : UInt64 :=
  if timestamp = usecInfinity then usecInfinity
  else if timestamp < delta then 0
  else timestamp - delta

/-- `time_event_source_next()` -/
def timeEventSourceNext (s : EventSource) : UInt64 :=
  if s.ratelimited then usecAdd s.rateLimit.begin s.rateLimit.interval else s.next

/-- `time_event_source_latest()` -/
def timeEventSourceLatest (s : EventSource) : UInt64 :=
  if s.ratelimited then usecAdd s.rateLimit.begin s.rateLimit.interval else usecAdd s.next s.accuracy

/-- `event_source_timer_candidate()` -/
def eventSourceTimerCandidate (s : EventSource) : Bool := !s.pending || s.ratelimited

/-- `time_prioq_compare()` -/
def timePrioqCompare (timeFunc : EventSource → UInt64) (x y : EventSource) : Int :=
  -- enabled ones first
  let r := cmpInt (decide (x.enabled = .off)).toNat (decide (y.enabled = .off)).toNat
  if r ≠ 0 then r
  else
    let r := cmpInt (!eventSourceTimerCandidate x).toNat (!eventSourceTimerCandidate y).toNat
    if r ≠ 0 then r else cmpInt (timeFunc x).toNat (timeFunc y).toNat

/-- `ratelimit_configured()` -/
def ratelimitConfigured (r : RateLimit) : Bool := 0 < r.interval ∧ 0 < r.burst

/-- `ratelimit_below()` at the time `ts` -/
def ratelimitBelow (ts : UInt64) (r : RateLimit) : Bool × RateLimit :=
  if !ratelimitConfigured r then (true, r)
  else if r.begin = 0 ∨ r.interval < usecSubUnsigned ts r.begin then (true, { r with begin := ts, num := 1 })
  else if r.num < r.burst then (true, { r with num := r.num + 1 })
  else (false, { r with num := r.num + 1 })

/-- An event loop; sources are named by `S`. -/
structure SdEvent (S : Type) where
  sources : S → EventSource
  /-- The sources that belong to the loop. -/
  connected : S → Bool
  earliest : TimeType → Prioq S S
  latest : TimeType → Prioq S S
  finished : Bool := false

abbrev EventM (S : Type) := EStateM PrioqFault (SdEvent S)

section Calls

variable {S : Type} [DecidableEq S]

/-- `earliest_time_prioq_compare()` -/
def SdEvent.compareEarliest (e : SdEvent S) (a b : S) : Int :=
  timePrioqCompare timeEventSourceNext (e.sources a) (e.sources b)

/-- `latest_time_prioq_compare()` -/
def SdEvent.compareLatest (e : SdEvent S) (a b : S) : Int :=
  timePrioqCompare timeEventSourceLatest (e.sources a) (e.sources b)

/-- Change a source. -/
def SdEvent.update (s : S) (f : EventSource → EventSource) (e : SdEvent S) : SdEvent S :=
  { e with sources := Function.update e.sources s (f (e.sources s)) }

/-- A call on the queue of a clock. -/
def onEarliest {α : Type} (d : TimeType) (x : PrioqM S S α) : EventM S α := fun e =>
  match x (e.earliest d) with
  | .ok a q => .ok a { e with earliest := Function.update e.earliest d q }
  | .error fault q => .error fault { e with earliest := Function.update e.earliest d q }

def onLatest {α : Type} (d : TimeType) (x : PrioqM S S α) : EventM S α := fun e =>
  match x (e.latest d) with
  | .ok a q => .ok a { e with latest := Function.update e.latest d q }
  | .error fault q => .error fault { e with latest := Function.update e.latest d q }

/-- `PRIOQ_IDX_NULL` -/
def prioqIdxNull : Nat := 2 ^ 32 - 1

/-- The clock whose queues a source is in. -/
def EventSource.clock (s : EventSource) : TimeType := if s.ratelimited then .monotonic else s.type

/-- `event_source_time_prioq_reshuffle()` -/
def timePrioqReshuffle (s : S) : EventM S PUnit := do
  let e ← get
  let d := (e.sources s).clock
  let _ ← onEarliest d (Prioq.reshuffle e.compareEarliest s (some s))
  let _ ← onLatest d (Prioq.reshuffle e.compareLatest s (some s))

/-- `event_source_time_prioq_remove()` -/
def timePrioqRemove (s : S) (d : TimeType) : EventM S PUnit := do
  let e ← get
  let _ ← onEarliest d (Prioq.remove e.compareEarliest s (some s))
  let _ ← onLatest d (Prioq.remove e.compareLatest s (some s))
  onEarliest d (modify (Prioq.note (some s) prioqIdxNull))
  onLatest d (modify (Prioq.note (some s) prioqIdxNull))

/-- Whether there is memory to put a source in the two queues of a clock. -/
structure Memory where
  earliest : Bool := true
  latest : Bool := true

/-- `event_source_time_prioq_put()` -/
def timePrioqPut (s : S) (d : TimeType) (memory : Memory) : EventM S Bool := do
  let e ← get
  let put ← onEarliest d (Prioq.put e.compareEarliest s (some s) memory.earliest)
  if !put then return false
  let put ← onLatest d (Prioq.put e.compareLatest s (some s) memory.latest)
  if !put then
    let removed ← onEarliest d (Prioq.remove e.compareEarliest s (some s))
    require (removed = true) .assertion
    onEarliest d (modify (Prioq.note (some s) prioqIdxNull))
    return false
  return true

/-- `assert_se(event_source_time_prioq_put(...) >= 0)` -/
def timePrioqPutBack (s : S) (d : TimeType) (memory : Memory) : EventM S PUnit := do
  let put ← timePrioqPut s d memory
  require (put = true) .assertion

/-- `source_set_pending()` -/
def sourceSetPending (s : S) (b : Bool) (memory : Bool) : EventM S Bool := do
  let e ← get
  if (e.sources s).pending = b then return true
  -- the queue of pending sources
  if b ∧ !memory then return false
  modify (SdEvent.update s fun source => { source with pending := b })
  timePrioqReshuffle s
  return true

/-- Unset the pending flag of a source in some cases. -/
def unsetPendingIf (c : Prop) [Decidable c] (s : S) : EventM S Bool :=
  if c then sourceSetPending s false true else pure true

/-- `event_source_offline()` -/
def eventSourceOffline (s : S) (enabled : Enabled) (ratelimited : Bool) : EventM S PUnit := do
  let e ← get
  let _ ← unsetPendingIf ((e.sources s).enabled ≠ .off ∧ enabled = .off) s
  modify (SdEvent.update s fun source => { source with enabled, ratelimited })
  timePrioqReshuffle s

/-- `event_source_online()` -/
def eventSourceOnline (s : S) (enabled : Enabled) (ratelimited : Bool) : EventM S PUnit := do
  let e ← get
  let _ ← unsetPendingIf ((e.sources s).enabled = .off ∧ enabled ≠ .off) s
  modify (SdEvent.update s fun source => { source with enabled, ratelimited })
  -- not ready for onlining
  if enabled = .off ∨ ratelimited then return
  timePrioqReshuffle s

/-- `sd_event_source_set_enabled()` -/
def sdEventSourceSetEnabled (s : S) (m : Enabled) : EventM S PUnit := do
  let e ← get
  if e.finished then return
  if (e.sources s).enabled = m then return
  if m = .off then eventSourceOffline s m (e.sources s).ratelimited
  else if (e.sources s).enabled ≠ .off then modify (SdEvent.update s fun source => { source with enabled := m })
  else eventSourceOnline s m (e.sources s).ratelimited

/-- `sd_event_source_set_time()` -/
def sdEventSourceSetTime (s : S) (usec : UInt64) : EventM S PUnit := do
  let e ← get
  if e.finished then return
  let _ ← sourceSetPending s false true
  modify (SdEvent.update s fun source => { source with next := usec })
  timePrioqReshuffle s

/-- `DEFAULT_ACCURACY_USEC` -/
def defaultAccuracyUsec : UInt64 := 250000

/-- `sd_event_source_set_time_accuracy()` -/
def sdEventSourceSetTimeAccuracy (s : S) (usec : UInt64) : EventM S PUnit := do
  let e ← get
  if usec = 0xFFFFFFFFFFFFFFFF then return
  if e.finished then return
  let _ ← sourceSetPending s false true
  modify (SdEvent.update s fun source => { source with accuracy := if usec = 0 then defaultAccuracyUsec else usec })
  timePrioqReshuffle s

/-- `event_source_enter_ratelimited()`; `setup` tells whether the monotonic clock can be set up. -/
def eventSourceEnterRatelimited (s : S) (setup : Bool) (memory again : Memory) : EventM S PUnit := do
  let e ← get
  let source := e.sources s
  if source.ratelimited then return
  if !setup then return
  timePrioqRemove s source.type
  if ← timePrioqPut s .monotonic memory then eventSourceOffline s source.enabled true
  else timePrioqPutBack s source.type again

/-- `event_source_leave_ratelimit()`, without the callback; the result tells whether it succeeds. -/
def eventSourceLeaveRatelimit (s : S) (memory again : Memory) : EventM S Bool := do
  let e ← get
  let source := e.sources s
  if !source.ratelimited then return true
  timePrioqRemove s .monotonic
  if ← timePrioqPut s source.type memory then
    eventSourceOnline s source.enabled false
    modify (SdEvent.update s fun source => { source with rateLimit := { source.rateLimit with num := 0, begin := 0 } })
    return true
  else
    timePrioqPutBack s .monotonic again
    return false

/-- `sd_event_source_set_ratelimit()` -/
def sdEventSourceSetRatelimit (s : S) (interval : UInt64) (burst : UInt32) (memory again : Memory) :
    EventM S PUnit := do
  if ← eventSourceLeaveRatelimit s memory again then
    modify (SdEvent.update s fun source => { source with rateLimit := { interval, burst } })

/-- `sd_event_add_time()` of a source that gets the name `s` -/
def sdEventAddTime (s : S) (clock : ClockId) (usec accuracy : UInt64) (memory : Memory) : EventM S PUnit := do
  let e ← get
  if accuracy = 0xFFFFFFFFFFFFFFFF then return
  if e.finished then return
  match clockToEventSourceType clock with
  | none => return
  | some type =>
    modify (SdEvent.update s fun _ =>
      { type, next := usec, accuracy := if accuracy = 0 then defaultAccuracyUsec else accuracy })
    onEarliest type (modify (Prioq.note (some s) prioqIdxNull))
    onLatest type (modify (Prioq.note (some s) prioqIdxNull))
    if ← timePrioqPut s type memory then
      modify fun e => { e with connected := Function.update e.connected s true }

/-- `source_disconnect()` -/
def sourceDisconnect (s : S) : EventM S PUnit := do
  let e ← get
  timePrioqRemove s (e.sources s).clock
  modify fun e => { e with connected := Function.update e.connected s false }

/-- The part of `source_dispatch()` before the callback is called. -/
def sourceDispatch (s : S) (ts : UInt64) (setup : Bool) (memory again : Memory) : EventM S PUnit := do
  let e ← get
  let (below, rateLimit) := ratelimitBelow ts (e.sources s).rateLimit
  modify (SdEvent.update s fun source => { source with rateLimit })
  if !below then eventSourceEnterRatelimited s setup memory again
  else
    let _ ← sourceSetPending s false true
    if (e.sources s).enabled = .oneshot then sdEventSourceSetEnabled s .off

/-- One turn of the loop of `process_timer()`. -/
def processTimer (d : TimeType) (n : UInt64) (pending : Bool) (memory again : Memory) : EventM S PUnit := do
  let e ← get
  match (e.earliest d).peek with
  | none => return
  | some s =>
    let source := e.sources s
    if n < timeEventSourceNext source then return
    if source.ratelimited then
      let _ ← eventSourceLeaveRatelimit s memory again
    else if source.enabled = .off ∨ source.pending then return
    else if ← sourceSetPending s true pending then timePrioqReshuffle s

/-- What happens to an event loop. -/
inductive EventCall (S : Type) where
  | addTime (s : S) (clock : ClockId) (usec accuracy : UInt64) (memory : Memory)
  | setEnabled (s : S) (m : Enabled)
  | setTime (s : S) (usec : UInt64)
  | setTimeAccuracy (s : S) (usec : UInt64)
  | setRatelimit (s : S) (interval : UInt64) (burst : UInt32) (memory again : Memory)
  | dispatch (s : S) (ts : UInt64) (setup : Bool) (memory again : Memory)
  | processTimer (d : TimeType) (n : UInt64) (pending : Bool) (memory again : Memory)
  | disconnect (s : S)
  | finish

def EventCall.run : EventCall S → EventM S PUnit
  | addTime s clock usec accuracy memory => sdEventAddTime s clock usec accuracy memory
  | setEnabled s m => sdEventSourceSetEnabled s m
  | setTime s usec => sdEventSourceSetTime s usec
  | setTimeAccuracy s usec => sdEventSourceSetTimeAccuracy s usec
  | setRatelimit s interval burst memory again => sdEventSourceSetRatelimit s interval burst memory again
  | dispatch s ts setup memory again => sourceDispatch s ts setup memory again
  | processTimer d n pending memory again => Event.processTimer d n pending memory again
  | disconnect s => sourceDisconnect s
  | finish => modify fun e => { e with finished := true }

def runEvents : List (EventCall S) → EventM S PUnit
  | [] => pure ⟨⟩
  | call :: calls => do
      call.run
      runEvents calls

/-- A new event loop. -/
def sdEventNew (sources : S → EventSource) (slots : S → Nat) : SdEvent S where
  sources := sources
  connected _ := false
  earliest _ := { slots }
  latest _ := { slots }

end Calls

end SystemdPort.Event
