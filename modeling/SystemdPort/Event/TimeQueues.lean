/-
# Event.TimeQueues — the queues of the clocks are in order

`Tracked sources place e` says that the queues of every clock are in order by the comparison of
`sources`, and that they have the sources that `place` puts there.  A change of a source followed by
`event_source_time_prioq_reshuffle()` keeps that, and so do putting and removing.

`Orderly` is what holds between calls: every source is in the queues of its clock.  Each call keeps
it, but for two: enabling a source that is rate limited, and ending the rate limit of a source that
is disabled.  Both go through `event_source_online()`, which then changes the source and does not
reshuffle.
-/
import SystemdPort.Basic.PrioqMembers
import SystemdPort.Event.TimeSource

namespace SystemdPort.Event

set_option autoImplicit false
set_option linter.unusedSectionVars false

open Basic Lib Lib.Exec Function

/-! ## The order -/

section Order

variable (timeFunc : EventSource → UInt64)

/-- A number that sources are ordered by. -/
def timeKey (x : EventSource) : Nat :=
  (decide (x.enabled = .off)).toNat * 2 ^ 65 + (!eventSourceTimerCandidate x).toNat * 2 ^ 64 + (timeFunc x).toNat

theorem timePrioqCompare_key (x y : EventSource) :
    (timePrioqCompare timeFunc x y ≤ 0 ↔ timeKey timeFunc x ≤ timeKey timeFunc y) ∧
      (0 ≤ timePrioqCompare timeFunc x y ↔ timeKey timeFunc y ≤ timeKey timeFunc x) := by
  have less : cmpInt 0 1 = -1 := rfl
  have more : cmpInt 1 0 = 1 := rfl
  have smallX := (timeFunc x).toNat_lt
  have smallY := (timeFunc y).toNat_lt
  unfold timePrioqCompare timeKey
  generalize decide (x.enabled = .off) = offX
  generalize decide (y.enabled = .off) = offY
  generalize (!eventSourceTimerCandidate x) = lateX
  generalize (!eventSourceTimerCandidate y) = lateY
  simp only [ne_eq, cmpInt_eq_zero]
  cases offX <;> cases offY <;> cases lateX <;> cases lateY <;>
    simp [cmpInt_le_zero, zero_le_cmpInt] <;> omega

variable {S : Type}

/-- Sources compared by `time_prioq_compare()`. -/
def timeOrder (sources : S → EventSource) : Comparison S where
  compare a b := timePrioqCompare timeFunc (sources a) (sources b)
  flip _ _ := (timePrioqCompare_key timeFunc _ _).1.trans (timePrioqCompare_key timeFunc _ _).2.symm
  trans first second :=
    (timePrioqCompare_key timeFunc _ _).1.mpr
      (((timePrioqCompare_key timeFunc _ _).1.mp first).trans ((timePrioqCompare_key timeFunc _ _).1.mp second))

end Order

/-! ## Queues that are kept in order -/

variable {S : Type} [DecidableEq S]

/-- Only the queues have changed. -/
def Quiet (e e' : SdEvent S) : Prop := ∃ earliest latest, e' = { e with earliest, latest }

/-- Both queues of a clock are in order by what the sources were like, and have these members. -/
def Queued (sources : S → EventSource) (members : Set S) (q r : Prioq S S) : Prop :=
  Prioq.Holds (timeOrder timeEventSourceNext sources) members q ∧
    Prioq.Holds (timeOrder timeEventSourceLatest sources) members r

/-- The queues of every clock, with the sources that `place` puts there. -/
def Tracked (sources : S → EventSource) (place : S → Option TimeType) (e : SdEvent S) : Prop :=
  ∀ d, Queued sources {s | place s = some d} (e.earliest d) (e.latest d)

section Queues

variable {e : SdEvent S} {sources sources' : S → EventSource} {place : S → Option TimeType} {s : S} {d : TimeType}
  {q r : Prioq S S} {members : Set S} {α : Type}

theorem onEarliest_ok {x : PrioqM S S α} {a : α} (run : x (e.earliest d) = .ok a q) :
    onEarliest d x e = .ok a { e with earliest := update e.earliest d q } := by
  rw [onEarliest, run]

theorem onLatest_ok {x : PrioqM S S α} {a : α} (run : x (e.latest d) = .ok a q) :
    onLatest d x e = .ok a { e with latest := update e.latest d q } := by
  rw [onLatest, run]

/-- The queues of one clock are replaced. -/
theorem Tracked.requeue (e : SdEvent S)
    (others : ∀ d', d' ≠ d → Queued sources {t | place t = some d'} (e.earliest d') (e.latest d'))
    (here : Queued sources {t | place t = some d} q r) :
    Tracked sources place { e with earliest := update e.earliest d q, latest := update e.latest d r } := by
  intro d'
  by_cases same : d' = d
  · subst same
    simpa using here
  · simpa [same] using others d' same

/-- A change of one source matters to comparisons with it only. -/
theorem agreesBut_of_same (timeFunc : EventSource → UInt64) (others : ∀ t, t ≠ s → sources' t = sources t) :
    (timeOrder timeFunc sources).AgreesBut (timeOrder timeFunc sources') s := by
  intro a b apartA apartB
  simp [timeOrder, others a apartA, others b apartB]

/-- A source that is in no queue may be changed. -/
theorem Queued.absent (queued : Queued sources members q r) (others : ∀ t, t ≠ s → sources' t = sources t)
    (absent : s ∉ members) : Queued sources' members q r :=
  ⟨queued.1.changed (agreesBut_of_same _ others) absent, queued.2.changed (agreesBut_of_same _ others) absent⟩

/-- After a change of a source, the queues it is in are put in order. -/
theorem Tracked.reshuffle (tracked : Tracked sources place e) (others : ∀ t, t ≠ s → e.sources t = sources t)
    (here : place s = some (e.sources s).clock) :
    Goes (timePrioqReshuffle s) (fun _ e' => Tracked e.sources place e' ∧ Quiet e e') e := by
  generalize clock : (e.sources s).clock = d at here
  obtain ⟨q, runE, holdsE, -⟩ := (tracked d).1.reshuffle (agreesBut_of_same timeEventSourceNext others) here
  obtain ⟨r, runL, holdsL, -⟩ := (tracked d).2.reshuffle (agreesBut_of_same timeEventSourceLatest others) here
  apply goes_get_bind
  rw [clock]
  refine goes_ok_bind (onEarliest_ok runE) (goes_ok_bind (onLatest_ok runL) (goes_pure ⟨?_, _, _, rfl⟩))
  refine Tracked.requeue e (fun d' apart => ?_) ⟨holdsE, holdsL⟩
  exact (tracked d').absent others (by simp [here, apart.symm])

/-- There is room for one more source in the queues of a clock. -/
def Room (d : TimeType) (e : SdEvent S) : Prop :=
  (e.earliest d).items.length < (e.earliest d).nAllocated ∧ (e.latest d).items.length < (e.latest d).nAllocated

/-- Fewer sources than positions can be counted for. -/
def Small (e : SdEvent S) : Prop := ∀ d, (e.earliest d).items.length < 2 ^ 31 ∧ (e.latest d).items.length < 2 ^ 31

/-- Replacing the queues of a clock by smaller ones. -/
theorem Small.update (small : Small e) (smallE : q.items.length < 2 ^ 31) (smallL : r.items.length < 2 ^ 31) :
    Small { e with earliest := update e.earliest d q, latest := update e.latest d r } := by
  intro d'
  by_cases here : d' = d
  · subst here
    simpa using ⟨smallE, smallL⟩
  · simpa [update_of_ne here] using small d'

theorem members_update (value : Option TimeType) (d' : TimeType) : {t | update place s value t = some d'} =
      if value = some d' then insert s {t | place t = some d'} else {t | place t = some d'} \ {s} := by
  ext t
  by_cases here : t = s
  · subst here
    by_cases there : value = some d' <;> simp [there]
  · by_cases there : value = some d' <;> simp [there, here]

theorem Tracked.elsewhere (tracked : Tracked sources place e) {value : Option TimeType} (old : place s ≠ some d)
    (new : value ≠ some d) : Queued sources {t | update place s value t = some d} (e.earliest d) (e.latest d) := by
  rw [members_update, if_neg new, Set.sdiff_singleton_eq_self (s := {t | place t = some d}) old]
  exact tracked d

theorem Tracked.remove (tracked : Tracked e.sources place e) (here : place s = some d) (small : Small e) :
    Goes (timePrioqRemove s d)
      (fun _ e' => Tracked e.sources (update place s none) e' ∧ Quiet e e' ∧ Room d e' ∧ Small e') e := by
  obtain ⟨q, runE, holdsE, roomE, lessE⟩ := (tracked d).1.remove here
  obtain ⟨r, runL, holdsL, roomL, lessL⟩ := (tracked d).2.remove here
  have gone : s ∉ {t | place t = some d} \ {s} := by simp
  have now : {t | update place s none t = some d} = {t | place t = some d} \ {s} := by simp [members_update]
  apply goes_get_bind
  refine goes_ok_bind (onEarliest_ok runE) (goes_ok_bind (onLatest_ok runL) ?_)
  refine goes_ok_bind (onEarliest_ok rfl) (goes_of_ok (onLatest_ok rfl) ?_)
  simp only [update_self, update_idem]
  refine ⟨?_, ⟨_, _, rfl⟩, by simpa [Room] using ⟨roomE, roomL⟩, ?_⟩
  · refine Tracked.requeue e (fun d' apart => tracked.elsewhere (by simp [here, apart.symm]) (by simp)) ?_
    rw [now]
    exact ⟨holdsE.note gone prioqIdxNull, holdsL.note gone prioqIdxNull⟩
  · have := small d
    apply small.update <;> rw [Prioq.note_items] <;> omega

/-- A source is put in the queues of a clock, or is in none as before; room is left where it was. -/
theorem Tracked.put (tracked : Tracked e.sources place e) (absent : place s = none) (small : Small e) (memory : Memory) :
    Goes (timePrioqPut s d memory)
      (fun put e' => Tracked e.sources (update place s (if put then some d else none)) e' ∧ Quiet e e' ∧
        (Room d e → put = true) ∧ (put = false → (∀ d', d' ≠ d → Room d' e → Room d' e') ∧ Small e')) e := by
  have missing : s ∉ {t | place t = some d} := by simp [absent]
  have none : update place s none = place := by
    rw [← absent]
    exact update_eq_self s place
  obtain ⟨r, q, runE, sameE, holdsE, roomE⟩ := (tracked d).1.put missing memory.earliest (small d).1
  obtain ⟨r', q', runL, sameL, holdsL, roomL⟩ := (tracked d).2.put missing memory.latest (small d).2
  apply goes_get_bind
  refine goes_ok_bind (onEarliest_ok runE) ?_
  cases r with
  | false =>
    obtain rfl := sameE rfl
    rw [update_eq_self]
    refine goes_pure ⟨by simpa [none] using tracked, ⟨_, _, rfl⟩, ?_, fun _ => ⟨fun _ _ room => room, small⟩⟩
    intro room
    exact absurd (roomE room.1) (by simp)
  | true =>
    obtain ⟨holdsE, lengthE⟩ := holdsE rfl
    refine goes_ok_bind (onLatest_ok runL) ?_
    cases r' with
    | true =>
      refine goes_pure ⟨?_, ⟨_, _, rfl⟩, fun _ => rfl, by simp⟩
      refine Tracked.requeue e (fun d' apart => tracked.elsewhere (by simp [absent]) (by simpa using apart.symm)) ?_
      rw [members_update, if_pos (if_pos rfl)]
      exact ⟨holdsE, (holdsL rfl).1⟩
    | false =>
      obtain rfl := sameL rfl
      -- the source is taken out of the first queue again
      obtain ⟨q₁, runR, holdsR, _, less⟩ := holdsE.remove (Set.mem_insert s _)
      rw [Set.insert_sdiff_of_mem _ (Set.mem_singleton s), Set.sdiff_singleton_eq_self missing] at holdsR
      rw [update_eq_self]
      refine goes_ok_bind (onEarliest_ok ((congrArg _ (update_self d q e.earliest)).trans runR)) ?_
      refine goes_require_bind rfl (goes_ok_bind (onEarliest_ok rfl) (goes_pure ?_))
      simp only [update_self, update_idem]
      refine ⟨?_, ⟨_, _, rfl⟩, ?_, fun _ => ⟨?_, ?_⟩⟩
      · rw [if_neg (by simp), none]
        have kept := Tracked.requeue e (fun d' _ => tracked d') ⟨holdsR.note missing prioqIdxNull, (tracked d).2⟩
        rwa [update_eq_self] at kept
      · intro room
        exact absurd (roomL room.2) (by simp)
      · intro d' apart room
        simpa [Room, update_of_ne apart] using room
      · have := small.update (d := d) (q := q₁.note (some s) prioqIdxNull) (by rw [Prioq.note_items]; have := small d; omega) (small d).2
        rwa [update_eq_self] at this

/-- A change that no comparison sees. -/
theorem Tracked.congr (tracked : Tracked sources place e)
    (same : ∀ t, timeKey timeEventSourceNext (sources' t) = timeKey timeEventSourceNext (sources t) ∧
      timeKey timeEventSourceLatest (sources' t) = timeKey timeEventSourceLatest (sources t)) :
    Tracked sources' place e := by
  intro d
  constructor
  · exact (tracked d).1.congr fun a b => by simp only [timeOrder, (timePrioqCompare_key _ _ _).1, same]
  · exact (tracked d).2.congr fun a b => by simp only [timeOrder, (timePrioqCompare_key _ _ _).1, same]

end Queues

/-! ## Changes of a source -/

/-- Only the source `s` has changed, to `source`, and queues. -/
def Edited (s : S) (source : EventSource) (e e' : SdEvent S) : Prop :=
  ∃ earliest latest, e' = { e with sources := update e.sources s source, earliest, latest }

section Edits

variable {e e' e'' : SdEvent S} {place : S → Option TimeType} {s : S} {source source' : EventSource}

theorem Edited.trans (first : Edited s source e e') (second : Edited s source' e' e'') : Edited s source' e e'' := by
  obtain ⟨_, _, rfl⟩ := first
  obtain ⟨earliest, latest, rfl⟩ := second
  exact ⟨earliest, latest, by simp⟩

theorem Edited.now (edited : Edited s source e e') : e'.sources s = source := by
  obtain ⟨_, _, rfl⟩ := edited
  exact update_self s source e.sources

theorem Edited.connected (edited : Edited s source e e') : e'.connected = e.connected := by
  obtain ⟨_, _, rfl⟩ := edited
  rfl

theorem Quiet.edited (quiet : Quiet e e') (s : S) : Edited s (e.sources s) e e' := by
  obtain ⟨earliest, latest, rfl⟩ := quiet
  exact ⟨earliest, latest, by simp⟩

theorem edited_self (e : SdEvent S) (s : S) : Edited s (e.sources s) e e := Quiet.edited ⟨_, _, rfl⟩ s

section

variable (tracked : Tracked e.sources place e)

include tracked

/-- A source is changed, and its queues are put in order. -/
theorem Tracked.change (f : EventSource → EventSource) (here : place s = some (f (e.sources s)).clock) :
    Goes (timePrioqReshuffle s) (fun _ e' => Tracked e'.sources place e' ∧ Edited s (f (e.sources s)) e e')
      (e.update s f) := by
  have before : Tracked e.sources place (e.update s f) := tracked
  refine (before.reshuffle (fun t apart => update_of_ne apart _ _) (by simpa [SdEvent.update] using here)).imp ?_
  rintro _ _ ⟨tracked, _, _, rfl⟩
  exact ⟨tracked, _, _, rfl⟩

theorem Tracked.setPending (here : place s = some (e.sources s).clock) (b memory : Bool) :
    Goes (sourceSetPending s b memory) (fun _ e' => Tracked e'.sources place e' ∧
      ∃ pending, Edited s { e.sources s with pending } e e') e := by
  apply goes_get_bind
  split
  · exact goes_pure ⟨tracked, _, edited_self e s⟩
  · split
    · exact goes_pure ⟨tracked, _, edited_self e s⟩
    · apply goes_modify_bind
      refine (tracked.change (fun source => { source with pending := b }) here).bind ?_
      rintro _ e' ⟨tracked, edited⟩
      exact goes_pure ⟨tracked, b, edited⟩

theorem Tracked.unsetPending {c : Prop} [Decidable c] (before : c → place s = some (e.sources s).clock) :
    Goes (unsetPendingIf c s) (fun _ e' => Tracked e'.sources place e' ∧
      ∃ pending, Edited s { e.sources s with pending } e e') e := by
  unfold unsetPendingIf
  split
  · rename_i isC
    exact tracked.setPending (before isC) false true
  · exact goes_pure ⟨tracked, _, edited_self e s⟩

/-- What `event_source_offline()` and `event_source_online()` do to a source they put in order. -/
theorem Tracked.switch {c : Prop} [Decidable c] (enabled : Enabled) (ratelimited : Bool)
    (before : c → place s = some (e.sources s).clock) (after : place s = some { e.sources s with ratelimited }.clock) :
    Goes (unsetPendingIf c s >>= fun _ => modify (SdEvent.update s fun source => { source with enabled, ratelimited })
        >>= fun _ => timePrioqReshuffle s) (fun _ e' => Tracked e'.sources place e' ∧
      ∃ pending, Edited s { e.sources s with enabled, ratelimited, pending } e e') e := by
  refine (tracked.unsetPending before).bind ?_
  rintro _ e₁ ⟨tracked, pending, first⟩
  apply goes_modify_bind
  refine (tracked.change (fun source => { source with enabled, ratelimited }) ?_).imp ?_
  · rwa [first.now]
  · rintro _ e₂ ⟨tracked, second⟩
    rw [first.now] at second
    exact ⟨tracked, pending, first.trans second⟩

theorem Tracked.offline (enabled : Enabled) (ratelimited : Bool)
    (before : (e.sources s).enabled ≠ .off ∧ enabled = .off → place s = some (e.sources s).clock)
    (after : place s = some { e.sources s with ratelimited }.clock) :
    Goes (eventSourceOffline s enabled ratelimited) (fun _ e' => Tracked e'.sources place e' ∧
      ∃ pending, Edited s { e.sources s with enabled, ratelimited, pending } e e') e :=
  goes_get_bind (tracked.switch enabled ratelimited before after)

/-- Switching a source on puts it in order, if it is really switched on. -/
theorem Tracked.online (enabled : Enabled) (ratelimited : Bool)
    (before : (e.sources s).enabled = .off ∧ enabled ≠ .off → place s = some (e.sources s).clock)
    (after : place s = some { e.sources s with ratelimited }.clock) (ready : ¬ (enabled = .off ∨ ratelimited = true)) :
    Goes (eventSourceOnline s enabled ratelimited) (fun _ e' => Tracked e'.sources place e' ∧
      ∃ pending, Edited s { e.sources s with enabled, ratelimited, pending } e e') e := by
  simp only [eventSourceOnline, if_neg ready]
  exact goes_get_bind (tracked.switch enabled ratelimited before after)

end

/-- A source leaves the queues of `d` for those of `d'`, or there is room for it to go back. -/
theorem Tracked.move {d d' : TimeType} {α : Type} {f : Bool → EventM S α} {post : α → SdEvent S → Prop}
    (tracked : Tracked e.sources place e) (here : place s = some d) (small : Small e) (memory again : Memory)
    (moved : ∀ e', Quiet e e' → Tracked e.sources (update place s (some d')) e' → Goes (f true) post e')
    (stuck : ∀ e', Goes (timePrioqPutBack s d again) (fun _ e' => Quiet e e' ∧ Tracked e.sources place e') e' →
      Goes (f false) post e') : Goes (timePrioqRemove s d >>= fun _ => timePrioqPut s d' memory >>= f) post e := by
  refine (tracked.remove here small).bind ?_
  rintro _ _ ⟨tracked, ⟨_, _, rfl⟩, room, small⟩
  refine (Tracked.put tracked (update_self s none place) small memory).bind ?_
  rintro put _ ⟨tracked, ⟨_, _, rfl⟩, roomy, failed⟩
  rw [update_idem] at tracked
  cases put with
  | true => exact moved _ ⟨_, _, rfl⟩ tracked
  | false =>
    obtain ⟨kept, small⟩ := failed rfl
    have apart : d ≠ d' := by
      rintro rfl
      exact absurd (roomy room) (by simp)
    refine stuck _ ((Tracked.put tracked (update_self s none place) small again).bind ?_)
    rintro put _ ⟨tracked, ⟨_, _, rfl⟩, roomy, _⟩
    obtain rfl := roomy (kept d apart room)
    rw [update_idem, if_pos rfl, ← here, update_eq_self] at tracked
    exact ⟨⟨_, _, rfl⟩, tracked⟩

end Edits

/-! ## What holds between calls -/

/-- The clock whose queues a source belongs in. -/
def homes (e : SdEvent S) (s : S) : Option TimeType := if e.connected s then some (e.sources s).clock else none

def Orderly (e : SdEvent S) : Prop := Tracked e.sources (homes e) e

theorem Orderly.tracked {e : SdEvent S} (orderly : Orderly e) : Tracked e.sources (homes e) e := orderly

section Calls

variable {e e' : SdEvent S} {s : S} {source : EventSource}

theorem homes_of_connected (connected : e.connected s = true) : homes e s = some (e.sources s).clock := by
  simp [homes, connected]

/-- What happens to one source matters to its own queues only. -/
theorem orderly_edit (sources : ∀ t, t ≠ s → e'.sources t = e.sources t)
    (connected : ∀ t, t ≠ s → e'.connected t = e.connected t)
    (tracked : Tracked e'.sources (update (homes e) s (homes e' s)) e') : Orderly e' := by
  have same : homes e' = update (homes e) s (homes e' s) := by
    funext t
    by_cases here : t = s
    · rw [here, update_self]
    · simp [homes, here, sources t here, connected t here]
  rwa [Orderly, same]

section Connected

variable (orderly : Orderly e) (connected : e.connected s = true)

include connected

theorem orderly_edited (edited : Edited s source e e')
    (tracked : Tracked e'.sources (update (homes e) s (some source.clock)) e') : Orderly e' := by
  obtain ⟨_, _, rfl⟩ := edited
  refine orderly_edit (s := s) (fun t apart => update_of_ne apart _ _) (fun _ _ => rfl) ?_
  simpa [homes, connected] using tracked

theorem orderly_stays (edited : Edited s source e e') (tracked : Tracked e'.sources (homes e) e')
    (clock : source.clock = (e.sources s).clock) : Orderly e' := by
  refine orderly_edited connected edited ?_
  rwa [clock, ← homes_of_connected connected, update_eq_self]

include orderly

theorem Orderly.setPending (b memory : Bool) : Goes (sourceSetPending s b memory)
      (fun _ e' => Orderly e' ∧ ∃ pending, Edited s { e.sources s with pending } e e') e := by
  refine (orderly.tracked.setPending (homes_of_connected connected) b memory).imp ?_
  rintro _ e' ⟨tracked, pending, edited⟩
  exact ⟨orderly_stays connected edited tracked rfl, pending, edited⟩

/-- A source changes in a way that matters to no clock, and its queues are put in order. -/
theorem Orderly.change (f : EventSource → EventSource) (clock : (f (e.sources s)).clock = (e.sources s).clock) :
    Goes (timePrioqReshuffle s) (fun _ e' => Orderly e') (e.update s f) := by
  refine (orderly.tracked.change f (by rw [clock]; exact homes_of_connected connected)).imp ?_
  rintro _ e' ⟨tracked, edited⟩
  exact orderly_stays connected edited tracked clock

/-- A source changes in a way that no comparison sees. -/
theorem Orderly.unseen (f : EventSource → EventSource)
    (same : timeKey timeEventSourceNext (f (e.sources s)) = timeKey timeEventSourceNext (e.sources s) ∧
      timeKey timeEventSourceLatest (f (e.sources s)) = timeKey timeEventSourceLatest (e.sources s))
    (clock : (f (e.sources s)).clock = (e.sources s).clock) : Orderly (e.update s f) := by
  refine orderly_stays connected ⟨_, _, rfl⟩ (Tracked.congr orderly.tracked fun t => ?_) clock
  by_cases here : t = s
  · subst here
    simpa [SdEvent.update] using same
  · simp [SdEvent.update, here]

theorem Orderly.setEnabled {m : Enabled}
    (fine : m ≠ .off → (e.sources s).enabled = .off → (e.sources s).ratelimited = false) :
    Goes (sdEventSourceSetEnabled s m) (fun _ e' => Orderly e') e := by
  have home := homes_of_connected connected
  apply goes_get_bind
  split
  · exact goes_pure orderly
  split
  · exact goes_pure orderly
  split
  · refine (orderly.tracked.offline m (e.sources s).ratelimited (fun _ => home) home).imp ?_
    rintro _ e' ⟨tracked, pending, edited⟩
    exact orderly_stays connected edited tracked rfl
  rename_i isOn
  split
  · rename_i wasOn
    -- from on to oneshot or back
    refine goes_modify (orderly.unseen connected _ ?_ rfl)
    simp [timeKey, timeEventSourceNext, timeEventSourceLatest, eventSourceTimerCandidate, isOn, wasOn]
  · rename_i wasOff
    have wasOff : (e.sources s).enabled = .off := by simpa using wasOff
    have free := fine isOn wasOff
    refine (orderly.tracked.online m (e.sources s).ratelimited (fun _ => home) home (by simp [isOn, free])).imp ?_
    rintro _ e' ⟨tracked, pending, edited⟩
    exact orderly_stays connected edited tracked rfl

theorem Orderly.rearm (f : EventSource → EventSource) (same : ∀ x, (f x).clock = x.clock) :
    Goes (sourceSetPending s false true >>= fun _ => modify (SdEvent.update s f) >>= fun _ => timePrioqReshuffle s)
      (fun _ e' => Orderly e') e := by
  refine (orderly.setPending connected false true).bind ?_
  rintro _ e₁ ⟨orderly, pending, edited⟩
  have connected := edited.connected ▸ connected
  apply goes_modify_bind
  exact orderly.change connected f (same _)

theorem Orderly.setTime (usec : UInt64) : Goes (sdEventSourceSetTime s usec) (fun _ e' => Orderly e') e := by
  apply goes_get_bind
  split
  · exact goes_pure orderly
  · exact orderly.rearm connected _ fun _ => rfl

theorem Orderly.setTimeAccuracy (usec : UInt64) :
    Goes (sdEventSourceSetTimeAccuracy s usec) (fun _ e' => Orderly e') e := by
  apply goes_get_bind
  split
  · exact goes_pure orderly
  split
  · exact goes_pure orderly
  · exact orderly.rearm connected _ fun _ => rfl

theorem Orderly.enterRatelimited (small : Small e) (setup : Bool) (memory again : Memory) :
    Goes (eventSourceEnterRatelimited s setup memory again) (fun _ e' => Orderly e') e := by
  apply goes_get_bind
  dsimp only
  split
  · exact goes_pure orderly
  rename_i free
  split
  · exact goes_pure orderly
  have own : (e.sources s).clock = (e.sources s).type := by simp [EventSource.clock, free]
  have home : homes e s = some (e.sources s).type := by rw [homes_of_connected connected, own]
  refine orderly.tracked.move home small memory again ?_ ?_
  · rintro e₁ ⟨_, _, rfl⟩ tracked
    refine (Tracked.offline tracked (e.sources s).enabled true ?_ ?_).imp ?_
    · rintro ⟨isOn, isOff⟩
      exact absurd isOff isOn
    · simp [EventSource.clock]
    · rintro _ e₂ ⟨tracked, pending, edited⟩
      exact orderly_edited connected edited tracked
  · intro e₁ back
    refine back.imp ?_
    rintro _ _ ⟨⟨_, _, rfl⟩, tracked⟩
    exact tracked

/-- The rate limit of a source that is enabled ends. -/
theorem Orderly.leaveRatelimit (small : Small e)
    (fine : (e.sources s).ratelimited = true → (e.sources s).enabled ≠ .off) (memory again : Memory) :
    Goes (eventSourceLeaveRatelimit s memory again) (fun left e' => Orderly e' ∧ e'.connected s = true ∧
      (left = true → (e'.sources s).ratelimited = false)) e := by
  apply goes_get_bind
  dsimp only
  split
  · rename_i free
    exact goes_pure ⟨orderly, connected, fun _ => by simpa using free⟩
  rename_i limited
  have limited : (e.sources s).ratelimited = true := by simpa using limited
  have own : (e.sources s).clock = .monotonic := by simp [EventSource.clock, limited]
  have home : homes e s = some .monotonic := by rw [homes_of_connected connected, own]
  refine orderly.tracked.move home small memory again ?_ ?_
  · rintro e₁ ⟨_, _, rfl⟩ tracked
    refine (Tracked.online tracked (e.sources s).enabled false ?_ ?_ ?_).bind ?_
    · rintro ⟨isOff, isOn⟩
      exact absurd isOff isOn
    · simp [EventSource.clock]
    · simpa using fine limited
    · rintro _ e₂ ⟨tracked, pending, edited⟩
      have orderly : Orderly e₂ := orderly_edited connected edited tracked
      have connected : e₂.connected s = true := edited.connected ▸ connected
      have free : (e₂.sources s).ratelimited = false := by rw [edited.now]
      apply goes_modify_bind
      refine goes_pure ⟨orderly.unseen connected _ ?_ rfl, connected, fun _ => ?_⟩
      · simp [timeKey, timeEventSourceNext, timeEventSourceLatest, eventSourceTimerCandidate, free]
      · simp [SdEvent.update, free]
  · intro e₁ back
    refine back.bind ?_
    rintro _ _ ⟨⟨_, _, rfl⟩, tracked⟩
    exact goes_pure ⟨tracked, connected, by simp⟩

theorem Orderly.setRatelimit (small : Small e)
    (fine : (e.sources s).ratelimited = true → (e.sources s).enabled ≠ .off) (interval : UInt64) (burst : UInt32)
    (memory again : Memory) :
    Goes (sdEventSourceSetRatelimit s interval burst memory again) (fun _ e' => Orderly e') e := by
  refine (orderly.leaveRatelimit connected small fine memory again).bind ?_
  rintro left e₁ ⟨orderly, connected, free⟩
  split
  · rename_i isLeft
    have free := free isLeft
    refine goes_modify (orderly.unseen connected _ ?_ rfl)
    simp [timeKey, timeEventSourceNext, timeEventSourceLatest, eventSourceTimerCandidate, free]
  · exact goes_pure orderly

theorem Orderly.dispatch (small : Small e)
    (online : (e.sources s).ratelimited = false) (ts : UInt64) (setup : Bool) (memory again : Memory) :
    Goes (sourceDispatch s ts setup memory again) (fun _ e' => Orderly e') e := by
  apply goes_get_bind
  dsimp only
  have changed := orderly.unseen connected (fun source => { source with rateLimit := (ratelimitBelow ts (e.sources s).rateLimit).2 })
    (by simp [timeKey, timeEventSourceNext, timeEventSourceLatest, eventSourceTimerCandidate, online]) rfl
  split
  · exact changed.enterRatelimited connected small setup memory again
  · refine (changed.setPending connected false true).bind ?_
    rintro _ e₁ ⟨orderly, pending, edited⟩
    split
    · exact orderly.setEnabled (edited.connected ▸ connected) (by simp)
    · exact goes_pure orderly

theorem Orderly.disconnect (small : Small e) : Goes (sourceDisconnect s) (fun _ e' => Orderly e') e := by
  refine (orderly.tracked.remove (homes_of_connected connected) small).bind ?_
  rintro _ _ ⟨tracked, ⟨_, _, rfl⟩, _, _⟩
  refine goes_modify (orderly_edit (e := e) (s := s) (fun _ _ => rfl) (fun t apart => update_of_ne apart _ _) ?_)
  simpa [homes, Tracked] using tracked

end Connected

theorem Orderly.addTime (orderly : Orderly e) (fresh : e.connected s = false) (small : Small e) (clock : ClockId)
    (usec accuracy : UInt64) (memory : Memory) :
    Goes (sdEventAddTime s clock usec accuracy memory) (fun _ e' => Orderly e') e := by
  apply goes_get_bind
  split
  · exact goes_pure orderly
  split
  · exact goes_pure orderly
  split
  · exact goes_pure orderly
  rename_i type _
  have absent : homes e s = none := by simp [homes, fresh]
  apply goes_modify_bind
  generalize made : ({ type, next := usec, accuracy := if accuracy = 0 then defaultAccuracyUsec else accuracy } :
    EventSource) = source
  have clock : source.clock = type := by subst made; rfl
  have missing : s ∉ {t | homes e t = some type} := by simp [absent]
  have tracked : Tracked (update e.sources s source) (homes e) e := fun d =>
    (orderly d).absent (fun t apart => update_of_ne apart _ _) (by simp [absent])
  have noted := Tracked.requeue (e.update s fun _ => source) (fun d _ => tracked d)
    ⟨(tracked type).1.note missing prioqIdxNull, (tracked type).2.note missing prioqIdxNull⟩
  have small := Small.update (e := e.update s fun _ => source) (d := type) (q := (e.earliest type).note (some s) prioqIdxNull)
    (r := (e.latest type).note (some s) prioqIdxNull) small (small type).1 (small type).2
  refine goes_ok_bind (onEarliest_ok (x := modify (Prioq.note (some s) prioqIdxNull)) rfl) ?_
  refine (Tracked.put noted absent small memory).bind ?_
  rintro put _ ⟨tracked, ⟨_, _, rfl⟩, _, _⟩
  cases put with
  | true =>
    refine goes_modify (orderly_edit (s := s) (fun t apart => update_of_ne apart _ _)
      (fun t apart => update_of_ne apart _ _) ?_)
    simpa [homes, SdEvent.update, clock, Tracked] using tracked
  | false =>
    refine goes_pure (orderly_edit (s := s) (fun t apart => update_of_ne apart _ _) (fun _ _ => rfl) ?_)
    simpa [homes, SdEvent.update, fresh] using tracked

theorem Orderly.processTimer (orderly : Orderly e) (small : Small e) {d : TimeType} {n : UInt64}
    (fine : ∀ s, (e.earliest d).peek = some s → ¬ n < timeEventSourceNext (e.sources s) →
      (e.sources s).ratelimited = true → (e.sources s).enabled ≠ .off) (pending : Bool) (memory again : Memory) :
    Goes (processTimer d n pending memory again) (fun _ e' => Orderly e') e := by
  apply goes_get_bind
  split
  · exact goes_pure orderly
  rename_i s head
  have home := (orderly d).1.peek_mem head
  have connected : e.connected s = true := by
    by_contra apart
    simp [homes, apart] at home
  dsimp only
  split
  · exact goes_pure orderly
  rename_i elapsed
  split
  · refine (orderly.leaveRatelimit connected small (fine s head elapsed) memory again).bind ?_
    rintro _ e₁ ⟨orderly, _⟩
    exact goes_pure orderly
  split
  · exact goes_pure orderly
  refine (orderly.setPending connected true pending).bind ?_
  rintro done e₁ ⟨orderly, pending, edited⟩
  split
  · have connected : e₁.connected s = true := edited.connected ▸ connected
    refine (orderly.tracked.reshuffle (fun _ _ => rfl) (homes_of_connected connected)).imp ?_
    rintro _ _ ⟨tracked, _, _, rfl⟩
    exact tracked
  · exact goes_pure orderly

end Calls

/-! ## Runs -/

/-- What callers keep to: sources are used while they are connected, and dispatched while they are
online and pending. -/
def EventCall.Allowed (e : SdEvent S) : EventCall S → Prop
  | addTime s _ _ _ _ => e.connected s = false
  | setEnabled s _ | setTime s _ | setTimeAccuracy s _ | setRatelimit s _ _ _ _ | disconnect s => e.connected s = true
  | dispatch s _ _ _ _ =>
    e.connected s = true ∧ (e.sources s).pending = true ∧ (e.sources s).enabled ≠ .off ∧
      (e.sources s).ratelimited = false
  | processTimer _ _ _ _ _ | finish => True

instance (e : SdEvent S) : (call : EventCall S) → Decidable (call.Allowed e)
  | .addTime s _ _ _ _ => inferInstanceAs (Decidable (e.connected s = false))
  | .setEnabled s _ | .setTime s _ | .setTimeAccuracy s _ | .setRatelimit s _ _ _ _ | .disconnect s =>
    inferInstanceAs (Decidable (e.connected s = true))
  | .dispatch s _ _ _ _ => inferInstanceAs (Decidable (e.connected s = true ∧ (e.sources s).pending = true ∧
      (e.sources s).enabled ≠ .off ∧ (e.sources s).ratelimited = false))
  | .processTimer _ _ _ _ _ | .finish => inferInstanceAs (Decidable True)

/-- No source is rate limited and disabled when it is enabled, or when its rate limit ends. -/
def EventCall.Switches (e : SdEvent S) : EventCall S → Prop
  | setEnabled s m => m ≠ .off → (e.sources s).enabled = .off → (e.sources s).ratelimited = false
  | setRatelimit s _ _ _ _ => (e.sources s).ratelimited = true → (e.sources s).enabled ≠ .off
  | processTimer d n _ _ _ =>
    ∀ s, (e.earliest d).peek = some s → ¬ n < timeEventSourceNext (e.sources s) →
      (e.sources s).ratelimited = true → (e.sources s).enabled ≠ .off
  | _ => True

/-- Each call of a run is one that `allowed` allows in the state it is made in. -/
def AllowedEvents (allowed : SdEvent S → EventCall S → Prop) : List (EventCall S) → SdEvent S → Prop
  | [], _ => True
  | call :: calls, e => allowed e call ∧ ∀ e', call.run e = .ok ⟨⟩ e' → AllowedEvents allowed calls e'

instance (e : SdEvent S) : Decidable (Small e) :=
  decidable_of_iff
    (∀ d ∈ [TimeType.realtime, .boottime, .monotonic, .realtimeAlarm, .boottimeAlarm],
      (e.earliest d).items.length < 2 ^ 31 ∧ (e.latest d).items.length < 2 ^ 31)
    ⟨fun small d => small d (by cases d <;> simp), fun small d _ => small d⟩

theorem allowedEvents_cons {allowed : SdEvent S → EventCall S → Prop} {call : EventCall S} {calls : List (EventCall S)}
    {e e' : SdEvent S} (run : call.run e = .ok ⟨⟩ e') :
    AllowedEvents allowed (call :: calls) e ↔ allowed e call ∧ AllowedEvents allowed calls e' := by
  simp [AllowedEvents, run]

instance (allowed : SdEvent S → EventCall S → Prop) [∀ e call, Decidable (allowed e call)] :
    (calls : List (EventCall S)) → (e : SdEvent S) → Decidable (AllowedEvents allowed calls e)
  | [], _ => isTrue trivial
  | call :: calls, e =>
    match run : call.run e with
    | .ok _ e' =>
      have := instDecidableAllowedEvents allowed calls e'
      decidable_of_iff (allowed e call ∧ AllowedEvents allowed calls e') (allowedEvents_cons run).symm
    | .error _ _ => decidable_of_iff (allowed e call) (by simp [AllowedEvents, run])

theorem Orderly.call {e : SdEvent S} (orderly : Orderly e) (call : EventCall S) (allowed : call.Allowed e)
    (switches : call.Switches e) (small : Small e) : Goes call.run (fun _ e' => Orderly e') e := by
  cases call with
  | addTime s clock usec accuracy memory => exact orderly.addTime allowed small clock usec accuracy memory
  | setEnabled s m => exact orderly.setEnabled allowed switches
  | setTime s usec => exact orderly.setTime allowed usec
  | setTimeAccuracy s usec => exact orderly.setTimeAccuracy allowed usec
  | setRatelimit s interval burst memory again =>
    exact orderly.setRatelimit allowed small switches interval burst memory again
  | dispatch s ts setup memory again => exact orderly.dispatch allowed.1 small allowed.2.2.2 ts setup memory again
  | processTimer d n pending memory again => exact orderly.processTimer small switches pending memory again
  | disconnect s => exact orderly.disconnect allowed small
  | finish => exact goes_modify orderly.tracked

theorem Orderly.run {e : SdEvent S} (orderly : Orderly e) (calls : List (EventCall S))
    (allowed : AllowedEvents (fun e call => call.Allowed e ∧ call.Switches e ∧ Small e) calls e) :
    Goes (runEvents calls) (fun _ e' => Orderly e') e := by
  induction calls generalizing e with
  | nil => exact goes_pure orderly
  | cons call calls ih =>
    obtain ⟨⟨ok, switches, small⟩, rest⟩ := allowed
    obtain ⟨_, e₁, ran, orderly⟩ := (orderly.call call ok switches small).ok
    exact goes_ok_bind ran (ih orderly (rest e₁ ran))

theorem orderly_new (sources : S → EventSource) (slots : S → Nat) : Orderly (sdEventNew sources slots) := by
  intro d
  have nowhere : {s | homes (sdEventNew sources slots) s = some d} = ∅ := by simp [homes, sdEventNew]
  rw [nowhere]
  exact ⟨Prioq.holds_new _ slots, Prioq.holds_new _ slots⟩

/-- No item of a queue is below its parent. -/
def HeapOrdered (compare : S → S → Int) (q : Prioq S S) : Prop :=
  ∀ i x y, 0 < i → q.items[(i - 1) / 2]? = some x → q.items[i]? = some y → compare x.data y.data ≤ 0

/-- The sources an event is expected of. -/
def EventSource.Waits (x : EventSource) : Prop := x.enabled ≠ .off ∧ eventSourceTimerCandidate x = true

/-- A first source of a clock, by the time `timeFunc` gives. -/
def IsFirst (timeFunc : EventSource → UInt64) (e : SdEvent S) (d : TimeType) : Option S → Prop
  | none => ∀ s, e.connected s = true → (e.sources s).clock ≠ d
  | some h => e.connected h = true ∧ (e.sources h).clock = d ∧
      ∀ s, e.connected s = true → (e.sources s).clock = d → (e.sources s).Waits →
        (e.sources h).Waits ∧ timeFunc (e.sources h) ≤ timeFunc (e.sources s)

section Read

variable {timeFunc : EventSource → UInt64}

theorem waits_of_key {x y : EventSource} (le : timeKey timeFunc x ≤ timeKey timeFunc y) (waits : y.Waits) :
    x.Waits ∧ timeFunc x ≤ timeFunc y := by
  obtain ⟨isOn, candidate⟩ := waits
  have small := (timeFunc y).toNat_lt
  unfold timeKey at le
  rw [decide_eq_false isOn, candidate] at le
  have isOnX : x.enabled ≠ .off := by
    intro isOff
    rw [decide_eq_true isOff] at le
    simp at le
    omega
  have candidateX : eventSourceTimerCandidate x = true := by
    by_contra late
    have late : eventSourceTimerCandidate x = false := by simpa using late
    rw [late] at le
    simp at le
    omega
  rw [decide_eq_false isOnX, candidateX] at le
  exact ⟨⟨isOnX, candidateX⟩, by simpa [UInt64.le_iff_toNat_le] using le⟩

theorem heapOrdered_of_holds {sources : S → EventSource} {members : Set S} {q : Prioq S S}
    (holds : Prioq.Holds (timeOrder timeFunc sources) members q) :
    HeapOrdered (fun a b => timePrioqCompare timeFunc (sources a) (sources b)) q := by
  intro i x y pos atParent atI
  have below := holds.good.ordered i pos
  rwa [Prioq.place, Prioq.place, atI, show Heap.parent i = (i - 1) / 2 from rfl, atParent] at below

theorem isFirst_of_holds {e : SdEvent S} {d : TimeType} {q : Prioq S S}
    (holds : Prioq.Holds (timeOrder timeFunc e.sources) {s | homes e s = some d} q) :
    IsFirst timeFunc e d q.peek := by
  have home : ∀ s, homes e s = some d ↔ e.connected s = true ∧ (e.sources s).clock = d := by
    intro s
    by_cases connected : e.connected s = true <;> simp [homes]
  match head : q.peek with
  | none =>
    intro s connected clock
    have stored := (holds.members s).mpr ((home s).mpr ⟨connected, clock⟩)
    have empty : q.items = [] := by simpa [Prioq.peek, Prioq.peekByIndex] using head
    rw [empty] at stored
    cases stored
  | some h =>
    obtain ⟨connected, clock⟩ := (home h).mp (holds.peek_mem head)
    refine ⟨connected, clock, fun s connectedS clockS waits => ?_⟩
    have below := holds.peek_below head ((home s).mpr ⟨connectedS, clockS⟩)
    exact waits_of_key ((timePrioqCompare_key timeFunc _ _).1.mp below) waits

end Read

/-- In a run in which no rate limited and disabled source is switched on, and fewer than `2 ^ 31` sources
are in a queue, every call comes back, the queues are in order, and their heads are the first sources. -/
theorem time_queues_in_order (sources : S → EventSource) (slots : S → Nat) (calls : List (EventCall S))
    (allowed : AllowedEvents (fun e call => call.Allowed e ∧ call.Switches e ∧ Small e) calls (sdEventNew sources slots)) :
    ∃ e, runEvents calls (sdEventNew sources slots) = .ok ⟨⟩ e ∧ ∀ d,
      HeapOrdered e.compareEarliest (e.earliest d) ∧ HeapOrdered e.compareLatest (e.latest d) ∧
      IsFirst timeEventSourceNext e d (e.earliest d).peek ∧ IsFirst timeEventSourceLatest e d (e.latest d).peek := by
  obtain ⟨_, e, ran, orderly⟩ := ((orderly_new sources slots).run calls allowed).ok
  refine ⟨e, ran, fun d => ⟨?_, ?_, ?_, ?_⟩⟩
  · exact heapOrdered_of_holds (orderly d).1
  · exact heapOrdered_of_holds (orderly d).2
  · exact isFirst_of_holds (orderly d).1
  · exact isFirst_of_holds (orderly d).2

/-- Two timers are rate limited, until 140 and until 50; then the second is disabled and enabled again. -/
def enabledWhileLimited : List (EventCall Bool) :=
  [.addTime true .realtime 30 1 {}, .addTime false .realtime 30 1 {}, .setRatelimit true 100 1 {} {},
    .setRatelimit false 10 1 {} {}, .setEnabled true .on, .setEnabled false .on] ++
  [40, 41].flatMap (fun n => [.processTimer .realtime n true {} {}, .processTimer .realtime n true {} {},
    .dispatch true n true {} {}, .dispatch false n true {} {}]) ++ [.setEnabled false .off, .setEnabled false .on]

def noTimers : SdEvent Bool := sdEventNew (fun _ => { type := .realtime, next := 0, accuracy := 0 }) fun _ => 0

/-- The timer whose rate limit ends at 140 stays before the one whose rate limit ends at 50. -/
theorem enabled_out_of_order :
    AllowedEvents (fun e call => call.Allowed e ∧ Small e) enabledWhileLimited noTimers ∧
      ∃ e, runEvents enabledWhileLimited noTimers = .ok ⟨⟩ e ∧
        ¬ HeapOrdered e.compareEarliest (e.earliest .monotonic) ∧
        ¬ IsFirst timeEventSourceNext e .monotonic (e.earliest .monotonic).peek := by
  refine ⟨by decide +kernel, ?_⟩
  let limited (pending : Bool) (interval : UInt64) : EventSource :=
    { type := .realtime, enabled := .on, pending, ratelimited := true, next := 30, accuracy := 1,
      rateLimit := { interval, burst := 1, num := 2, begin := 40 } }
  have run : returns (runEvents enabledWhileLimited noTimers) (fun _ e =>
      decide ((e.earliest .monotonic).items = [⟨true, some true⟩, ⟨false, some false⟩] ∧
        e.connected false = true ∧ e.sources false = limited false 10 ∧ e.sources true = limited true 100)) = true := by
    decide +kernel
  obtain ⟨_, e, run, facts⟩ := returns_iff.mp run
  obtain ⟨items, connected, first, second⟩ := of_decide_eq_true facts
  refine ⟨e, run, ?_, ?_⟩
  · intro ordered
    have below := ordered 1 ⟨true, some true⟩ ⟨false, some false⟩ (by decide) (by rw [items]; rfl) (by rw [items]; rfl)
    rw [SdEvent.compareEarliest, first, second] at below
    exact absurd below (by decide)
  · intro isFirst
    have head : (e.earliest .monotonic).peek = some true := by
      rw [Prioq.peek, Prioq.peekByIndex, items]
      rfl
    rw [head] at isFirst
    have le := (isFirst.2.2 false connected (by rw [first]; rfl) (by rw [first]; exact ⟨by decide, by decide⟩)).2
    rw [first, second] at le
    exact absurd le (by decide)

theorem time_queues_in_order_two :
    ∃ e, runEvents [.addTime true .realtime 100 1 {}, .addTime false .realtime 30 1 {}] noTimers = .ok ⟨⟩ e ∧
      IsFirst timeEventSourceNext e .realtime (e.earliest .realtime).peek := by
  have allowed : AllowedEvents (fun e call => call.Allowed e ∧ call.Switches e ∧ Small e)
      [.addTime true .realtime 100 1 {}, .addTime false .realtime 30 1 {}] noTimers := by
    refine ⟨⟨rfl, trivial, by decide +kernel⟩, ?_⟩
    rintro e' ⟨⟩
    exact ⟨⟨rfl, trivial, by decide +kernel⟩, fun _ _ => trivial⟩
  obtain ⟨e, run, facts⟩ := time_queues_in_order _ _ _ allowed
  exact ⟨e, run, (facts .realtime).2.2.1⟩

end SystemdPort.Event
