/-
# Compat.Epoll — epoll on top of kqueue

`include/sys_compat/epoll.h` of the port.  An epoll instance is a kqueue; each
`epoll_ctl()` call becomes one or two registration changes, and `epoll_wait()`
turns each reported kevent into one epoll event.

The kqueue keeps one registration per descriptor and filter and reports, in any
order, those that are ready.  What epoll promises is stated over `given`, the
interest masks that a descriptor got since it was last deleted, of which only the
newest counts (`latest`).  The port registers one filter for each mask, never takes
an older one back, and never writes `data`; `registered_iff` says what the kqueue
then holds after any history, and `epollWait_correct_iff` what `epoll_wait()` makes
of it.
-/
import Mathlib.Tactic

namespace SystemdPort.Compat

set_option autoImplicit false

open List

/-! ## kqueue -/

/-- `EVFILT_READ` and `EVFILT_WRITE`. -/
inductive Filter where
  | read | write
  deriving DecidableEq

/-- `struct kevent`; the port leaves `udata` NULL everywhere. -/
structure Kevent where
  ident : Int
  filter : Filter
  flags : BitVec 16
  deriving DecidableEq

def evAdd : BitVec 16 := 0x0001
def evDelete : BitVec 16 := 0x0002
def evEnable : BitVec 16 := 0x0004
def evError : BitVec 16 := 0x4000
def evEof : BitVec 16 := 0x8000

structure Kqueue where
  notes : List (Int × Filter) := []
  nodup : notes.Nodup := by exact nodup_nil

/-- What is ready, with the flags that come with it. -/
abbrev Readiness := Int → Filter → Option (BitVec 16)

def Kqueue.poll (kq : Kqueue) (ready : Readiness) : List Kevent :=
  kq.notes.filterMap fun note => (ready note.1 note.2).map fun flags => ⟨note.1, note.2, flags⟩

/-- `kevent()` with one change and no room for events. -/
def kevent (kq : Kqueue) (change : Kevent) : Kqueue × Int :=
  let note := (change.ident, change.filter)
  if change.flags &&& evDelete ≠ 0 then
    if note ∈ kq.notes then (⟨kq.notes.erase note, kq.nodup.erase note⟩, 0) else (kq, -1)
  else if change.flags &&& evAdd ≠ 0 then (⟨kq.notes.insert note, kq.nodup.insert⟩, 0)
  else (kq, if note ∈ kq.notes then 0 else -1)

/-! ## epoll -/

def epollIn : BitVec 32 := 0x001
def epollOut : BitVec 32 := 0x004
def epollErr : BitVec 32 := 0x008
def epollHup : BitVec 32 := 0x010

def epollCtlAdd : Int := 1
def epollCtlMod : Int := 2
def epollCtlDel : Int := 3

/-- `struct epoll_event` of the port, which has a descriptor of its own. -/
structure EpollEvent where
  events : BitVec 32
  fd : Int
  data : BitVec 64
  deriving DecidableEq

def epollCtl (kq : Kqueue) (op fd : Int) (event : EpollEvent) : Kqueue × Int :=
  if op = epollCtlAdd ∨ op = epollCtlMod then
    let flags := evAdd ||| evEnable
    if event.events &&& epollIn ≠ 0 then kevent kq ⟨fd, .read, flags⟩
    else if event.events &&& epollOut ≠ 0 then kevent kq ⟨fd, .write, flags⟩
    else (kq, -1)
  else if op = epollCtlDel then
    kevent (kevent kq ⟨fd, .read, evDelete⟩).1 ⟨fd, .write, evDelete⟩
  else (kq, -1)

/-- What `epoll_wait()` writes over an entry of the caller's array. -/
def fillEvent (kev : Kevent) (old : EpollEvent) : EpollEvent :=
  { old with
    fd := kev.ident
    events :=
      (if kev.filter = .read then epollIn else 0) ||| (if kev.filter = .write then epollOut else 0) |||
      (if kev.flags &&& evError ≠ 0 then epollErr else 0) |||
      (if kev.flags &&& evEof ≠ 0 then epollHup else 0) }

/-- `epoll_wait()` when `kevent()` reports `kev`: the entries of the array `events`
that it returns. -/
def epollWait (kev : List Kevent) (events : List EpollEvent) : List EpollEvent :=
  List.zipWith fillEvent kev events

/-! ## What epoll is for -/

/-- A non-empty interest in reading and writing. -/
structure Mask where
  bits : BitVec 32
  valid : bits = epollIn ∨ bits = epollOut ∨ bits = epollIn ||| epollOut

def Filter.bit : Filter → BitVec 32
  | .read => epollIn
  | .write => epollOut

def Mask.wants (mask : Mask) (f : Filter) : Bool := mask.bits &&& f.bit ≠ 0

def EpollEvent.has (e : EpollEvent) (f : Filter) : Bool := e.events &&& f.bit ≠ 0

/-- What a call of `epoll_ctl()` asks for. -/
structure Interest where
  mask : Mask
  data : BitVec 64

inductive Request where
  | add (fd : Int) (interest : Interest)
  | mod (fd : Int) (interest : Interest)
  | del (fd : Int)

def Interest.event (i : Interest) (fd : Int) : EpollEvent := ⟨i.mask.bits, fd, i.data⟩

/-- The request on the port's epoll instance. -/
def Request.apply (kq : Kqueue) : Request → Kqueue
  | add fd i => (epollCtl kq epollCtlAdd fd (i.event fd)).1
  | mod fd i => (epollCtl kq epollCtlMod fd (i.event fd)).1
  | del fd => (epollCtl kq epollCtlDel fd ⟨0, 0, 0⟩).1

def run (history : List Request) : Kqueue := history.foldl Request.apply {}

/-- The interests given for a descriptor since it was last deleted, newest first. -/
def given (fd : Int) (history : List Request) : List Interest :=
  history.foldl (fun is r =>
    match r with
    | .add fd' i | .mod fd' i => if fd' = fd then i :: is else is
    | .del fd' => if fd' = fd then [] else is) []

def latest (history : List Request) (fd : Int) : Option Interest := (given fd history).head?

/-- The descriptor is ready for something it is of interest for. -/
def Due (ready : Readiness) (fd : Int) (i : Interest) : Prop :=
  ∃ f, i.mask.wants f = true ∧ (ready fd f).isSome

/-- The events report each descriptor that is due once, with the ready bits asked
for, and no other. -/
structure Reported (current : Int → Option Interest) (ready : Readiness) (out : List EpollEvent) :
    Prop where
  once : (out.map EpollEvent.fd).Nodup
  due : ∀ fd i, current fd = some i → Due ready fd i → ∃ e ∈ out, e.fd = fd
  bits : ∀ e ∈ out, ∃ i, current e.fd = some i ∧ Due ready e.fd i ∧
    ∀ f, e.has f = true ↔ i.mask.wants f = true ∧ (ready e.fd f).isSome

/-- Each event comes with the data value of the descriptor. -/
def CarriesData (current : Int → Option Interest) (out : List EpollEvent) : Prop :=
  ∀ e ∈ out, ∀ i, current e.fd = some i → e.data = i.data

/-! ## The registrations after any history -/

/-- The one filter that the port registers for a mask. -/
def Mask.filter (mask : Mask) : Filter := if mask.wants .read then .read else .write

variable (kq : Kqueue) (fd : Int) (mask : Mask) (f : Filter) (note : Int × Filter)

theorem Mask.wants_iff : mask.wants f = true ↔ mask.bits &&& f.bit ≠ 0 :=
  decide_eq_true_iff

theorem Mask.wants_filter : mask.wants mask.filter = true := by
  obtain ⟨bits, rfl | rfl | rfl⟩ := mask <;> decide

theorem Mask.wants_write_of_not_read {mask : Mask} (off : mask.wants .read = false) : mask.wants .write = true := by
  have := mask.wants_filter
  simpa [Mask.filter, off] using this

theorem mem_kevent_add :
    note ∈ (kevent kq ⟨fd, f, evAdd ||| evEnable⟩).1.notes ↔ note = (fd, f) ∨ note ∈ kq.notes := by
  have flags : (evAdd ||| evEnable) &&& evDelete = 0 ∧ (evAdd ||| evEnable) &&& evAdd ≠ 0 := by decide
  simp only [kevent, flags.1, ne_eq, not_true_eq_false, if_false, flags.2, not_false_eq_true, if_true, mem_insert_iff]

theorem mem_kevent_delete : note ∈ (kevent kq ⟨fd, f, evDelete⟩).1.notes ↔ note ≠ (fd, f) ∧ note ∈ kq.notes := by
  have flags : evDelete &&& evDelete ≠ 0 := by decide
  simp only [kevent, flags, if_true, ne_eq, not_false_eq_true]
  split
  · exact kq.nodup.mem_erase_iff
  · rename_i absent
    constructor
    · intro member
      exact ⟨fun same => absent (same ▸ member), member⟩
    · exact And.right

/-- ADD and MOD are the same to the port. -/
theorem mem_register {op : Int} (registers : op = epollCtlAdd ∨ op = epollCtlMod) (fd : Int) (i : Interest)
    (note : Int × Filter) :
    note ∈ (epollCtl kq op fd (i.event fd)).1.notes ↔ note = (fd, i.mask.filter) ∨ note ∈ kq.notes := by
  rw [epollCtl, if_pos registers]
  by_cases reads : i.mask.wants .read = true
  · have bit : (i.event fd).events &&& epollIn ≠ 0 := (i.mask.wants_iff .read).mp reads
    rw [if_pos bit, mem_kevent_add, Mask.filter, if_pos reads]
  · have bit : ¬(i.event fd).events &&& epollIn ≠ 0 := mt (i.mask.wants_iff .read).mpr reads
    have bit' : (i.event fd).events &&& epollOut ≠ 0 :=
      (i.mask.wants_iff .write).mp (Mask.wants_write_of_not_read (by simpa using reads))
    rw [if_neg bit, if_pos bit', mem_kevent_add, Mask.filter, if_neg reads]

theorem mem_unregister (event : EpollEvent) (note : Int × Filter) :
    note ∈ (epollCtl kq epollCtlDel fd event).1.notes ↔ note.1 ≠ fd ∧ note ∈ kq.notes := by
  have op : ¬(epollCtlDel = epollCtlAdd ∨ epollCtlDel = epollCtlMod) := by decide
  rw [epollCtl, if_neg op, if_pos rfl, mem_kevent_delete, mem_kevent_delete]
  obtain ⟨fd', f⟩ := note
  cases f <;> simp

/-- What the kqueue holds: each filter that some mask since the last DEL led to. -/
theorem registered_iff (history : List Request) (fd : Int) (f : Filter) :
    (fd, f) ∈ (run history).notes ↔ ∃ i ∈ given fd history, i.mask.filter = f := by
  induction history using List.reverseRecOn with
  | nil => simp [run, given]
  | append_singleton history r ih =>
    have step : run (history ++ [r]) = r.apply (run history) := by simp [run]
    rw [step]
    cases r with
    | add fd' i =>
      rw [Request.apply, mem_register _ (Or.inl rfl), ih]
      by_cases same : fd' = fd
      · simp [given, same, eq_comm]
      · simp [given, same, Ne.symm same]
    | mod fd' i =>
      rw [Request.apply, mem_register _ (Or.inr rfl), ih]
      by_cases same : fd' = fd
      · simp [given, same, eq_comm]
      · simp [given, same, Ne.symm same]
    | del fd' =>
      rw [Request.apply, mem_unregister, ih]
      by_cases same : fd' = fd
      · simp [given, same]
      · simp [given, same, Ne.symm same]

/-! ## What is reported -/

section Wait

variable {history : List Request} {ready : Readiness} {kev : List Kevent} {events : List EpollEvent}

variable {k : Kevent}

theorem mem_poll_iff {kq : Kqueue} :
    k ∈ kq.poll ready ↔ (k.ident, k.filter) ∈ kq.notes ∧ ready k.ident k.filter = some k.flags := by
  simp only [Kqueue.poll, mem_filterMap, Option.map_eq_some_iff, Prod.exists]
  constructor
  · rintro ⟨fd, f, member, flags, found, rfl⟩
    exact ⟨member, found⟩
  · rintro ⟨member, found⟩
    exact ⟨k.ident, k.filter, member, k.flags, found, rfl⟩

theorem poll_nodup (kq : Kqueue) : (kq.poll ready).Nodup := by
  refine kq.nodup.filterMap fun a b k ha hb => ?_
  simp only [Option.mem_def, Option.map_eq_some_iff] at ha hb
  obtain ⟨_, -, rfl⟩ := ha
  obtain ⟨_, -, same⟩ := hb
  simp only [Kevent.mk.injEq] at same
  exact Prod.ext same.1.symm same.2.1.symm

theorem EpollEvent.has_iff (e : EpollEvent) (f : Filter) : e.has f = true ↔ e.events &&& f.bit ≠ 0 :=
  decide_eq_true_iff

/-- An event has the bit of the one filter it was reported for. -/
theorem fillEvent_has (k : Kevent) (old : EpollEvent) (f : Filter) :
    (fillEvent k old).has f = true ↔ f = k.filter := by
  obtain ⟨ident, filter, flags⟩ := k
  rw [EpollEvent.has_iff, fillEvent]
  dsimp only
  split_ifs <;> cases filter <;> cases f <;> first | contradiction | decide +revert

theorem of_mem_epollWait {e : EpollEvent} (member : e ∈ epollWait kev events) :
    ∃ k ∈ kev, ∃ old, e = fillEvent k old := by
  induction kev generalizing events with
  | nil => simp [epollWait] at member
  | cons k kev ih =>
    cases events with
    | nil => simp [epollWait] at member
    | cons old events =>
      rcases mem_cons.mp member with rfl | member
      · exact ⟨k, by simp, old, rfl⟩
      · obtain ⟨k', hk', made⟩ := ih member
        exact ⟨k', by simp [hk'], made⟩

theorem mem_epollWait (member : k ∈ kev) (room : kev.length ≤ events.length) :
    ∃ old ∈ events, fillEvent k old ∈ epollWait kev events := by
  induction kev generalizing events with
  | nil => simp at member
  | cons k' kev ih =>
    cases events with
    | nil => simp at room
    | cons old events =>
      rcases mem_cons.mp member with rfl | member
      · exact ⟨old, by simp, by simp [epollWait]⟩
      · obtain ⟨old', hold', inside⟩ := ih member (by simpa using room)
        exact ⟨old', by simp [hold'], mem_cons_of_mem _ inside⟩

theorem map_fd_epollWait (room : kev.length ≤ events.length) :
    (epollWait kev events).map EpollEvent.fd = kev.map Kevent.ident := by
  induction kev generalizing events with
  | nil => rfl
  | cons k kev ih =>
    cases events with
    | nil => simp at room
    | cons old events =>
      have rest : (epollWait kev events).map EpollEvent.fd = _ := ih (by simpa using room)
      simpa [epollWait, fillEvent] using rest

/-- The pairs the kqueue reports, by the history. -/
theorem mem_poll_run_iff : k ∈ (run history).poll ready ↔ (∃ i ∈ given k.ident history, i.mask.filter = k.filter) ∧
      ready k.ident k.filter = some k.flags := by
  rw [mem_poll_iff, registered_iff]

end Wait

/-- Nothing is ready that a filter is registered for, or that is of interest. -/
def Quiet (history : List Request) (ready : Readiness) : Prop :=
  ∀ fd f, (ready fd f).isSome → (∀ i ∈ given fd history, i.mask.filter ≠ f) ∧
    ∀ i, latest history fd = some i → i.mask.wants f = false

/-- For what is ready, the registered filters are those of interest, and no
descriptor has both of them. -/
def Matching (history : List Request) (ready : Readiness) : Prop :=
  ∀ fd f, (ready fd f).isSome →
    ((∃ i ∈ given fd history, i.mask.filter = f) ↔
      ∃ i, latest history fd = some i ∧ i.mask.wants f = true) ∧
    ((∃ i ∈ given fd history, i.mask.filter = f) → ∀ f', (ready fd f').isSome →
      (∃ i ∈ given fd history, i.mask.filter = f') → f' = f)

section Correct

variable {history : List Request} {ready : Readiness}

variable {kev : List Kevent} {events : List EpollEvent}

theorem reported_of_matching (matching : Matching history ready) (same : kev.Perm ((run history).poll ready))
    (room : kev.length ≤ events.length) : Reported (latest history) ready (epollWait kev events) := by
  have reported : ∀ k ∈ kev, (∃ i ∈ given k.ident history, i.mask.filter = k.filter) ∧
      (ready k.ident k.filter).isSome := by
    intro k hk
    obtain ⟨registered, found⟩ := mem_poll_run_iff.mp (same.mem_iff.mp hk)
    exact ⟨registered, by simp [found]⟩
  refine ⟨?_, fun fd i current due => ?_, fun e he => ?_⟩
  · rw [map_fd_epollWait room]
    refine ((same.nodup_iff.mpr (poll_nodup _))).map_on fun k hk k' hk' ident => ?_
    obtain ⟨registered, isReady⟩ := reported k hk
    obtain ⟨registered', isReady'⟩ := reported k' hk'
    rw [← ident] at registered' isReady'
    have filter := (matching _ _ isReady).2 registered _ isReady' registered'
    have flags := (mem_poll_run_iff.mp (same.mem_iff.mp hk)).2
    have flags' := (mem_poll_run_iff.mp (same.mem_iff.mp hk')).2
    obtain ⟨_, _, _⟩ := k
    obtain ⟨_, _, _⟩ := k'
    simp_all
  · obtain ⟨f, wanted, isReady⟩ := due
    obtain ⟨flags, found⟩ := Option.isSome_iff_exists.mp isReady
    have registered := (matching fd f isReady).1.mpr ⟨i, current, wanted⟩
    have member : (⟨fd, f, flags⟩ : Kevent) ∈ kev := same.mem_iff.mpr (mem_poll_run_iff.mpr ⟨registered, found⟩)
    obtain ⟨old, -, inside⟩ := mem_epollWait member room
    exact ⟨_, inside, rfl⟩
  · obtain ⟨k, hk, old, rfl⟩ := of_mem_epollWait he
    obtain ⟨registered, isReady⟩ := reported k hk
    obtain ⟨i, current, wanted⟩ := (matching _ _ isReady).1.mp registered
    refine ⟨i, current, ⟨k.filter, wanted, isReady⟩, fun f => ?_⟩
    rw [fillEvent_has]
    constructor
    · rintro rfl
      exact ⟨wanted, isReady⟩
    · rintro ⟨wanted', isReady'⟩
      exact (matching _ _ isReady).2 registered f isReady' ((matching _ _ isReady').1.mpr ⟨i, current, wanted'⟩)

theorem matching_of_reported (reported : ∀ events, ((run history).poll ready).length ≤ events.length →
      Reported (latest history) ready (epollWait ((run history).poll ready) events)) : Matching history ready := by
  set kev := (run history).poll ready with hkev
  set events : List EpollEvent := List.replicate kev.length ⟨0, 0, 0⟩
  have room : kev.length ≤ events.length := by simp [events]
  have right := reported events room
  have wanted : ∀ fd f, (ready fd f).isSome → (∃ i ∈ given fd history, i.mask.filter = f) →
      ∃ i, latest history fd = some i ∧ i.mask.wants f = true ∧
        ∀ f', i.mask.wants f' = true → (ready fd f').isSome → f' = f := by
    intro fd f isReady registered
    obtain ⟨flags, found⟩ := Option.isSome_iff_exists.mp isReady
    have member : (⟨fd, f, flags⟩ : Kevent) ∈ kev := mem_poll_run_iff.mpr ⟨registered, found⟩
    obtain ⟨old, -, inside⟩ := mem_epollWait member room
    obtain ⟨i, current, -, bits⟩ := right.bits _ inside
    simp only [fillEvent_has] at bits
    exact ⟨i, current, ((bits f).mp rfl).1, fun f' w r => (bits f').mpr ⟨w, r⟩⟩
  intro fd f isReady
  refine ⟨⟨fun registered => ?_, ?_⟩, fun registered f' isReady' registered' => ?_⟩
  · obtain ⟨i, current, want, -⟩ := wanted fd f isReady registered
    exact ⟨i, current, want⟩
  · rintro ⟨i, current, want⟩
    obtain ⟨e, he, rfl⟩ := right.due fd i current ⟨f, want, isReady⟩
    obtain ⟨i', current', -, bits⟩ := right.bits e he
    obtain rfl : i = i' := Option.some.inj (current.symm.trans current')
    have has := (bits f).mpr ⟨want, isReady⟩
    obtain ⟨k, hk, old, rfl⟩ := of_mem_epollWait he
    rw [fillEvent_has] at has
    subst has
    exact (mem_poll_run_iff.mp hk).1
  · obtain ⟨i, current, -, only⟩ := wanted fd f isReady registered
    obtain ⟨i', current', want', -⟩ := wanted fd f' isReady' registered'
    obtain rfl : i = i' := Option.some.inj (current.symm.trans current')
    exact only f' want' isReady'

/-- With nothing reported and nothing due, there is nothing to get wrong. -/
theorem correct_of_quiet (quiet : Quiet history ready) (same : kev.Perm ((run history).poll ready)) :
    Reported (latest history) ready (epollWait kev events) ∧ CarriesData (latest history) (epollWait kev events) := by
  have empty : kev = [] := by
    refine eq_nil_iff_forall_not_mem.mpr fun k hk => ?_
    obtain ⟨⟨i, hi, filter⟩, found⟩ := mem_poll_run_iff.mp (same.mem_iff.mp hk)
    exact (quiet k.ident k.filter (by simp [found])).1 i hi filter
  subst empty
  refine ⟨⟨nodup_nil, fun fd i current due => ?_, by simp [epollWait]⟩, by simp [CarriesData, epollWait]⟩
  obtain ⟨f, wanted, isReady⟩ := due
  have := (quiet fd f isReady).2 i current
  simp [wanted] at this

/-- Whatever is reported, the array may have held another value. -/
theorem quiet_of_correct (correct : ∀ events, ((run history).poll ready).length ≤ events.length →
      Reported (latest history) ready (epollWait ((run history).poll ready) events) ∧
        CarriesData (latest history) (epollWait ((run history).poll ready) events)) : Quiet history ready := by
  have matching := matching_of_reported fun events room => (correct events room).1
  have silent : ∀ fd f, (ready fd f).isSome → ¬ ∃ i ∈ given fd history, i.mask.filter = f := by
    intro fd f isReady registered
    obtain ⟨i, current, -⟩ := (matching fd f isReady).1.mp registered
    obtain ⟨flags, found⟩ := Option.isSome_iff_exists.mp isReady
    set kev := (run history).poll ready
    set events : List EpollEvent := List.replicate kev.length ⟨0, 0, i.data + 1⟩
    have room : kev.length ≤ events.length := by simp [events]
    have member : (⟨fd, f, flags⟩ : Kevent) ∈ kev := mem_poll_run_iff.mpr ⟨registered, found⟩
    obtain ⟨old, hold, inside⟩ := mem_epollWait member room
    have data := (correct events room).2 _ inside i current
    rw [eq_of_mem_replicate hold] at data
    simp [fillEvent] at data
  intro fd f isReady
  refine ⟨fun i hi filter => silent fd f isReady ⟨i, hi, filter⟩, fun i current => ?_⟩
  by_contra wanted
  exact silent fd f isReady ((matching fd f isReady).1.mpr ⟨i, current, by simpa using wanted⟩)

end Correct

/-- **What `epoll_wait()` gets right.**  Its events are right exactly if there are none and none are
due; without the data, exactly if the filters registered for what is ready match the latest
masks and no descriptor is ready for both. -/
theorem epollWait_correct_iff (history : List Request) (ready : Readiness) :
    ((∀ kev events, kev.Perm ((run history).poll ready) → kev.length ≤ events.length →
        Reported (latest history) ready (epollWait kev events) ∧
          CarriesData (latest history) (epollWait kev events)) ↔ Quiet history ready) ∧
    ((∀ kev events, kev.Perm ((run history).poll ready) → kev.length ≤ events.length →
        Reported (latest history) ready (epollWait kev events)) ↔ Matching history ready) := by
  refine ⟨⟨fun correct => ?_, fun quiet kev events same _ => correct_of_quiet quiet same⟩,
    ⟨fun reported => ?_, fun matching kev events same room => reported_of_matching matching same room⟩⟩
  · exact quiet_of_correct fun events room => correct _ events (List.Perm.refl _) room
  · exact matching_of_reported fun events room => reported _ events (List.Perm.refl _) room

def inMask : Mask := ⟨epollIn, Or.inl rfl⟩

def inOutMask : Mask := ⟨epollIn ||| epollOut, Or.inr (Or.inr rfl)⟩

/-- After an ADD with EPOLLIN and EPOLLOUT a writable descriptor is not reported; after one with
EPOLLIN a readable one is, with the data that happened to be in the array. -/
theorem epollWait_misreports :
    (∃ history ready kev events, kev.Perm ((run history).poll ready) ∧ kev.length ≤ events.length ∧
      ¬ Reported (latest history) ready (epollWait kev events)) ∧
    ∃ history ready kev events, kev.Perm ((run history).poll ready) ∧ kev.length ≤ events.length ∧
      ¬ CarriesData (latest history) (epollWait kev events) := by
  constructor
  · refine ⟨[.add 3 ⟨inOutMask, 7⟩], fun _ f => if f = .write then some 0 else none, [],
      [⟨0, 0, 0⟩], by decide, by decide, fun reported => ?_⟩
    obtain ⟨e, member, -⟩ := reported.due 3 ⟨inOutMask, 7⟩ rfl ⟨.write, by decide, rfl⟩
    simp [epollWait] at member
  · refine ⟨[.add 3 ⟨inMask, 7⟩], fun _ f => if f = .read then some 0 else none, [⟨3, .read, 0⟩],
      [⟨0, 0, 0⟩], by decide, by decide, fun carries => ?_⟩
    have data := carries (fillEvent ⟨3, .read, 0⟩ ⟨0, 0, 0⟩) (by simp [epollWait]) ⟨inMask, 7⟩ rfl
    exact absurd data (by decide)

end SystemdPort.Compat
