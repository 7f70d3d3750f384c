/-
# Shared.BarrierRuns — runs of two sides that use a barrier

What holds of every run: a call that waits gives up only for a reason, `sync` succeeds only
if the other side is as far, and a wait whose end has come is over after a few system calls
of its own, whatever the other side does in the meantime.
-/
import SystemdPort.Shared.BarrierSafe

namespace SystemdPort.Shared.Barrier

open Lib

set_option autoImplicit false

variable {s s' : State} {i : Side} {a : Action} {r : Option (Call × Bool)}

theorem next_moves {j : Side} {result : Option (Side × Call × Bool)} (stepped : s.next (j, a) = some (s', result)) :
    ∃ r, (s.process j).exited = false ∧ Moves s j (s.process j) a s' r ∧ result = r.map fun returned => (j, returned) := by
  simp only [State.next, Option.map_eq_some_iff, Prod.exists] at stepped
  obtain ⟨s₁, r, stepped, rfl, rfl⟩ := stepped
  obtain ⟨running, moves⟩ := step_moves stepped
  exact ⟨r, running, moves, rfl⟩

theorem small_back (s : State) (act : Side × Action) (s' : State) (result : Option (Side × Call × Bool))
    (stepped : s.next act = some (s', result)) (small : Small s') : Small s := by
  obtain ⟨r, -, moves, -⟩ := next_moves stepped
  exact small.before moves

variable {results : List (Side × Call × Bool)} {data hangup : Bool}

theorem inv_run {schedule : List (Side × Action)} (ran : run State.next {} schedule = some (s, results))
    (small : Small s) : Inv s := by
  refine run_invariant_back small_back ?_ inv_init ran small
  intro s act s' result inv stepped small
  obtain ⟨r, -, moves, -⟩ := next_moves stepped
  exact inv.step moves small

/-! ## The end of a wait -/

/-- The process is in a call that waits for the count to get down to `comp`. -/
def Waiting (b : Process) (c : Call) (comp : Int) : Prop :=
  b.pc = .poll c comp ∨ ∃ data hangup, b.pc = .polled c comp data hangup

/-- The other side has placed enough, or aborted. -/
def Enough (b o : Process) (comp : Int) : Prop := (b.placed : Int) - o.placed ≤ comp ∨ o.aborted = true

instance (b o : Process) (comp : Int) : Decidable (Enough b o comp) :=
  inferInstanceAs (Decidable (_ ∨ _))

section Process

variable {b b' o o' : Process} {n : Nat} {c : Call} {comp : Int}

theorem waits_of_waiting (waiting : Waiting b c comp) (ok : PcOk b o n) : Waits b c comp := by
  rcases waiting with pc | ⟨data, hangup, pc⟩
  · exact waits_of_poll ok pc
  · exact (waits_of_polled ok pc).1

/-- All that the counter holds is enough. -/
theorem Enough.ends (enough : Enough b o comp) (view : View b o n) (waits : Waits b c comp)
    (small : o.placed ≤ limit) (mySmall : b.placed ≤ limit) : ¬comp < (b.noted n).barriers := by
  by_cases isAbortion : abortion ≤ n
  · exact not_more_of_abortion waits isAbortion
  obtain ⟨notAborted, cases⟩ := view.noted_count small mySmall waits.notThey (by omega)
  have placed : (b.placed : Int) - o.placed ≤ comp := by
    rcases enough with placed | aborted
    · exact placed
    · rw [notAborted] at aborted
      cases aborted
  rcases cases with ⟨aborted, -⟩ | ⟨normal, same, -⟩
  · rcases waits.kind with ⟨-, rfl⟩ | ⟨-, normal⟩
    · unfold theyAborted at placed
      unfold limit at small
      omega
    · rw [aborted] at normal
      cases normal
  · rw [same]
    have := view.count normal notAborted
    show ¬comp < b.barriers - n
    omega

theorem Enough.unread (enough : Enough b o comp) (view : View b o n) (waits : Waits b c comp)
    (small : o.placed ≤ limit) (mySmall : b.placed ≤ limit) : 0 < n := by
  by_contra nothing
  obtain rfl : n = 0 := by omega
  have ends := enough.ends view waits small mySmall
  have same : (b.noted 0).barriers = b.barriers := by
    obtain ⟨-, ⟨-, same⟩ | ⟨-, same, -⟩⟩ := view.noted_count small mySmall waits.notThey (by decide)
    · rw [same]
    · rw [same]
      simp
  rw [same] at ends
  exact ends waits.more

theorem Enough.mono (enough : Enough b o comp) (placed : o.placed ≤ o'.placed)
    (aborted : o.aborted = true → o'.aborted = true) : Enough b o' comp := by
  rcases enough with enough | isAborted
  · exact .inl (by omega)
  · exact .inr (aborted isAborted)

end Process

/-- A wait whose end has come. -/
structure Ends (s : State) (i : Side) (c : Call) (comp : Int) : Prop where
  waiting : Waiting (s.process i) c comp
  reason : Enough (s.process i) (s.process i.other) comp ∨ (s.process i.other).exited = true

/-- The system calls that bring a wait on. -/
def progress (i : Side) (act : Side × Action) : Bool :=
  act.1 = i ∧ (act.2 = .poll ∨ act.2 = .read ∨ act.2 = .hangup)

/-- A `read()` that has to be tried again. -/
def again (i : Side) (act : Side × Action) : Bool := act.1 = i ∧ act.2 = .readAgain

variable {c : Call} {comp : Int}

/-- The process is not blocked. -/
theorem Ends.enabled (ends : Ends s i c comp) (inv : Inv s) (small : Small s) (running : (s.process i).exited = false) :
    ∃ a, progress i (i, a) = true ∧ (s.next (i, a)).isSome = true := by
  have view := inv i
  have waits := waits_of_waiting ends.waiting view.pc
  rcases ends.waiting with pc | ⟨data, hangup, pc⟩
  · have ready : 0 < s.counter i.other ∨ s.hungUp i = true := by
      rcases ends.reason with enough | exited
      · exact .inl (enough.unread view waits (small _) (small _))
      · exact .inr (by simp [State.hungUp, exited])
    refine ⟨.poll, by simp [progress], ?_⟩
    simp [State.next, State.step, running, pc, ready]
  · obtain ⟨-, seen, unread, -⟩ := waits_of_polled view.pc pc
    cases data with
    | true =>
      refine ⟨.read, by simp [progress], ?_⟩
      simp [State.next, State.step, running, pc, unread rfl]
    | false =>
      obtain rfl : hangup = true := by simpa using seen
      refine ⟨.hangup, by simp [progress], ?_⟩
      simp [State.next, State.step, running, pc]

/-- Reads up to the end: what is unread may not be enough if the other side is gone. -/
def rounds (s : State) (i : Side) (comp : Int) : Nat :=
  if Enough (s.process i) (s.process i.other) comp ∨ s.counter i.other = 0 then 1 else 2

/-- System calls up to the end. -/
def rank (i : Side) (comp : Int) (s : State) : Nat :=
  if (s.process i).exited then 0
  else
    match (s.process i).pc with
    | .polled _ _ _ _ => 2 * rounds s i comp - 1
    | _ => 2 * rounds s i comp

theorem rounds_pos (s : State) (i : Side) (comp : Int) : 1 ≤ rounds s i comp := by
  unfold rounds
  split <;> omega

theorem rounds_le (s : State) (i : Side) (comp : Int) : rounds s i comp ≤ 2 := by
  unfold rounds
  split <;> omega

theorem rank_le : rank i comp s ≤ 4 := by
  have := rounds_le s i comp
  unfold rank
  split
  · omega
  · split <;> omega

theorem rank_pos (running : (s.process i).exited = false) : 1 ≤ rank i comp s := by
  have := rounds_pos s i comp
  unfold rank
  rw [if_neg (by simp [running])]
  split <;> omega

theorem rank_poll (running : (s.process i).exited = false) (pc : (s.process i).pc = .poll c comp) :
    rank i comp s = 2 * rounds s i comp := by
  simp [rank, running, pc]

theorem rank_polled (running : (s.process i).exited = false) (pc : (s.process i).pc = .polled c comp data hangup) :
    rank i comp s = 2 * rounds s i comp - 1 := by
  simp [rank, running, pc]

theorem rounds_congr (placed : (s'.process i).placed = (s.process i).placed)
    (other : s'.process i.other = s.process i.other) (counter : s'.counter i.other = s.counter i.other) :
    rounds s' i comp = rounds s i comp := by
  have enough : Enough (s'.process i) (s'.process i.other) comp ↔ Enough (s.process i) (s.process i.other) comp := by
    simp [Enough, placed, other]
  simp [rounds, enough, counter]

section

variable (ends : Ends s i c comp)

include ends

theorem Ends.at_pc (waiting : Waiting (s'.process i) c comp) (placed : (s'.process i).placed = (s.process i).placed)
    (other : s'.process i.other = s.process i.other) : Ends s' i c comp := by
  refine ⟨waiting, ?_⟩
  simpa only [Enough, placed, other] using ends.reason

theorem Ends.afterPoll (running : (s.process i).exited = false) (pc : (s.process i).pc = .poll c comp)
    (poll : s' = s.setProcess i { s.process i with pc := .polled c comp data hangup }) :
    (s'.process i).exited = false ∧ Ends s' i c comp ∧ rank i comp s' + 1 ≤ rank i comp s := by
  have pc' : (s'.process i).pc = .polled c comp data hangup := by simp [poll]
  have running' : (s'.process i).exited = false := by simpa [poll] using running
  have placed : (s'.process i).placed = (s.process i).placed := by simp [poll]
  have other : s'.process i.other = s.process i.other := by simp [poll]
  have rounds_eq : rounds s' i comp = rounds s i comp := rounds_congr placed other (by rw [poll]; rfl)
  refine ⟨running', ends.at_pc (.inr ⟨data, hangup, pc'⟩) placed other, ?_⟩
  have := rounds_pos s i comp
  rw [rank_polled running' pc', rank_poll running pc]
  omega

theorem Ends.afterReadAgain (running : (s.process i).exited = false) (waits : Waits (s.process i) c comp)
    (pc : (s.process i).pc = .polled c comp data hangup) (loop : s' = s.setProcess i ((s.process i).loop c comp).1) :
    (s'.process i).exited = false ∧ Ends s' i c comp ∧ rank i comp s' ≤ rank i comp s + 1 := by
  rw [Process.loop, if_pos waits.more] at loop
  have pc' : (s'.process i).pc = .poll c comp := by simp [loop]
  have running' : (s'.process i).exited = false := by simpa [loop] using running
  have placed : (s'.process i).placed = (s.process i).placed := by simp [loop]
  have other : s'.process i.other = s.process i.other := by simp [loop]
  have rounds_eq : rounds s' i comp = rounds s i comp := rounds_congr placed other (by rw [loop]; rfl)
  refine ⟨running', ends.at_pc (.inl pc') placed other, ?_⟩
  rw [rank_poll running' pc', rank_polled running pc]
  omega

/-- A read that is not enough leaves nothing unread, and the other side does not come back. -/
theorem Ends.afterRead (inv : Inv s) (small : Small s) (running : (s.process i).exited = false)
    (waits : Waits (s.process i) c comp) (pc : (s.process i).pc = .polled c comp data hangup)
    (unread : 0 < s.counter i.other) (more : comp < ((s.process i).noted (s.counter i.other)).barriers)
    (loop : s' = (s.setCounter i.other 0).setProcess i (((s.process i).noted (s.counter i.other)).loop c comp).1) :
    (s'.process i).exited = false ∧ Ends s' i c comp ∧ rank i comp s' + 1 ≤ rank i comp s := by
  have notEnough : ¬Enough (s.process i) (s.process i.other) comp := by
    intro enough
    exact enough.ends (inv i) waits (small _) (small _) more
  have kept : Kept (s.process i) (((s.process i).noted (s.counter i.other)).loop c comp).1 := kept_noted_loop _
  have exited : (((s.process i).noted (s.counter i.other)).loop c comp).1.exited = (s.process i).exited := by
    rw [Process.loop, if_pos more]
    unfold Process.noted
    split <;> rfl
  have pc' : (s'.process i).pc = .poll c comp := by
    rw [loop, Process.loop, if_pos more]
    simp
  have running' : (s'.process i).exited = false := by
    rwa [loop, State.setProcess_process, exited]
  have placed : (s'.process i).placed = (s.process i).placed := by
    rw [loop, State.setProcess_process]
    exact kept.placed
  have other : s'.process i.other = s.process i.other := by simp [loop]
  have drained : s'.counter i.other = 0 := by simp [loop]
  refine ⟨running', ends.at_pc (.inl pc') placed other, ?_⟩
  have one : rounds s' i comp = 1 := if_pos (.inr drained)
  have two : rounds s i comp = 2 := if_neg (by
    rintro (enough | nothing)
    · exact notEnough enough
    · omega)
  rw [rank_poll running' pc', rank_polled running pc, one, two]

theorem Ends.ownStep (inv : Inv s) (small : Small s) (running : (s.process i).exited = false)
    (moves : Moves s i (s.process i) a s' r) :
    (∃ ok, r = some (c, ok)) ∨ ((s'.process i).exited = true ∧ progress i (i, a) = false) ∨
      ((s'.process i).exited = false ∧ Ends s' i c comp ∧ rank i comp s' + (if progress i (i, a) then 1 else 0) ≤
        rank i comp s + (if again i (i, a) then 1 else 0)) := by
  have view := inv i
  have waits := waits_of_waiting ends.waiting view.pc
  have elsewhere {pc : Pc} (at_pc : (s.process i).pc = pc) (notPoll : pc ≠ .poll c comp)
      (notPolled : ∀ data hangup, pc ≠ .polled c comp data hangup) : False := by
    rcases ends.waiting with poll | ⟨data, hangup, polled⟩
    · exact notPoll (at_pc.symm.trans poll)
    · exact notPolled data hangup (at_pc.symm.trans polled)
  have same_poll {d : Call} {comp' : Int} (pc : (s.process i).pc = .poll d comp') : d = c ∧ comp' = comp := by
    rcases ends.waiting with poll | ⟨data, hangup, polled⟩
    · simpa using pc.symm.trans poll
    · cases pc.symm.trans polled
  have same_polled {d : Call} {comp' : Int} {data hangup : Bool} (pc : (s.process i).pc = .polled d comp' data hangup) :
      d = c ∧ comp' = comp := by
    rcases ends.waiting with poll | ⟨data, hangup, polled⟩
    · cases pc.symm.trans poll
    · have := pc.symm.trans polled
      simp only [Pc.polled.injEq] at this
      exact ⟨this.1, this.2.1⟩
  cases moves with
  | exit => exact .inr (.inl ⟨by simp, by simp [progress]⟩)
  | call pc => exact (elsewhere pc (by simp) (by simp)).elim
  | write pc => exact (elsewhere pc (by simp) (by simp)).elim
  | writeAgain pc => exact (elsewhere pc (by simp) (by simp)).elim
  | writeFailed pc => exact (elsewhere pc (by simp) (by simp)).elim
  | pollFailed pc =>
    obtain ⟨rfl, rfl⟩ := same_poll pc
    exact .inl ⟨_, rfl⟩
  | readFailed pc =>
    obtain ⟨rfl, rfl⟩ := same_polled pc
    exact .inl ⟨_, rfl⟩
  | pollInterrupted => exact .inr (.inr ⟨running, ends, by simp [progress]⟩)
  | poll pc ready =>
    obtain ⟨rfl, rfl⟩ := same_poll pc
    obtain ⟨running', ends', less⟩ := ends.afterPoll running pc rfl
    exact .inr (.inr ⟨running', ends', by simpa [progress, again] using less⟩)
  | @read d comp' hangup pc unread =>
    obtain ⟨rfl, rfl⟩ := same_polled pc
    by_cases more : comp' < ((s.process i).noted (s.counter i.other)).barriers
    · obtain ⟨running', ends', less⟩ := ends.afterRead inv small running waits pc unread more rfl
      exact .inr (.inr ⟨running', ends', by simpa [progress, again] using less⟩)
    · refine .inl ⟨((s.process i).noted (s.counter i.other)).result d, ?_⟩
      rw [Process.loop, if_neg more]
      rfl
  | readAgain pc =>
    obtain ⟨rfl, rfl⟩ := same_polled pc
    obtain ⟨running', ends', less⟩ := ends.afterReadAgain running waits pc rfl
    exact .inr (.inr ⟨running', ends', by simpa [progress, again] using less⟩)
  | @hangup d comp' pc =>
    obtain ⟨rfl, rfl⟩ := same_polled pc
    have enough := not_more_of_abortion waits le_rfl
    refine .inl ⟨((s.process i).noted abortion).result d, ?_⟩
    rw [Process.loop, if_neg enough]
    rfl

end

/-- An abortion is not taken back. -/
theorem aborted_stays (moves : Moves s i (s.process i) a s' r) (aborted : (s.process i).aborted = true) :
    (s'.process i).aborted = true := by
  cases moves with
  | exit | poll => simpa using aborted
  | writeFailed | pollFailed | readFailed => simpa using (kept_fatal _).aborted.trans aborted
  | writeAgain | pollInterrupted => exact aborted
  | call => simpa using (kept_start _).aborted.trans aborted
  | @write c buf pc fits =>
    rw [State.setProcess_process]
    unfold Process.written
    split
    · rfl
    · exact aborted
  | read | hangup => simpa using (kept_noted_loop _).aborted.trans aborted
  | readAgain => simpa using kept_loop.aborted.trans aborted

theorem other_process (moves : Moves s i (s.process i) a s' r) : s'.process i.other = s.process i.other := by
  cases moves <;> simp

theorem Ends.otherStep (ends : Ends s i c comp) (running : (s.process i.other).exited = false)
    (moves : Moves s i.other (s.process i.other) a s' r) : Ends s' i c comp ∧ rank i comp s' ≤ rank i comp s := by
  have same : s'.process i = s.process i := by simpa using other_process moves
  have enough : Enough (s.process i) (s.process i.other) comp := by
    rcases ends.reason with enough | exited
    · exact enough
    · rw [running] at exited
      cases exited
  have enough' : Enough (s'.process i) (s'.process i.other) comp := by
    rw [same]
    exact enough.mono (placed_le moves i.other) (aborted_stays moves)
  refine ⟨⟨by rw [same]; exact ends.waiting, .inl enough'⟩, ?_⟩
  have one : rounds s i comp = 1 := if_pos (.inl enough)
  have one' : rounds s' i comp = 1 := if_pos (.inl enough')
  simp [rank, same, one, one']

/-- A wait whose end has come is over soon, unless the process exits. -/
theorem Ends.run (ends : Ends s i c comp) (inv : Inv s)
    {more : List (Side × Action)} (ran : Lib.run State.next s more = some (s', results)) (small : Small s') :
    (∃ ok, (i, c, ok) ∈ results) ∨ (s'.process i).exited = true ∨
      (Ends s' i c comp ∧ more.countP (progress i) < 4 + more.countP (again i)) := by
  have bounded := run_rank (I := fun s => Inv s ∧ ((s.process i).exited = true ∨ Ends s i c comp))
    (rank i comp) (progress i) (again i) (fun returned => ∃ ok, returned = (i, c, ok)) small_back ?_
    ⟨inv, .inr ends⟩ ran small
  · rcases bounded with ⟨_, member, ok, rfl⟩ | ⟨⟨-, exited | ends'⟩, less⟩
    · exact .inl ⟨ok, member⟩
    · exact .inr (.inl exited)
    · by_cases exited : (s'.process i).exited = true
      · exact .inr (.inl exited)
      · have pos : 1 ≤ rank i comp s' := rank_pos (by simpa using exited)
        have le : rank i comp s ≤ 4 := rank_le
        exact .inr (.inr ⟨ends', by omega⟩)
  · rintro s ⟨j, a⟩ s' result ⟨inv, state⟩ stepped small
    obtain ⟨r, active, moves, rfl⟩ := next_moves stepped
    have inv' := inv.step moves small
    have small₀ := small.before moves
    rcases Side.eq_or_other i j with rfl | rfl
    · have ends : Ends s j c comp := by
        rcases state with exited | ends
        · rw [active] at exited
          cases exited
        · exact ends
      rcases ends.ownStep inv small₀ active moves with ⟨ok, rfl⟩ | ⟨exited, noProgress⟩ | ⟨-, ends', less⟩
      · exact .inl ⟨_, rfl, ok, rfl⟩
      · refine .inr ⟨⟨inv', .inl exited⟩, ?_⟩
        simp [rank, exited, noProgress]
      · exact .inr ⟨⟨inv', .inr ends'⟩, less⟩
    · have noProgress : progress i (i.other, a) = false := by simp [progress]
      refine .inr ⟨?_, ?_⟩
      · rcases state with exited | ends
        · have same : s'.process i = s.process i := by simpa using other_process moves
          exact ⟨inv', .inl (by rw [same]; exact exited)⟩
        · exact ⟨inv', .inr (ends.otherStep active moves).1⟩
      · rw [noProgress]
        rcases state with exited | ends
        · have same : s'.process i = s.process i := by simpa using other_process moves
          simp [rank, same, exited]
        · have := (ends.otherStep active moves).2
          simp only [Bool.false_eq_true, if_false]
          omega

/-! ## What a barrier promises -/

/-- In every run of two sides: `sync` returns true only if the other side has placed as many, a wait
returns false only if a side has aborted, exited or had a system call fail, and it ends once
the other side has placed enough, aborted or exited. -/
theorem barrier_kept {schedule : List (Side × Action)} {s : State} {results : List (Side × Call × Bool)}
    (ran : run State.next {} schedule = some (s, results)) (small : Small s) :
    (∀ i a s' c ok, s.next (i, a) = some (s', some (i, c, ok)) → Small s' →
      (c = .sync → ok = true → (s'.process i).placed ≤ (s'.process i.other).placed) ∧
      (c.waits = true → ok = false → ∃ j, Broken (s'.process j))) ∧
    ∀ i c comp, Ends s i c comp → (s.process i).exited = false →
      (∃ a, progress i (i, a) = true ∧ (s.next (i, a)).isSome = true) ∧
      ∀ more s' results, run State.next s more = some (s', results) → Small s' →
        (∃ ok, (i, c, ok) ∈ results) ∨ (s'.process i).exited = true ∨
          (Ends s' i c comp ∧ more.countP (progress i) < 4 + more.countP (again i)) := by
  have inv := inv_run ran small
  constructor
  · intro i a s' c ok stepped small'
    obtain ⟨r, -, moves, returned⟩ := next_moves stepped
    obtain ⟨r, rfl, same⟩ := Option.map_eq_some_iff.mp returned.symm
    obtain rfl : r = (c, ok) := by simpa using same
    have inv' := inv.step moves small'
    have answers := moves.answers inv
    refine ⟨fun isSync success => ?_, fun waits refused => inv'.broken (answers.refused waits refused)⟩
    obtain ⟨normal, down⟩ := answers.synced isSync success
    exact inv'.synced normal down
  · intro i c comp ends running
    refine ⟨ends.enabled inv small running, ?_⟩
    intro more s' results ran' small'
    exact ends.run inv ran' small'

/-- The parent waits for a barrier, and the child has placed it. -/
theorem barrier_kept_sync :
    ∃ s results, run State.next {} [(.parent, .call .place), (.parent, .write), (.parent, .call .sync),
        (.child, .call .place), (.child, .write)] = some (s, results) ∧ Small s ∧ Ends s .parent .sync 0 ∧
      (∃ a, progress .parent (.parent, a) = true ∧ (s.next (.parent, a)).isSome = true) := by
  obtain ⟨s, results, ran, small, ends, running⟩ :
      ∃ s results, run State.next {} [(.parent, .call .place), (.parent, .write), (.parent, .call .sync),
        (.child, .call .place), (.child, .write)] = some (s, results) ∧ Small s ∧ Ends s .parent .sync 0 ∧
        (s.process .parent).exited = false := by
    refine ⟨_, _, rfl, ?_, ⟨.inl rfl, .inl (.inl (by decide))⟩, rfl⟩
    intro i
    cases i <;> decide
  exact ⟨s, results, ran, small, ends, ((barrier_kept ran small).2 .parent .sync 0 ends running).1⟩

/-! ## One barrier too many -/

theorem State.ext_sides {s s' : State} (process : ∀ i, s.process i = s'.process i)
    (counter : ∀ i, s.counter i = s'.counter i) : s = s' := by
  obtain ⟨process₁, counter₁⟩ := s
  obtain ⟨process₂, counter₂⟩ := s'
  obtain rfl : process₁ = process₂ := funext process
  obtain rfl : counter₁ = counter₂ := funext counter
  rfl

/-- The child has placed barriers that nobody has waited for. -/
def afterPlacing (n : Nat) : State where
  process
    | .parent => {}
    | .child => { barriers := n, placed := n }
  counter
    | .parent => 0
    | .child => n

theorem place_afterPlacing {n : Nat} (fits : n + 1 < 2 ^ 63) :
    run State.next (afterPlacing n) [(.child, .call .place), (.child, .write)] =
      some (afterPlacing (n + 1), [(.child, .place, true)]) := by
  have normal : ({ barriers := n, placed := n } : Process).isAborted = false :=
    isAborted_eq_false.mpr (not_special (by show _ ≤ (n : Int); unfold limit; omega))
  have same : toInt64 ((n : Int) + (1 : Nat)) = (n + 1 : Nat) := by
    rw [toInt64_of_small (by omega) (by push_cast; omega)]
    rfl
  refine run_cons.mpr ⟨(afterPlacing n).setProcess .child { barriers := n, placed := n, pc := .write .place 1 }, none,
    [(.child, .place, true)], ?_, run_cons.mpr ⟨afterPlacing (n + 1), some (.child, .place, true), [], ?_, rfl, rfl⟩, rfl⟩
  · simp [State.next, State.step, afterPlacing, Process.start, normal]
  · have fits : (afterPlacing n).counter .child + 1 ≤ maxCounter := by
      show n + 1 ≤ maxCounter
      unfold maxCounter
      omega
    have written : ({ barriers := n, placed := n, pc := .write .place 1 } : Process).written 1 =
        { barriers := (n + 1 : Nat), placed := n + 1, pc := .write .place 1 } := by
      rw [Process.written, if_neg (by decide), if_neg (by simpa [Process.isAborted] using normal), ← same]
    have after : (((afterPlacing n).setProcess .child { barriers := n, placed := n, pc := .write .place 1 }).setCounter
        .child ((afterPlacing n).counter .child + 1)).setProcess .child { barriers := (n + 1 : Nat), placed := n + 1 } = afterPlacing (n + 1) := by
      apply State.ext_sides <;> intro i <;> cases i <;> rfl
    simp only [State.next, State.step, State.setProcess_process, State.setProcess_counter, if_pos fits, written,
      Option.map_eq_some_iff]
    exact ⟨_, rfl, by simpa [Process.finish, Process.result] using after⟩

theorem run_afterPlacing (n : Nat) (fits : n < 2 ^ 63) :
    ∃ schedule results, run State.next {} schedule = some (afterPlacing n, results) := by
  induction n with
  | zero =>
    refine ⟨[], [], ?_⟩
    have same : ({} : State) = afterPlacing 0 := State.ext_sides (by intro i; cases i <;> rfl) (by intro i; cases i <;> rfl)
    rw [same]
    rfl
  | succ n ih =>
    obtain ⟨schedule, results, ran⟩ := ih (by omega)
    exact ⟨_, _, run_append ran (place_afterPlacing fits)⟩

/-- The child has placed one barrier more than `limit`, and a `wait_next` of the parent takes
them for an abortion of its own. -/
theorem waitNext_refused :
    ∃ schedule s results, run State.next {} schedule = some (s, results) ∧ (.parent, .waitNext, false) ∈ results ∧
      (s.process .child).placed = limit + 1 ∧ ∀ i, ¬Broken (s.process i) := by
  obtain ⟨schedule, results, ran⟩ := run_afterPlacing (limit + 1) (by decide)
  have waited : ∃ s, run State.next (afterPlacing (limit + 1)) [(.parent, .call .waitNext), (.parent, .poll), (.parent, .read)] =
      some (s, [(.parent, .waitNext, false)]) ∧ (s.process .child).placed = limit + 1 ∧ ∀ i, ¬Broken (s.process i) := by
    refine ⟨_, rfl, rfl, ?_⟩
    intro i
    cases i <;> unfold Broken <;> decide
  obtain ⟨s, ran', placed, unbroken⟩ := waited
  exact ⟨_, s, _, run_append ran ran', by simp, placed, unbroken⟩

end SystemdPort.Shared.Barrier
