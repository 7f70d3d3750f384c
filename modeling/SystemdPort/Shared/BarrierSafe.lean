/-
# Shared.BarrierSafe — what a barrier promises

Any interleaving of two sides that use a barrier.  `View` is what holds between a side, the
other side and the counter that comes from there: the count of the side is what it has
placed less what it has seen, unless it is one of the special values, and then there is a
reason for it.

Special values and the value that stands for an abortion are far out in the range of 64 bits:
up to `limit` barriers of each side are not mistaken for them, one more is.
-/
import SystemdPort.Shared.Barrier

namespace SystemdPort.Shared.Barrier

open Lib Function

set_option autoImplicit false

/-- So many barriers a side can place. -/
def limit : Nat := 2 ^ 63 - 4

/-! ## Steps -/

/-- The steps of a side, for which `b` is its process before the step. -/
inductive Moves (s : State) (i : Side) (b : Process) : Action → State → Option (Call × Bool) → Prop
  | exit : Moves s i b .exit (s.setProcess i { b with exited := true, pipe := false }) none
  | call {c : Call} (idle : b.pc = .idle) :
      Moves s i b (.call c) (s.setProcess i (b.start c).1) (b.start c).2
  | write {c : Call} {buf : Nat} (pc : b.pc = .write c buf) (fits : s.counter i + buf ≤ maxCounter) :
      Moves s i b .write ((s.setCounter i (s.counter i + buf)).setProcess i ((b.written buf).finish c).1)
        ((b.written buf).finish c).2
  | writeAgain {c : Call} {buf : Nat} (pc : b.pc = .write c buf) : Moves s i b .writeAgain s none
  | writeFailed {c : Call} {buf : Nat} (pc : b.pc = .write c buf) :
      Moves s i b .writeFailed (s.setProcess i (b.fatal c).1) (b.fatal c).2
  | poll {c : Call} {comp : Int} (pc : b.pc = .poll c comp)
      (ready : 0 < s.counter i.other ∨ s.hungUp i = true) :
      Moves s i b .poll
        (s.setProcess i { b with pc := .polled c comp (decide (0 < s.counter i.other)) (s.hungUp i) }) none
  | pollInterrupted {c : Call} {comp : Int} (pc : b.pc = .poll c comp) : Moves s i b .pollInterrupted s none
  | pollFailed {c : Call} {comp : Int} (pc : b.pc = .poll c comp) :
      Moves s i b .pollFailed (s.setProcess i (b.fatal c).1) (b.fatal c).2
  | read {c : Call} {comp : Int} {hangup : Bool} (pc : b.pc = .polled c comp true hangup)
      (data : 0 < s.counter i.other) :
      Moves s i b .read
        ((s.setCounter i.other 0).setProcess i ((b.noted (s.counter i.other)).loop c comp).1)
        ((b.noted (s.counter i.other)).loop c comp).2
  | readAgain {c : Call} {comp : Int} {hangup : Bool} (pc : b.pc = .polled c comp true hangup) :
      Moves s i b .readAgain (s.setProcess i (b.loop c comp).1) (b.loop c comp).2
  | readFailed {c : Call} {comp : Int} {hangup : Bool} (pc : b.pc = .polled c comp true hangup) :
      Moves s i b .readFailed (s.setProcess i (b.fatal c).1) (b.fatal c).2
  | hangup {c : Call} {comp : Int} (pc : b.pc = .polled c comp false true) :
      Moves s i b .hangup (s.setProcess i ((b.noted abortion).loop c comp).1)
        ((b.noted abortion).loop c comp).2

variable {s s' : State} {i : Side} {a : Action} {r : Option (Call × Bool)}

theorem step_moves (stepped : s.step i a = some (s', r)) :
    (s.process i).exited = false ∧ Moves s i (s.process i) a s' r := by
  unfold State.step at stepped
  dsimp only at stepped
  split at stepped
  · cases stepped
  rename_i running
  refine ⟨by simpa using running, ?_⟩
  split at stepped
  · cases stepped
    exact .exit
  · rename_i idle
    cases stepped
    exact .call idle
  · rename_i pc
    split at stepped
    · cases stepped
      exact .write pc (by assumption)
    · cases stepped
  · rename_i pc
    cases stepped
    exact .writeAgain pc
  · rename_i pc
    cases stepped
    exact .writeFailed pc
  · rename_i pc
    split at stepped
    · rename_i ready
      cases stepped
      exact .poll pc (by simpa using ready)
    · cases stepped
  · rename_i pc
    cases stepped
    exact .pollInterrupted pc
  · rename_i pc
    cases stepped
    exact .pollFailed pc
  · rename_i pc
    split at stepped
    · cases stepped
      exact .read pc (by assumption)
    · cases stepped
  · rename_i pc
    cases stepped
    exact .readAgain pc
  · rename_i pc
    cases stepped
    exact .readFailed pc
  · rename_i pc
    cases stepped
    exact .hangup pc
  · cases stepped

/-! ## What a side knows -/

/-- A call that waits, for the count to get down to `comp`. -/
structure Waits (b : Process) (c : Call) (comp : Int) : Prop where
  more : comp < b.barriers
  notThey : b.theyAborted = false
  above : theyAborted ≤ comp
  kind : c = .waitAbortion ∧ comp = theyAborted ∨ (c = .waitNext ∨ c = .syncNext ∨ c = .sync) ∧ b.isAborted = false
  sync : c = .sync → comp = 0

/-- What holds where a process is. -/
def PcOk (b o : Process) (n : Nat) : Prop :=
  match b.pc with
  | .idle => True
  | .write c buf => (c = .place ∧ buf = 1 ∧ b.isAborted = false) ∨ (c = .abort ∧ buf = abortion ∧ b.iAborted = false)
  | .poll c comp => Waits b c comp
  | .polled c comp data hangup =>
    Waits b c comp ∧ (data = true ∨ hangup = true) ∧ (data = true → 0 < n) ∧
      (hangup = true → o.exited = true ∨ o.failed = true)

/-- A process `b`, the other one, and the counter that comes from there. -/
structure View (b o : Process) (n : Nat) : Prop where
  unread : o.aborted = false → n ≤ o.placed
  abortUnread : o.aborted = true → b.theyAborted = false → abortion ≤ n
  seen : b.isAborted = false → b.barriers ≤ b.placed ∧ (b.placed : Int) - b.barriers ≤ o.placed
  count : b.isAborted = false → o.aborted = false → (b.placed : Int) - b.barriers + n = o.placed
  mine : b.iAborted = true → b.aborted = true ∨ b.failed = true
  theirs : b.theyAborted = true → o.aborted = true ∨ o.exited = true ∨ o.failed = true ∨ b.failed = true
  closed : b.pipe = false → b.exited = true ∨ b.failed = true
  pc : PcOk b o n

section Process

variable {b b' o o' : Process} {n : Nat} {c : Call} {comp : Int}

theorem isAborted_eq_false :
    b.isAborted = false ↔ b.barriers ≠ iAborted ∧ b.barriers ≠ theyAborted ∧ b.barriers ≠ weAborted := by
  simp [Process.isAborted]

theorem iAborted_eq_false : b.iAborted = false ↔ b.barriers ≠ iAborted ∧ b.barriers ≠ weAborted := by
  simp [Process.iAborted]

theorem theyAborted_eq_false : b.theyAborted = false ↔ b.barriers ≠ theyAborted ∧ b.barriers ≠ weAborted := by
  simp [Process.theyAborted]

theorem iAborted_or_theyAborted (aborted : b.isAborted = true) : b.iAborted = true ∨ b.theyAborted = true := by
  simp only [Process.isAborted, Process.iAborted, Process.theyAborted, decide_eq_true_eq] at aborted ⊢
  tauto

/-- What a call does up to its first system call. -/
inductive Starts (b : Process) : Call → Process × Option (Call × Bool) → Prop
  | refused {c : Call} (aborted : b.isAborted = true) : Starts b c (b, some (c, false))
  | abortedBefore : Starts b .abort (b.finish .abort)
  | places (normal : b.isAborted = false) : Starts b .place ({ b with pc := .write .place 1 }, none)
  | aborts (notI : b.iAborted = false) : Starts b .abort ({ b with pc := .write .abort abortion }, none)
  | waitsAbortion : Starts b .waitAbortion (b.barrierRead .waitAbortion theyAborted)
  | reads {c : Call} {comp : Int} (waits : c = .waitNext ∨ c = .syncNext ∨ c = .sync) (normal : b.isAborted = false)
      (low : b.barriers - 1 ≤ comp ∨ 0 ≤ comp) (sync : c = .sync → comp = 0) : Starts b c (b.barrierRead c comp)

theorem starts (b : Process) (c : Call) : Starts b c (b.start c) := by
  cases c with
  | waitAbortion => exact .waitsAbortion
  | abort =>
    simp only [Process.start]
    split
    · exact .abortedBefore
    · exact .aborts (by simp_all)
  | place | waitNext | syncNext | sync =>
    simp only [Process.start]
    split
    · exact .refused (by assumption)
    · rename_i normal
      rw [Bool.not_eq_true] at normal
      first
        | exact .places normal
        | exact .reads (by simp) normal (by simp) (by simp)

variable {x : Int} (buf : Nat)

theorem toInt64_of_small (lower : -2 ^ 63 ≤ x) (upper : x < 2 ^ 63) : toInt64 x = x := by
  exact Int.bmod_eq_of_le (by norm_num; omega) (by norm_num; omega)

/-- A count with few barriers is not a special value. -/
theorem not_special (lower : -(limit : Int) ≤ x) : x ≠ iAborted ∧ x ≠ theyAborted ∧ x ≠ weAborted := by
  unfold limit at lower
  unfold iAborted theyAborted weAborted
  omega

/-- What the other side does not see. -/
structure Kept (o o' : Process) : Prop where
  placed : o'.placed = o.placed
  aborted : o'.aborted = o.aborted
  exited : o.exited = true → o'.exited = true
  failed : o.failed = true → o'.failed = true

theorem Waits.congr (waits : Waits b c comp) (same : b'.barriers = b.barriers) : Waits b' c comp := by
  obtain ⟨more, notThey, above, kind, sync⟩ := waits
  refine ⟨same ▸ more, ?_, above, ?_, sync⟩
  · rwa [Process.theyAborted, same]
  · rwa [Process.isAborted, same]

theorem PcOk.stay {n' : Nat} (ok : PcOk b o n) (pc : b'.pc = b.pc) (same : b'.barriers = b.barriers)
    (exited : o.exited = true → o'.exited = true) (failed : o.failed = true → o'.failed = true) (le : n ≤ n') :
    PcOk b' o' n' := by
  unfold PcOk at ok ⊢
  rw [pc]
  split at ok
  · trivial
  · rwa [Process.isAborted, Process.iAborted, same]
  · exact ok.congr same
  · exact ⟨ok.1.congr same, ok.2.1, fun data => (ok.2.2.1 data).trans_le le, fun hangup => (ok.2.2.2 hangup).imp exited failed⟩

theorem not_normal {p : Prop} (aborted : b.isAborted = true) (normal : b.isAborted = false) : p := by
  simp [aborted] at normal

section

variable (view : View b o n)

include view

theorem View.other (kept : Kept o o') : View b o' n where
  unread := by rw [kept.placed, kept.aborted]; exact view.unread
  abortUnread := by rw [kept.aborted]; exact view.abortUnread
  seen := by rw [kept.placed]; exact view.seen
  count := by rw [kept.placed, kept.aborted]; exact view.count
  mine := view.mine
  theirs := by
    intro they
    rcases view.theirs they with aborted | exited | failed | own
    · exact .inl (kept.aborted.trans aborted)
    · exact .inr (.inl (kept.exited exited))
    · exact .inr (.inr (.inl (kept.failed failed)))
    · exact .inr (.inr (.inr own))
  closed := view.closed
  pc := view.pc.stay rfl rfl kept.exited kept.failed le_rfl

theorem View.at_pc {pc : Pc} (ok : PcOk { b with pc } o n) : View { b with pc } o n :=
  { view with pc := ok }

theorem View.finish (c : Call) : View (b.finish c).1 o n := view.at_pc trivial

/-- The loop goes on only if it has something to wait for. -/
theorem View.loop (waits : comp < b.barriers → Waits b c comp) : View (b.loop c comp).1 o n := by
  unfold Process.loop
  split
  · rename_i more
    exact @View.at_pc _ _ _ view (.poll c comp) ((waits more).congr rfl)
  · exact view.finish c

theorem View.barrierRead (above : theyAborted ≤ comp)
    (kind : c = .waitAbortion ∧ comp = theyAborted ∨ (c = .waitNext ∨ c = .syncNext ∨ c = .sync) ∧ b.isAborted = false)
    (sync : c = .sync → comp = 0) : View (b.barrierRead c comp).1 o n := by
  unfold Process.barrierRead
  split
  · exact view.finish c
  · rename_i notThey
    exact view.loop fun more => ⟨more, by simpa using notThey, above, kind, sync⟩

theorem View.start (small : o.placed ≤ limit) (c : Call) : View (b.start c).1 o n := by
  have started := starts b c
  generalize b.start c = r at *
  cases started with
  | refused => exact view
  | abortedBefore => exact view.finish _
  | places normal => exact view.at_pc (Or.inl ⟨rfl, rfl, normal⟩)
  | aborts notI => exact view.at_pc (Or.inr ⟨rfl, rfl, notI⟩)
  | waitsAbortion => exact view.barrierRead le_rfl (.inl ⟨rfl, rfl⟩) (by simp)
  | reads waits normal low sync =>
    refine view.barrierRead ?_ (.inr ⟨waits, normal⟩) sync
    have seen := (view.seen normal).2
    unfold limit at small
    unfold theyAborted
    omega

/-- A count that stays small, with nothing to do. -/
theorem View.recount (small : o.placed ≤ limit) {barriers : Int} {placed n' : Nat}
    (unread : o.aborted = false → n' ≤ o.placed) (notAborted : o.aborted = true → abortion ≤ n')
    (le : barriers ≤ placed) (seen : (placed : Int) - barriers ≤ o.placed)
    (count : o.aborted = false → (placed : Int) - barriers + n' = o.placed) :
    View { b with pc := .idle, placed, barriers } o n' := by
  have normal' : barriers ≠ iAborted ∧ barriers ≠ theyAborted ∧ barriers ≠ weAborted := by
    apply not_special
    omega
  refine ⟨unread, fun aborted _ => notAborted aborted, fun _ => ⟨le, seen⟩, fun _ => count, ?_, ?_, view.closed, trivial⟩
  · intro mine
    rw [iAborted_eq_false.mpr ⟨normal'.1, normal'.2.2⟩] at mine
    cases mine
  · intro theirs
    rw [theyAborted_eq_false.mpr normal'.2] at theirs
    cases theirs

/-- A barrier or an abortion has been written, as this side sees it. -/
theorem View.written (small : o.placed ≤ limit) {buf : Nat} (pc : b.pc = .write c buf)
    (fits : (b.written buf).placed ≤ limit) : View ((b.written buf).finish c).1 o n := by
  have ok := view.pc
  unfold PcOk at ok
  rw [pc] at ok
  rcases ok with ⟨-, rfl, normal⟩ | ⟨-, rfl, notI⟩
  · have step : b.written 1 = { b with placed := b.placed + 1, barriers := toInt64 (b.barriers + 1) } := by
      rw [Process.written, if_neg (by decide), if_neg (by simp [normal])]
      rfl
    rw [step] at fits ⊢
    have fits : b.placed + 1 ≤ limit := fits
    obtain ⟨le, seen⟩ := view.seen normal
    have notThey : b.theyAborted = false := theyAborted_eq_false.mpr (isAborted_eq_false.mp normal).2
    have same : toInt64 (b.barriers + 1) = b.barriers + 1 := by
      unfold limit at fits small
      apply toInt64_of_small <;> omega
    refine view.recount small view.unread (fun aborted => view.abortUnread aborted notThey) ?_ ?_ ?_
    · push_cast
      omega
    · push_cast
      omega
    · intro notAborted
      have := view.count normal notAborted
      push_cast
      omega
  · rw [Process.written, if_pos le_rfl]
    split
    · rename_i they
      refine ⟨view.unread, ?_, not_normal ?_, not_normal ?_, fun _ => .inl rfl, fun _ => view.theirs they,
        view.closed, trivial⟩
      · intro _ notThey
        exact absurd notThey (by simp [Process.finish, Process.theyAborted])
      all_goals simp [Process.finish, Process.isAborted]
    · rename_i notThey
      refine ⟨view.unread, fun aborted _ => view.abortUnread aborted (by simpa using notThey), not_normal ?_,
        not_normal ?_, fun _ => .inl rfl, ?_, view.closed, trivial⟩
      · simp [Process.finish, Process.isAborted]
      · simp [Process.finish, Process.isAborted]
      · intro they
        exact absurd they (by simp [Process.finish, Process.theyAborted, iAborted, theyAborted, weAborted])

/-- The same, as the other side sees it. -/
theorem View.otherWritten (buf : Nat) : View b ((o.written buf).finish c).1 (n + buf) := by
  rw [Process.written]
  split
  · rename_i isAbort
    refine ⟨?_, fun _ _ => isAbort.trans (Nat.le_add_left _ _), view.seen, ?_, view.mine, fun _ => .inl rfl,
      view.closed, view.pc.stay rfl rfl id id (Nat.le_add_right _ _)⟩
    · intro notAborted
      cases notAborted
    · intro _ notAborted
      cases notAborted
  · refine ⟨?_, ?_, ?_, ?_, view.mine, view.theirs, view.closed, view.pc.stay rfl rfl id id (Nat.le_add_right _ _)⟩
    · intro notAborted
      exact Nat.add_le_add_right (view.unread notAborted) _
    · intro aborted notThey
      exact (view.abortUnread aborted notThey).trans (Nat.le_add_right _ _)
    · intro normal
      have := view.seen normal
      simp only [Process.finish]
      omega
    · intro normal notAborted
      have := view.count normal notAborted
      simp only [Process.finish]
      omega

/-- The other side has aborted, or is taken to have. -/
theorem View.notedAbortion (n' : Nat) (unread : o.aborted = false → n' ≤ o.placed)
    (reason : o.aborted = true ∨ o.exited = true ∨ o.failed = true ∨ b.failed = true) :
    View { b with pc := .idle, barriers := if b.iAborted then weAborted else theyAborted } o n' := by
  have aborted (normal : (if b.iAborted then weAborted else theyAborted) ≠ theyAborted ∧
      (if b.iAborted then weAborted else theyAborted) ≠ weAborted) : False := by
    split at normal <;> simp at normal
  refine ⟨unread, ?_, ?_, ?_, ?_, fun _ => reason, view.closed, trivial⟩
  · exact fun _ notThey => (aborted (theyAborted_eq_false.mp notThey)).elim
  · exact fun normal => (aborted (isAborted_eq_false.mp normal).2).elim
  · exact fun normal => (aborted (isAborted_eq_false.mp normal).2).elim
  · intro mine
    apply view.mine
    by_contra notI
    rw [if_neg notI] at mine
    exact absurd mine (by simp [Process.iAborted, iAborted, theyAborted, weAborted])

/-- What a value that is no abortion does to the count. -/
theorem View.noted_count (small : o.placed ≤ limit) (mySmall : b.placed ≤ limit) (notThey : b.theyAborted = false)
    (noAbortion : n < abortion) : o.aborted = false ∧ (b.isAborted = true ∧ b.noted n = b ∨
      b.isAborted = false ∧ b.noted n = { b with barriers := b.barriers - n } ∧ (b.noted n).isAborted = false) := by
  have notAborted : o.aborted = false := by
    by_contra aborted
    have := view.abortUnread (by simpa using aborted) notThey
    omega
  refine ⟨notAborted, ?_⟩
  rw [Process.noted, if_neg (by omega)]
  by_cases normal : b.isAborted = true
  · rw [if_pos normal]
    exact .inl ⟨normal, rfl⟩
  · rw [if_neg normal]
    rw [Bool.not_eq_true] at normal
    have count := view.count normal notAborted
    have same : toInt64 (b.barriers - n) = b.barriers - n := by
      unfold limit at small mySmall
      apply toInt64_of_small <;> omega
    rw [same]
    exact .inr ⟨normal, rfl, isAborted_eq_false.mpr (not_special (show _ ≤ b.barriers - n by omega))⟩

theorem View.notedCount (small : o.placed ≤ limit) (mySmall : b.placed ≤ limit) (notThey : b.theyAborted = false)
    (noAbortion : n < abortion) : View { b.noted n with pc := .idle } o 0 := by
  obtain ⟨notAborted, ⟨aborted, same⟩ | ⟨normal, same, -⟩⟩ := view.noted_count small mySmall notThey noAbortion
  · rw [same]
    refine ⟨fun _ => Nat.zero_le _, ?_, view.seen, not_normal aborted, view.mine, view.theirs, view.closed, trivial⟩
    simp [notAborted]
  · rw [same]
    have count := view.count normal notAborted
    have noReason : o.aborted = true → abortion ≤ 0 := by simp [notAborted]
    apply view.recount small (fun _ => Nat.zero_le _) noReason
    · show b.barriers - n ≤ b.placed
      omega
    · show (b.placed : Int) - (b.barriers - n) ≤ o.placed
      omega
    · intro _
      show (b.placed : Int) - (b.barriers - n) + (0 : Nat) = o.placed
      omega

end

/-- An abortion ends every wait. -/
theorem not_more_of_abortion (waits : Waits b c comp) {buf : Nat} (isAbortion : abortion ≤ buf) :
    ¬comp < (b.noted buf).barriers := by
  have above := waits.above
  rw [Process.noted, if_pos isAbortion]
  dsimp only
  split
  · unfold theyAborted at above
    unfold weAborted
    omega
  · omega

/-- Behind a value that is not enough the process goes on to wait. -/
theorem Waits.noted (waits : Waits b c comp) (view : View b o n) (small : o.placed ≤ limit) (mySmall : b.placed ≤ limit)
    (more : comp < (b.noted n).barriers) : Waits (b.noted n) c comp := by
  have noAbortion : n < abortion := by
    by_contra isAbortion
    exact not_more_of_abortion waits (by omega) more
  obtain ⟨-, ⟨-, same⟩ | ⟨normal, -, normal'⟩⟩ := view.noted_count small mySmall waits.notThey noAbortion
  · rwa [same]
  · exact ⟨more, theyAborted_eq_false.mpr (isAborted_eq_false.mp normal').2, waits.above,
      waits.kind.imp_right fun isCall => ⟨isCall.1, normal'⟩, waits.sync⟩

theorem View.read (view : View b o n) (waits : Waits b c comp) (small : o.placed ≤ limit)
    (mySmall : b.placed ≤ limit) : View ((b.noted n).loop c comp).1 o 0 := by
  have noted : View { b.noted n with pc := .idle } o 0 := by
    by_cases isAbortion : abortion ≤ n
    · have aborted : o.aborted = true := by
        by_contra notAborted
        have unread := view.unread (by simpa using notAborted)
        unfold limit at small
        unfold abortion at isAbortion
        omega
      rw [Process.noted, if_pos isAbortion]
      exact view.notedAbortion 0 (fun _ => Nat.zero_le _) (.inl aborted)
    · exact view.notedCount small mySmall waits.notThey (by omega)
  exact noted.loop fun more => (waits.noted view small mySmall more).congr rfl

theorem View.hangup (view : View b o n) (waits : Waits b c comp) (gone : o.exited = true ∨ o.failed = true) :
    View ((b.noted abortion).loop c comp).1 o n := by
  have noted : View { b.noted abortion with pc := .idle } o n := by
    exact view.notedAbortion n view.unread (gone.elim (fun exited => .inr (.inl exited)) fun failed => .inr (.inr (.inl failed)))
  exact noted.loop fun more => absurd more (not_more_of_abortion waits le_rfl)

theorem View.fatal (view : View b o n) (c : Call) : View (b.fatal c).1 o n := by
  have aborted : (b.fatal c).1.isAborted = true := by simp [Process.fatal, Process.finish, Process.isAborted]
  refine ⟨view.unread, ?_, not_normal aborted, not_normal aborted, fun _ => .inr rfl, fun _ => .inr (.inr (.inr rfl)),
    fun _ => .inr rfl, trivial⟩
  intro _ notThey
  exact absurd notThey (by simp [Process.fatal, Process.finish, Process.theyAborted])

theorem View.exit (view : View b o n) : View { b with exited := true, pipe := false } o n :=
  ⟨view.unread, view.abortUnread, view.seen, view.count, view.mine, view.theirs, fun _ => .inl rfl,
    view.pc.stay rfl rfl id id le_rfl⟩

/-! ### What the other side sees of it -/

theorem kept_finish (c : Call) : Kept b (b.finish c).1 := ⟨rfl, rfl, id, id⟩

theorem kept_loop : Kept b (b.loop c comp).1 := by
  unfold Process.loop
  split
  · exact ⟨rfl, rfl, id, id⟩
  · exact kept_finish c

theorem kept_noted : Kept b (b.noted buf) := by
  unfold Process.noted
  split <;> exact ⟨rfl, rfl, id, id⟩

theorem kept_barrierRead : Kept b (b.barrierRead c comp).1 := by
  unfold Process.barrierRead
  split
  · exact kept_finish c
  · exact kept_loop

theorem kept_start (c : Call) : Kept b (b.start c).1 := by
  have started := starts b c
  generalize b.start c = r at *
  cases started with
  | refused | places | aborts => exact ⟨rfl, rfl, id, id⟩
  | abortedBefore => exact kept_finish _
  | waitsAbortion | reads => exact kept_barrierRead

theorem kept_fatal (c : Call) : Kept b (b.fatal c).1 := ⟨rfl, rfl, id, fun _ => rfl⟩

theorem Kept.trans {o'' : Process} (first : Kept o o') (second : Kept o' o'') : Kept o o'' :=
  ⟨second.placed.trans first.placed, second.aborted.trans first.aborted, second.exited ∘ first.exited,
    second.failed ∘ first.failed⟩

theorem kept_noted_loop : Kept b ((b.noted buf).loop c comp).1 := (kept_noted buf).trans kept_loop

end Process

/-! ## Every interleaving -/

@[simp] theorem Side.other_other (i : Side) : i.other.other = i := by cases i <;> rfl

@[simp] theorem Side.other_ne (i : Side) : i.other ≠ i := by cases i <;> decide

theorem Side.eq_or_other (i j : Side) : j = i ∨ j = i.other := by cases i <;> cases j <;> decide

@[simp] theorem State.setProcess_process (s : State) (i : Side) (b : Process) : (s.setProcess i b).process i = b :=
  update_self ..

@[simp] theorem State.setProcess_other (s : State) (i : Side) (b : Process) :
    (s.setProcess i b).process i.other = s.process i.other :=
  update_of_ne (Side.other_ne i) ..

@[simp] theorem State.setProcess_counter (s : State) (i : Side) (b : Process) :
    (s.setProcess i b).counter = s.counter := rfl

@[simp] theorem State.setCounter_process (s : State) (i : Side) (n : Nat) :
    (s.setCounter i n).process = s.process := rfl

@[simp] theorem State.setCounter_counter (s : State) (i : Side) (n : Nat) : (s.setCounter i n).counter i = n :=
  update_self ..

@[simp] theorem State.setCounter_counter_other (s : State) (i : Side) (n : Nat) :
    (s.setCounter i n).counter i.other = s.counter i.other :=
  update_of_ne (Side.other_ne i) ..

@[simp] theorem State.setCounter_other_counter (s : State) (i : Side) (n : Nat) :
    (s.setCounter i.other n).counter i = s.counter i :=
  update_of_ne (Side.other_ne i).symm ..

/-- No side has placed more than `limit` barriers. -/
def Small (s : State) : Prop := ∀ i, (s.process i).placed ≤ limit

/-- Both sides know what they should. -/
def Inv (s : State) : Prop := ∀ i, View (s.process i) (s.process i.other) (s.counter i.other)

theorem Inv.of_sides (mine : View (s.process i) (s.process i.other) (s.counter i.other))
    (theirs : View (s.process i.other) (s.process i) (s.counter i)) : Inv s := by
  intro j
  rcases Side.eq_or_other i j with rfl | rfl
  · exact mine
  · rwa [Side.other_other]

variable {b o : Process} {c : Call} {comp : Int}

/-- A step that the other side does not see. -/
theorem Inv.setProcess (inv : Inv s) (view : View b (s.process i.other) (s.counter i.other))
    (kept : Kept (s.process i) b) : Inv (s.setProcess i b) := by
  have theirs := inv i.other
  rw [Side.other_other] at theirs
  apply Inv.of_sides (i := i)
  · simpa using view
  · simpa using theirs.other kept

theorem waits_of_poll {n : Nat} (ok : PcOk b o n) (pc : b.pc = .poll c comp) : Waits b c comp := by
  unfold PcOk at ok
  rwa [pc] at ok

theorem waits_of_polled {n : Nat} {data hangup : Bool} (ok : PcOk b o n) (pc : b.pc = .polled c comp data hangup) :
    Waits b c comp ∧ (data = true ∨ hangup = true) ∧ (data = true → 0 < n) ∧
      (hangup = true → o.exited = true ∨ o.failed = true) := by
  unfold PcOk at ok
  rwa [pc] at ok

theorem gone_of_hungUp (inv : Inv s) (hungUp : s.hungUp i = true) :
    (s.process i.other).exited = true ∨ (s.process i.other).failed = true := by
  simp only [State.hungUp, Bool.or_eq_true, Bool.not_eq_true'] at hungUp
  rcases hungUp with closed | exited
  · exact (inv i.other).closed closed
  · exact .inl exited

/-- Barriers are not taken back. -/
theorem placed_le (moves : Moves s i (s.process i) a s' r) (j : Side) :
    (s.process j).placed ≤ (s'.process j).placed := by
  have keeps {b : Process} (le : (s.process i).placed ≤ b.placed) :
      (s.process j).placed ≤ ((s.setProcess i b).process j).placed := by
    rcases Side.eq_or_other i j with rfl | rfl
    · simpa using le
    · simp
  cases moves with
  | exit => exact keeps le_rfl
  | call => exact keeps (kept_start _).placed.ge
  | @write c buf pc fits =>
    have le : (s.process i).placed ≤ (((s.process i).written buf).finish c).1.placed := by
      unfold Process.written
      split
      · exact le_rfl
      · exact Nat.le_add_right _ _
    exact keeps le
  | writeAgain => exact le_rfl
  | writeFailed => exact keeps (kept_fatal _).placed.ge
  | poll => exact keeps le_rfl
  | pollInterrupted => exact le_rfl
  | pollFailed => exact keeps (kept_fatal _).placed.ge
  | read => exact keeps (kept_noted_loop _).placed.ge
  | readAgain => exact keeps kept_loop.placed.ge
  | readFailed => exact keeps (kept_fatal _).placed.ge
  | hangup => exact keeps (kept_noted_loop _).placed.ge

theorem Small.before (small : Small s') (moves : Moves s i (s.process i) a s' r) : Small s :=
  fun j => (placed_le moves j).trans (small j)

theorem Inv.step (inv : Inv s) (moves : Moves s i (s.process i) a s' r) (small : Small s') : Inv s' := by
  have small₀ := small.before moves
  have view := inv i
  cases moves with
  | exit => exact inv.setProcess view.exit ⟨rfl, rfl, fun _ => rfl, id⟩
  | call => exact inv.setProcess (view.start (small₀ _) _) (kept_start _)
  | @write c buf pc fits =>
    have mySmall := small i
    rw [State.setProcess_process] at mySmall
    have theirs := inv i.other
    apply Inv.of_sides (i := i)
    · simpa using view.written (small₀ _) pc mySmall
    · simpa using theirs.otherWritten buf
  | poll pc ready =>
    refine inv.setProcess (view.at_pc ?_) ⟨rfl, rfl, id, id⟩
    exact ⟨(waits_of_poll view.pc pc).congr rfl, by simpa using ready, fun data => by simpa using data,
      gone_of_hungUp inv⟩
  | writeAgain | pollInterrupted => exact inv
  | read pc data =>
    have theirs := inv i.other
    have waits := (waits_of_polled view.pc pc).1
    apply Inv.of_sides (i := i)
    · simpa using view.read waits (small₀ _) (small₀ _)
    · simpa using theirs.other (kept_noted_loop _)
  | readAgain pc =>
    have waits := (waits_of_polled view.pc pc).1
    exact inv.setProcess (view.loop fun _ => waits) kept_loop
  | writeFailed | pollFailed | readFailed => exact inv.setProcess (view.fatal _) (kept_fatal _)
  | hangup pc =>
    obtain ⟨waits, -, -, gone⟩ := waits_of_polled view.pc pc
    exact inv.setProcess (view.hangup waits (gone rfl)) (kept_noted_loop _)

theorem inv_init : Inv {} := by
  intro i
  refine ⟨fun _ => le_rfl, ?_, fun _ => ⟨le_rfl, le_rfl⟩, fun _ _ => rfl, ?_, ?_, ?_, trivial⟩
  all_goals
    intro special
    cases special

/-! ## What calls return -/

/-- The calls that wait. -/
def Call.waits : Call → Bool
  | .waitNext | .waitAbortion | .syncNext | .sync => true
  | .place | .abort => false

/-- What an answer says about the process that gives it. -/
structure Answers (b : Process) (c : Call) (ok : Bool) : Prop where
  refused : c.waits = true → ok = false → b.isAborted = true
  synced : c = .sync → ok = true → b.isAborted = false ∧ b.barriers ≤ 0

section Answers

variable {b : Process} {c c' : Call} {comp : Int} {ok : Bool}

theorem isAborted_of_iAborted (mine : b.iAborted = true) : b.isAborted = true := by
  simp only [Process.isAborted, Process.iAborted, decide_eq_true_eq] at mine ⊢
  tauto

theorem finish_answers (down : c = .sync → b.isAborted = false → b.barriers ≤ 0)
    (returned : (b.finish c).2 = some (c', ok)) : Answers (b.finish c).1 c' ok := by
  obtain ⟨rfl, rfl⟩ : c = c' ∧ b.result c = ok := by simpa [Process.finish] using returned
  refine ⟨fun waits refused => ?_, ?_⟩
  · show b.isAborted = true
    cases c with
    | place | abort => cases waits
    | waitAbortion => exact isAborted_of_iAborted (by simpa [Process.result] using refused)
    | waitNext | syncNext | sync => simpa [Process.result] using refused
  · rintro rfl synced
    have normal : b.isAborted = false := by simpa [Process.result] using synced
    exact ⟨normal, down rfl normal⟩

theorem loop_answers (sync : c = .sync → comp = 0) (returned : (b.loop c comp).2 = some (c', ok)) :
    Answers (b.loop c comp).1 c' ok := by
  unfold Process.loop at returned ⊢
  split at returned
  · cases returned
  · rename_i enough
    rw [if_neg enough]
    refine finish_answers ?_ returned
    rintro rfl -
    rw [sync rfl] at enough
    omega

theorem fatal_answers (returned : (b.fatal c).2 = some (c', ok)) : Answers (b.fatal c).1 c' ok := by
  apply finish_answers _ returned
  intro _ normal
  cases normal

theorem barrierRead_answers (sync : c = .sync → comp = 0) (returned : (b.barrierRead c comp).2 = some (c', ok)) :
    Answers (b.barrierRead c comp).1 c' ok := by
  unfold Process.barrierRead at returned ⊢
  split at returned
  · rename_i they
    rw [if_pos they]
    refine finish_answers (fun _ normal => ?_) returned
    rw [theyAborted_eq_false.mpr (isAborted_eq_false.mp normal).2] at they
    cases they
  · rename_i notThey
    rw [if_neg notThey]
    exact loop_answers sync returned

theorem start_answers (returned : (b.start c).2 = some (c', ok)) : Answers (b.start c).1 c' ok := by
  have started := starts b c
  generalize b.start c = r at *
  cases started with
  | refused aborted =>
    obtain ⟨rfl, rfl⟩ : c = c' ∧ false = ok := by simpa using returned
    exact ⟨fun _ _ => aborted, by simp⟩
  | abortedBefore => exact finish_answers (by simp) returned
  | places | aborts => cases returned
  | waitsAbortion => exact barrierRead_answers (by simp) returned
  | reads _ _ _ sync => exact barrierRead_answers sync returned

end Answers

/-- Whatever step a call ends with. -/
theorem Moves.answers {ok : Bool} (moves : Moves s i (s.process i) a s' (some (c, ok))) (inv : Inv s) :
    Answers (s'.process i) c ok := by
  have view := inv i
  generalize same : some (c, ok) = returned at moves
  cases moves with
  | exit | writeAgain | poll | pollInterrupted => cases same
  | call => simpa using start_answers same.symm
  | @write d buf pc fits =>
    have ok := view.pc
    unfold PcOk at ok
    rw [pc] at ok
    simpa using finish_answers (by rcases ok with ⟨rfl, -⟩ | ⟨rfl, -⟩ <;> simp) same.symm
  | writeFailed | pollFailed | readFailed => simpa using fatal_answers same.symm
  | read pc | readAgain pc | hangup pc => simpa using loop_answers (waits_of_polled view.pc pc).1.sync same.symm

/-- A side has aborted, is gone or had a system call fail. -/
def Broken (b : Process) : Prop := b.aborted = true ∨ b.exited = true ∨ b.failed = true

theorem Inv.broken (inv : Inv s) (aborted : (s.process i).isAborted = true) : ∃ j, Broken (s.process j) := by
  rcases iAborted_or_theyAborted aborted with mine | theirs
  · rcases (inv i).mine mine with aborted | failed
    · exact ⟨i, .inl aborted⟩
    · exact ⟨i, .inr (.inr failed)⟩
  · rcases (inv i).theirs theirs with aborted | exited | failed | own
    · exact ⟨i.other, .inl aborted⟩
    · exact ⟨i.other, .inr (.inl exited)⟩
    · exact ⟨i.other, .inr (.inr failed)⟩
    · exact ⟨i, .inr (.inr own)⟩

theorem Inv.synced (inv : Inv s) (normal : (s.process i).isAborted = false) (down : (s.process i).barriers ≤ 0) :
    (s.process i).placed ≤ (s.process i.other).placed := by
  have := (inv i).seen normal
  omega

end SystemdPort.Shared.Barrier
