/-
# Bus.Failing — calls that fail while a message is built

A call that fails has marked the message as unusable, or has left it as it was but for
one thing (`run_error`): at the top level the signature is extended before the value is
looked at, so a value that is refused leaves its type behind in the signature.

For a whole sequence of calls, `runEach` goes on after a failure and collects the calls
that succeeded.  What is sealed afterwards has the body of these calls, and it has their
signature unless the last failures include a refused value (`sealed_signature_iff`).
-/
import SystemdPort.Bus.Append

namespace SystemdPort.Bus

open Basic Lib Lib.Exec List

set_option autoImplicit false

variable {b : Building} {leftover : CString} {err : Failure} {m m' : Message}

variable {env : Env}

/-! ## Calls that fail -/

/-- A value that is not appended even where its type is expected. -/
def Refused (env : Env) (allowFds : Bool) (v : BasicValue) : Prop :=
  v.valid = false ∨ ∃ fd, v = .unixFd fd ∧ (allowFds = false ∨ ∃ e, env.dupFd fd = .error e)

variable {α : Type} {v : BasicValue} {type : ContainerType} {contents : CString} {call : Call} {calls : List Call}

theorem check_eq_error {p : Prop} [Decidable p] {e : Errno} {f : PUnit → BusM α} :
    (check p e >>= f) m = .error err m' ↔ (¬ p ∧ m' = m ∧ err = .errno e) ∨ (p ∧ f ⟨⟩ m = .error err m') := by
  by_cases holds : p
  · rw [check_bind_of holds]
    simp [holds]
  · rw [check, require, if_neg holds]
    constructor
    · intro failed
      cases failed
      exact .inl ⟨holds, rfl, rfl⟩
    · rintro (⟨-, rfl, rfl⟩ | ⟨p, -⟩)
      · rfl
      · exact absurd p holds

theorem expectSignature_error {s : CString} (failed : expectSignature env s m = .error err m') :
    m'.poisoned = true ∨ m' = m ∧ (m.lastContainer.index < m.lastContainer.signature.length ∨
      m.lastContainer.enclosing ≠ none) := by
  simp only [expectSignature, get_bind] at failed
  split at failed
  · rename_i more
    rcases check_eq_error.mp failed with ⟨-, rfl, -⟩ | ⟨-, failed⟩
    · exact .inr ⟨rfl, .inl more⟩
    · simp at failed
  · rcases check_eq_error.mp failed with ⟨inside, rfl, -⟩ | ⟨-, failed⟩
    · exact .inr ⟨rfl, .inr inside⟩
    · rcases bind_eq_error.mp failed with failed | ⟨a, m₁, -, failed⟩
      · exact .inl (Poisons.of_allocate failed)
      · simp at failed

theorem pushValueFd_error (failed : pushValueFd env v m = .error err m') :
    m'.poisoned = true ∨ m' = m ∧ Refused env m.allowFds v := by
  cases v with
  | unixFd fd =>
    simp only [pushValueFd, messagePushFd] at failed
    rcases bind_eq_error.mp failed with failed | ⟨copy, m₁, -, failed⟩
    · rcases check_eq_error.mp failed with ⟨refused, rfl, -⟩ | ⟨-, failed⟩
      · exact .inr ⟨rfl, .inr ⟨fd, rfl, .inl (by simpa using refused)⟩⟩
      · cases dup : env.dupFd fd with
        | error e =>
          simp only [dup] at failed
          cases failed
          exact .inr ⟨rfl, .inr ⟨fd, rfl, .inr ⟨e, dup⟩⟩⟩
        | ok copy =>
          simp only [dup] at failed
          rcases bind_eq_error.mp failed with failed | ⟨a, m₁, -, failed⟩
          · exact .inl (Poisons.of_allocate failed)
          · simp at failed
    · simp at failed
  | _ => simp [pushValueFd] at failed

/-! ## One call -/

/-- At the top level there is something to expect only if it was left over. -/
theorem Builds.top (builds : Builds m b leftover) (outermost : b.frames = []) : m.lastContainer.enclosing = none ∧
      (m.lastContainer.index < m.lastContainer.signature.length ↔ leftover ≠ []) := by
  have levels := builds.levels
  rw [Building.levels, outermost] at levels
  obtain ⟨enclosing, signature, index⟩ := (forall₂_plain.mp levels).1
  refine ⟨enclosing, ?_⟩
  rw [signature, length_append, ← length_pos_iff]
  omega

/-- The type of a value has been noted, and the value is then refused. -/
theorem Builds.noted {m₁ : Message} {t : BasicType} {n : Nat} (builds : Builds m b leftover)
    (expects : expectSignature env [t.code] m = .ok n m₁) :
    ∃ left, Builds m₁ b left ∧ m₁.allowFds = m.allowFds ∧ (left = [] ↔ leftover = [] ∧ b.frames ≠ []) := by
  obtain ⟨kind, ls, levelsEq, outermost, fits, below⟩ := builds.level
  obtain ⟨-, -, change⟩ := expectSignature_ok fits builds.small (.inl ⟨t, rfl⟩) expects
  rcases change with ⟨rfl, more⟩ | ⟨noKind, rfl, same⟩
  · refine ⟨leftover, builds, rfl, fun none_left => ⟨none_left, fun top => ?_⟩, And.left⟩
    exact (builds.top top).2.mp more none_left
  · subst noKind
    have top := outermost rfl
    obtain rfl : [] = ls := by simpa [top, levelsOf] using levelsEq []
    obtain ⟨enclosing, signature, index⟩ := fits
    obtain ⟨holds, settings, -⟩ := builds.expect (.inl ⟨t, rfl⟩) expects
    have levels : List.Forall₂ (Fits [t.code]) m₁.plain b.levels := by
      rw [Building.levels, levelsEq, same, Message.plain_modifyLast]
      refine .cons ⟨enclosing, ?_, index⟩ (forall₂_nil_right_iff.mpr (forall₂_nil_right_iff.mp below))
      show m.lastContainer.signature ++ [t.code] = _
      rw [signature, append_nil]
    obtain ⟨noted, allowFds⟩ := builds.next settings builds.fds levels holds (.inr ⟨top, t, rfl⟩) builds.sound
    exact ⟨[t.code], noted, allowFds, by simp [top]⟩

theorem append_error (builds : Builds m b leftover) (failed : messageAppendBasic env v m = .error err m') :
    m'.poisoned = true ∨ ∃ left, Builds m' b left ∧ m'.allowFds = m.allowFds ∧
      (left = [] ↔ leftover = [] ∧ ¬ (b.frames = [] ∧ Refused env m.allowFds v)) := by
  rcases check_eq_error.mp failed with ⟨isSealed, -⟩ | ⟨-, failed⟩
  · exact absurd builds.unsealed isSealed
  rcases check_eq_error.mp failed with ⟨poisoned, -⟩ | ⟨-, failed⟩
  · exact absurd builds.usable poisoned
  rcases bind_eq_error.mp failed with failed | ⟨n, m₁, expects, failed⟩
  · rcases expectSignature_error failed with poisoned | ⟨rfl, unexpected⟩
    · exact .inl poisoned
    · refine .inr ⟨leftover, builds, rfl, fun none_left => ⟨none_left, fun refused => ?_⟩, And.left⟩
      obtain ⟨enclosing, more⟩ := builds.top refused.1
      exact unexpected.elim (fun h => more.mp h none_left) fun h => h enclosing
  obtain ⟨left, builds₁, allowFds, clean⟩ := builds.noted expects
  -- from here on, a failure that does not poison is a refusal
  have refusal : Refused env m.allowFds v → m' = m₁ → m'.poisoned = true ∨
      ∃ left, Builds m' b left ∧ m'.allowFds = m.allowFds ∧
        (left = [] ↔ leftover = [] ∧ ¬ (b.frames = [] ∧ Refused env m.allowFds v)) := by
    rintro refused rfl
    exact .inr ⟨left, builds₁, allowFds, by simpa [refused] using clean⟩
  rcases check_eq_error.mp failed with ⟨invalid, same, -⟩ | ⟨-, failed⟩
  · exact refusal (.inl (by simpa using invalid)) same
  rcases bind_eq_error.mp failed with failed | ⟨fds, m₂, -, failed⟩
  · rcases pushValueFd_error failed with poisoned | ⟨same, refused⟩
    · exact .inl poisoned
    · exact refusal (allowFds ▸ refused) same
  rcases bind_eq_error.mp failed with failed | ⟨a, m₃, -, failed⟩
  · exact .inl (messageExtendBody_poisons _ _ failed)
  · simp at failed

/-- A call that fails has made the message unusable, or has left it as it was. -/
def Harmless (m : Message) (x : BusM α) : Prop :=
  ∀ ⦃err m'⦄, x m = .error err m' → m'.poisoned = true ∨ m' = m

namespace Harmless

theorem check {p : Prop} [Decidable p] {e : Errno} {f : PUnit → BusM α} (rest : p → Harmless m (f ⟨⟩)) :
    Harmless m (check p e >>= f) := by
  intro err m' failed
  rcases check_eq_error.mp failed with ⟨-, same, -⟩ | ⟨holds, failed⟩
  · exact .inr same
  · exact rest holds failed

theorem expect {s : CString} {f : Nat → BusM α} (rest : ∀ n, Poisons (f n)) :
    Harmless m (expectSignature env s >>= f) := by
  intro err m' failed
  rcases bind_eq_error.mp failed with failed | ⟨n, m₁, -, failed⟩
  · exact (expectSignature_error failed).imp_right And.left
  · exact .inl (rest n failed)

theorem of_poisons {x : BusM α} (poisons : Poisons x) : Harmless m x := fun _ _ failed => .inl (poisons failed)

end Harmless

theorem messageOpen_harmless : Harmless m (messageOpen env type contents) := by
  cases type with
  | array =>
    refine .check fun accepted => .expect fun n => ?_
    cases aligned : contents.head?.bind busTypeGetAlignment with
    | none => exact absurd aligned (alignment_of_accepts accepted)
    | some alignment =>
      refine .bind (messageExtendBody_poisons _ _) fun _ => .get_bind fun _ => ?_
      exact .bind (messageExtendBody_poisons _ _) fun _ => .get_bind fun _ => .modify_bind (.modify_bind (.of_pure _))
  | variant =>
    refine .check fun _ => .expect fun n => ?_
    exact .bind (messageExtendBody_poisons _ _) fun _ => .modify_bind (.modify_bind (.of_pure _))
  | struct =>
    refine .check fun _ => .expect fun n => ?_
    exact .bind (messageExtendBody_poisons _ _) fun _ => .modify_bind (.of_pure _)
  | dictEntry =>
    refine .check fun _ => .check fun _ => .check fun _ => .of_poisons ?_
    exact .bind (messageExtendBody_poisons _ _) fun _ => .of_pure _

theorem open_error (builds : Builds m b leftover) (failed : openContainer env type contents m = .error err m') :
    m'.poisoned = true ∨ Builds m' b leftover ∧ m'.allowFds = m.allowFds := by
  rcases check_eq_error.mp failed with ⟨isSealed, -⟩ | ⟨-, failed⟩
  · exact absurd builds.unsealed isSealed
  rcases check_eq_error.mp failed with ⟨poisoned, -⟩ | ⟨-, failed⟩
  · exact absurd builds.usable poisoned
  rcases bind_eq_error.mp failed with failed | ⟨a, m₁, allocates, failed⟩
  · exact .inl (Poisons.of_allocate failed)
  obtain ⟨-, rfl⟩ := allocate_eq_ok.mp allocates
  rcases bind_eq_error.mp failed with failed | ⟨a', m₂, allocates', failed⟩
  · exact .inl (Poisons.of_allocate failed)
  obtain ⟨-, rfl⟩ := allocate_eq_ok.mp allocates'
  simp only [modify_bind] at failed
  rcases bind_eq_error.mp failed with failed | ⟨q, m₃, -, failed⟩
  · rcases messageOpen_harmless failed with poisoned | rfl
    · exact .inl poisoned
    · exact .inr builds.saveIndex
  · simp at failed

theorem close_harmless : Harmless m closeContainer :=
  .check fun _ => .check fun _ => .check fun _ => .check fun _ => .of_poisons (.of_modify _)

/-- A call that fails poisons the message or leaves the building alone; it leaves a type
over if it appends a value at the top level that is refused. -/
theorem run_error (builds : Builds m b leftover) (failed : call.run env m = .error err m') :
    m'.poisoned = true ∨ ∃ left, Builds m' b left ∧ m'.allowFds = m.allowFds ∧
      (left = [] ↔ leftover = [] ∧ (b.frames = [] → ∀ v, call = .append v → ¬ Refused env m.allowFds v)) := by
  cases call with
  | append v =>
    rcases append_error builds failed with poisoned | ⟨left, builds', allowFds, clean⟩
    · exact .inl poisoned
    · exact .inr ⟨left, builds', allowFds, by simpa using clean⟩
  | openContainer type contents =>
    rcases open_error builds failed with poisoned | ⟨builds', allowFds⟩
    · exact .inl poisoned
    · exact .inr ⟨leftover, builds', allowFds, by simp⟩
  | closeContainer =>
    rcases close_harmless failed with poisoned | rfl
    · exact .inl poisoned
    · exact .inr ⟨leftover, builds, rfl, by simp⟩

/-- A message that is unusable takes no call, and stays as it is. -/
theorem run_poisoned (poisoned : m.poisoned = true) (call : Call) : ∃ err, call.run env m = .error err m := by
  have refused : ∀ {e : Errno} {f : PUnit → BusM PUnit},
      (check (m.poisoned = false) e >>= f) m = .error (.errno e) m := fun {e f} =>
    check_eq_error.mpr (.inl ⟨by simp [poisoned], rfl, rfl⟩)
  by_cases isSealed : m.isSealed = false
  · cases call with
    | append _ | openContainer _ _ => exact ⟨_, (check_bind_of isSealed).trans refused⟩
    | closeContainer =>
      by_cases some_open : m.containers ≠ []
      · exact ⟨_, (check_bind_of isSealed).trans ((check_bind_of some_open).trans refused)⟩
      · exact ⟨_, (check_bind_of isSealed).trans (check_eq_error.mpr (.inl ⟨some_open, rfl, rfl⟩))⟩
  · cases call with
    | append _ | openContainer _ _ | closeContainer => exact ⟨_, check_eq_error.mpr (.inl ⟨isSealed, rfl, rfl⟩)⟩

/-! ## Sequences of calls -/

/-- Makes one call after the other; gives those that succeeded, and the message. -/
def runEach (env : Env) : List Call → Message → List Call × Message
  | [], m => ([], m)
  | call :: calls, m =>
    match call.run env m with
    | .ok _ m' =>
      let rest := runEach env calls m'
      (call :: rest.1, rest.2)
    | .error _ m' => runEach env calls m'

theorem runEach_append (xs ys : List Call) (m : Message) : runEach env (xs ++ ys) m =
      ((runEach env xs m).1 ++ (runEach env ys (runEach env xs m).2).1, (runEach env ys (runEach env xs m).2).2) := by
  induction xs generalizing m with
  | nil => rfl
  | cons call xs ih =>
    simp only [cons_append, runEach]
    cases call.run env m with
    | ok u m' => simp [ih]
    | error e m' => simp [ih]

/-- After the last call that succeeds, no call appends a value that is refused. -/
def NoneRefusedLast (env : Env) (m : Message) (calls : List Call) : Prop :=
  ∀ front last, calls = front ++ last → (runEach env last (runEach env front m).2).1 = [] →
    ∀ v, .append v ∈ last → ¬ Refused env m.allowFds v

theorem noneRefusedLast_of_ok (done : call.run env (runEach env calls m).2 = .ok ⟨⟩ m') :
    NoneRefusedLast env m (calls ++ [call]) := by
  intro front last split allFail
  rcases eq_nil_or_concat last with rfl | ⟨before, c, rfl⟩
  · simp
  · rw [concat_eq_append, ← append_assoc] at split
    obtain ⟨rfl, same⟩ := append_inj' split rfl
    obtain rfl := singleton_inj.mp same
    rw [concat_eq_append, runEach_append] at allFail
    rw [runEach_append] at done
    simp only [runEach, done] at allFail
    simp at allFail

theorem noneRefusedLast_of_error (failed : call.run env (runEach env calls m).2 = .error err m') :
    NoneRefusedLast env m (calls ++ [call]) ↔
      NoneRefusedLast env m calls ∧ ∀ v, call = .append v → ¬ Refused env m.allowFds v := by
  have one : (runEach env [call] (runEach env calls m).2).1 = [] := by simp [runEach, failed]
  constructor
  · intro none
    refine ⟨fun front last split allFail v member => ?_, fun v isAppend => ?_⟩
    · refine none front (last ++ [call]) (by rw [split, append_assoc]) ?_ v (mem_append_left _ member)
      rw [runEach_append, allFail]
      rwa [split, runEach_append] at one
    · exact none calls [call] rfl one v (by simp [isAppend])
  · rintro ⟨before, this⟩ front last split allFail v member
    rcases eq_nil_or_concat last with rfl | ⟨rest, c, rfl⟩
    · simp at member
    · rw [concat_eq_append, ← append_assoc] at split
      obtain ⟨rfl, same⟩ := append_inj' split rfl
      obtain rfl := singleton_inj.mp same
      rw [concat_eq_append, runEach_append, append_eq_nil_iff] at allFail
      rw [concat_eq_append] at member
      rcases mem_append.mp member with earlier | last
      · exact before front rest rfl allFail.1 v earlier
      · exact this v (mem_singleton.mp last).symm

/-- After any calls the message is unusable, or stands for the building of those that
succeeded. -/
theorem runEach_builds (builds : Builds m b []) (calls : List Call) : (runEach env calls m).2.poisoned = true ∨
      ∃ left, Builds (runEach env calls m).2 ((runEach env calls m).1.foldl Building.step b) left ∧
        ((runEach env calls m).1.foldl Building.step b).calls = b.calls ++ (runEach env calls m).1 ∧
        (runEach env calls m).2.allowFds = m.allowFds ∧
        (left = [] ↔ (((runEach env calls m).1.foldl Building.step b).frames = [] →
          NoneRefusedLast env m calls)) := by
  induction calls using List.reverseRecOn with
  | nil =>
    refine .inr ⟨[], builds, by simp [runEach], rfl, iff_of_true rfl fun _ => ?_⟩
    intro front last split _ v member
    rw [nil_eq, append_eq_nil_iff] at split
    simp [split.2] at member
  | append_singleton calls call ih =>
    rw [runEach_append]
    rcases ih with poisoned | ⟨left, there, sameCalls, allowFds, clean⟩
    · obtain ⟨err, refused⟩ : ∃ err, call.run env (runEach env calls m).2 = .error err _ := run_poisoned poisoned call
      simp only [runEach, refused]
      exact .inl poisoned
    · generalize eq : call.run env (runEach env calls m).2 = outcome
      cases outcome with
      | ok u m' =>
        obtain ⟨next, allowFds', nextCalls⟩ := run_ok there eq
        simp only [runEach, eq, foldl_append, foldl_cons, foldl_nil]
        refine .inr ⟨[], next, ?_, allowFds'.trans allowFds, iff_of_true rfl fun _ =>
          noneRefusedLast_of_ok eq⟩
        rw [nextCalls, sameCalls, append_assoc]
      | error err m' =>
        simp only [runEach, eq, append_nil]
        rcases run_error there eq with poisoned | ⟨left', builds', allowFds', clean'⟩
        · exact .inl poisoned
        · refine .inr ⟨left', builds', sameCalls, allowFds'.trans allowFds, ?_⟩
          rw [clean', clean, noneRefusedLast_of_error eq, allowFds]
          exact ⟨fun h top => ⟨h.1 top, h.2 top⟩, fun h => ⟨fun top => (h top).1, fun top => (h top).2⟩⟩

/-- What is sealed after any calls has the body of those that succeeded, and their signature unless a
value was refused after the last of them: those of a message that got these calls alone. -/
theorem sealed_signature_iff {env : Env} {allowFds isMethodReturn : Bool} {enforced : Option CString}
    {calls : List Call} {cookie : Nat} {m : Message}
    (done : messageSeal env cookie (runEach env calls (.new allowFds isMethodReturn enforced)).2 = .ok ⟨⟩ m) :
    let succeeded := (runEach env calls (.new allowFds isMethodReturn enforced)).1
    callsOf (valuesOf succeeded) = succeeded ∧
      (∀ env' m', runAll env' succeeded (.new allowFds isMethodReturn enforced) = .ok ⟨⟩ m' →
        m'.body = encodeAll 0 (valuesOf succeeded) ∧
          m'.rootContainer.signature = signatures (valuesOf succeeded)) ∧
      ((m.body = encodeAll 0 (valuesOf succeeded) ∧
          m.rootContainer.signature = signatures (valuesOf succeeded)) ↔
        NoneRefusedLast env (.new allowFds isMethodReturn enforced) calls) := by
  have fresh := new_builds allowFds isMethodReturn enforced
  obtain ⟨closed, usable, n, rfl⟩ := messageSeal_ok done
  rcases runEach_builds fresh calls with poisoned | ⟨left, builds, sameCalls, -, clean⟩
  · rw [poisoned] at usable
    cases usable
  have top := builds.top_of_closed closed
  obtain ⟨body, -, signature⟩ := builds.complete top
  refine ⟨?_, fun env' m' again => ?_, ?_⟩
  · rwa [Building.calls, top] at sameCalls
  · obtain ⟨alone, -⟩ := runAll_builds fresh again
    obtain ⟨body', -, signature'⟩ := alone.complete top
    rw [append_nil] at signature'
    exact ⟨body', signature'⟩
  · refine Iff.trans ⟨fun same => ?_, fun none_left => ⟨body, ?_⟩⟩ (clean.trans ⟨fun h => h top, fun h _ => h⟩)
    · exact append_right_eq_self.mp (signature.symm.trans same.2)
    · rwa [none_left, append_nil] at signature

/-- An environment in which nothing goes wrong. -/
def Env.plenty : Env := ⟨fun _ => some ⟨true, fun _ => 0⟩, .ok⟩

/-- A byte, an object path that is refused and one that is not. -/
theorem sealed_signature_between :
    let refused : List Call := [.append (.byte 7), .append (.objectPath ⟨[], by simp⟩)]
    let path : Call := .append (.objectPath ⟨cstr "/", by decide⟩)
    ∃ m, messageSeal .plenty 1 (runEach .plenty (refused ++ [path]) (.new true false none)).2 = .ok ⟨⟩ m ∧
      m.body = encodeAll 0 (valuesOf [.append (.byte 7), path]) ∧
      m.rootContainer.signature = signatures (valuesOf [.append (.byte 7), path]) := by
  intro refused path
  obtain ⟨_, _, last⟩ := succeeds_iff.mp
    (show succeeds (path.run .plenty (runEach .plenty refused (.new true false none)).2) = true by decide +kernel)
  have done : messageSeal .plenty 1 (runEach .plenty (refused ++ [path]) (.new true false none)).2 = .ok ⟨⟩ _ := rfl
  have succeeded : (runEach .plenty (refused ++ [path]) (.new true false none)).1 = [.append (.byte 7), path] := rfl
  exact ⟨_, done, succeeded ▸ (sealed_signature_iff done).2.2.mpr (noneRefusedLast_of_ok last)⟩

/-- An object path that is none is refused, and then the message is sealed: it announces
an object path and has no body. -/
theorem sealed_after_refused :
    ∃ m, (runEach .plenty [.append (.objectPath ⟨[], by simp⟩)] (.new true false none)).1 = [] ∧
      messageSeal .plenty 1
        (runEach .plenty [.append (.objectPath ⟨[], by simp⟩)] (.new true false none)).2 = .ok ⟨⟩ m ∧
      m.rootContainer.signature = [BasicType.objectPath.code] ∧ m.body = [] ∧
      m.rootContainer.signature ≠ signatures (valuesOf []) :=
  ⟨_, rfl, rfl, rfl, rfl, by decide⟩

end SystemdPort.Bus
