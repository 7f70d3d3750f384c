/-
# Lib.Exec — rules for code that changes a state and may fail

`EStateM ε σ` is the shape of a C function that works on one object and returns an
error code: a failed call keeps what it changed so far.  The rules here say when a
sequence of such calls succeeds, and what one step does, so that a proof follows the
code call by call.
-/
import Mathlib.Init

namespace SystemdPort.Lib.Exec

set_option autoImplicit false

variable {ε σ α β : Type}

variable {x : EStateM ε σ α} {f : α → EStateM ε σ β} {u : σ} {b : β} {r : EStateM.Result ε σ α} (a : α) (s : σ)

@[simp] theorem pure_apply : (pure a : EStateM ε σ α) s = .ok a s := rfl

@[simp] theorem get_apply : (get : EStateM ε σ σ) s = .ok s s := rfl

@[simp] theorem modify_apply (f : σ → σ) (s : σ) : (modify f : EStateM ε σ PUnit) s = .ok ⟨⟩ (f s) := rfl

@[simp] theorem throw_apply (e : ε) (s : σ) : (throw e : EStateM ε σ α) s = .error e s := rfl

theorem bind_apply (x : EStateM ε σ α) (f : α → EStateM ε σ β) (s : σ) :
    (x >>= f) s = match x s with
      | .ok a t => f a t
      | .error e t => .error e t := rfl

/-- A call that succeeds hands its state to what follows. -/
theorem bind_of_ok {s t : σ} {a : α} (first : x s = .ok a t) : (x >>= f) s = f a t := by
  rw [bind_apply, first]

/-- A sequence succeeds only if each call in it does. -/
theorem bind_eq_ok {s : σ} : (x >>= f) s = .ok b u ↔ ∃ a t, x s = .ok a t ∧ f a t = .ok b u := by
  rw [bind_apply]
  constructor
  · intro whole
    split at whole
    · rename_i a t first
      exact ⟨a, t, first, whole⟩
    · simp at whole
  · rintro ⟨a, t, first, second⟩
    rwa [first]

/-- A sequence fails with its first call, or behind it. -/
theorem bind_eq_error {s : σ} {e : ε} :
    (x >>= f) s = .error e u ↔ x s = .error e u ∨ ∃ a t, x s = .ok a t ∧ f a t = .error e u := by
  rw [bind_apply]
  cases x s with
  | ok a t =>
    constructor
    · intro second
      exact .inr ⟨a, t, rfl, second⟩
    · rintro (first | ⟨a, t, first, second⟩)
      · cases first
      · cases first
        exact second
  | error e' t =>
    constructor
    · intro whole
      cases whole
      exact .inl rfl
    · rintro (first | ⟨a, t, first, second⟩)
      · cases first
        rfl
      · cases first

/-- The same for code that changes no state. -/
theorem except_bind_eq_ok {x : Except ε α} {f : α → Except ε β} : x >>= f = .ok b ↔ ∃ a, x = .ok a ∧ f a = .ok b := by
  cases x with
  | error e =>
    constructor
    · intro whole
      cases whole
    · rintro ⟨a, first, second⟩
      cases first
  | ok a =>
    constructor
    · intro whole
      exact ⟨a, rfl, whole⟩
    · rintro ⟨a, first, second⟩
      cases first
      exact second

def succeeds : EStateM.Result ε σ α → Bool
  | .ok _ _ => true
  | .error _ _ => false

theorem succeeds_iff : succeeds r = true ↔ ∃ a s, r = .ok a s := by
  cases r <;> simp [succeeds]

/-- Success with a result and a state that pass a check. -/
def returns (r : EStateM.Result ε σ α) (p : α → σ → Bool) : Bool :=
  match r with
  | .ok a s => p a s
  | .error _ _ => false

theorem returns_iff {p : α → σ → Bool} : returns r p = true ↔ ∃ a s, r = .ok a s ∧ p a s = true := by
  constructor
  · intro passed
    cases r with
    | ok a s => exact ⟨a, s, rfl, passed⟩
    | error e s => cases passed
  · rintro ⟨a, s, rfl, passed⟩
    exact passed

@[simp] theorem get_bind (f : σ → EStateM ε σ β) (s : σ) : (get >>= f) s = f s s := rfl

@[simp] theorem modify_bind (g : σ → σ) (f : PUnit → EStateM ε σ β) (s : σ) : (modify g >>= f) s = f ⟨⟩ (g s) := rfl

@[simp] theorem pure_bind_apply (f : α → EStateM ε σ β) (s : σ) : ((pure a : EStateM ε σ α) >>= f) s = f a s := rfl

/-- `if (!p) return e;` -/
def require (p : Prop) [Decidable p] (e : ε) : EStateM ε σ PUnit :=
  if p then pure ⟨⟩ else throw e

section Require

variable {p : Prop} [Decidable p] {e : ε} {f : PUnit → EStateM ε σ β} {s u : σ} {b : β}

theorem require_of (holds : p) : (require p e >>= f) s = f ⟨⟩ s := by
  rw [require, if_pos holds]
  rfl

theorem require_not (fails : ¬ p) : (require p e >>= f) s = .error e s := by
  unfold require
  rw [if_neg fails]
  rfl

theorem require_bind_eq_ok : (require p e >>= f) s = .ok b u ↔ p ∧ f ⟨⟩ s = .ok b u := by
  by_cases holds : p
  · simp [require_of holds, holds]
  · rw [require]
    simp [holds, bind_apply]

end Require

/-! ## What holds after a run -/

/-- What holds after a run: `post` after success, `onError` after an error. -/
def wp (x : EStateM ε σ α) (post : α → σ → Prop) (onError : ε → σ → Prop) (s : σ) : Prop :=
  match x s with
  | .ok a t => post a t
  | .error e t => onError e t

section Wp

variable {post post' : α → σ → Prop} {onError onError' : ε → σ → Prop} {s : σ}

@[simp] theorem wp_pure {a : α} : wp (pure a) post onError s ↔ post a s := Iff.rfl

variable {e : ε} {g : σ → σ} {f : PUnit → EStateM ε σ α} {x : EStateM ε σ α}

@[simp] theorem wp_throw : wp (throw e) post onError s ↔ onError e s := Iff.rfl

theorem wp_bind {x : EStateM ε σ β} {f : β → EStateM ε σ α} :
    wp (x >>= f) post onError s ↔ wp x (fun b t => wp (f b) post onError t) onError s := by
  rw [wp, wp, bind_apply]
  cases x s <;> rfl

@[simp] theorem wp_get_bind {f : σ → EStateM ε σ α} :
    wp (get >>= f) post onError s ↔ wp (f s) post onError s := Iff.rfl

@[simp] theorem wp_modify_bind : wp (modify g >>= f) post onError s ↔ wp (f ⟨⟩) post onError (g s) := Iff.rfl

@[simp] theorem wp_modify {post : PUnit → σ → Prop} : wp (modify g) post onError s ↔ post ⟨⟩ (g s) := Iff.rfl

theorem wp_mono (run : wp x post onError s) (weaker : ∀ a t, post a t → post' a t)
    (worse : ∀ e t, onError e t → onError' e t) : wp x post' onError' s := by
  revert run
  rw [wp, wp]
  cases x s with
  | ok a t => exact weaker a t
  | error e t => exact worse e t

theorem wp_require_bind {p : Prop} [Decidable p] (failed : ¬ p → onError e s) (next : p → wp (f ⟨⟩) post onError s) :
    wp (require p e >>= f) post onError s := by
  by_cases holds : p
  · rw [wp, require_of holds]
    exact next holds
  · rw [require, if_neg holds]
    exact failed holds

theorem wp_of_error {t : σ} (run : wp x post onError s) (failed : x s = .error e t) : onError e t := by
  rwa [wp, failed] at run

end Wp

/-! ## Runs without errors -/

/-- A run comes back without an error, and `post` holds then. -/
def Goes (x : EStateM ε σ α) (post : α → σ → Prop) (s : σ) : Prop := wp x post (fun _ _ => False) s

section Goes

variable {x : EStateM ε σ α} {f : α → EStateM ε σ β} {post post' : α → σ → Prop} {result : β → σ → Prop} {s t : σ}

variable {a : α} {g : σ → σ}

theorem goes_of_ok (run : x s = .ok a t) (holds : post a t) : Goes x post s := by
  rwa [Goes, wp, run]

theorem Goes.ok (run : Goes x post s) : ∃ a t, x s = .ok a t ∧ post a t := by
  unfold Goes wp at run
  split at run
  · rename_i a t ran
    exact ⟨a, t, ran, run⟩
  · exact run.elim

theorem Goes.bind (first : Goes x post s) (next : ∀ a t, post a t → Goes (f a) result t) : Goes (x >>= f) result s :=
  wp_bind.mpr (wp_mono first next fun _ _ => id)

theorem goes_ok_bind (run : x s = .ok a t) (next : Goes (f a) result t) : Goes (x >>= f) result s := by
  rwa [Goes, wp, bind_of_ok run]

theorem Goes.imp (run : Goes x post s) (weaker : ∀ a t, post a t → post' a t) : Goes x post' s :=
  wp_mono run weaker fun _ _ => id

/-- Where errors are possible later on. -/
theorem Goes.wp_bind {onError : ε → σ → Prop} (first : Goes x post s)
    (next : ∀ a t, post a t → wp (f a) result onError t) : wp (x >>= f) result onError s :=
  Exec.wp_bind.mpr (wp_mono first next fun _ _ => False.elim)

theorem Goes.wp_imp {onError : ε → σ → Prop} (run : Goes x post s) (weaker : ∀ a t, post a t → post' a t) :
    wp x post' onError s := wp_mono run weaker fun _ _ => False.elim

theorem goes_pure (holds : post a s) : Goes (pure a : EStateM ε σ α) post s := holds

theorem goes_get_bind {f : σ → EStateM ε σ α} (run : Goes (f s) post s) : Goes (get >>= f) post s := run

theorem goes_modify_bind {f : PUnit → EStateM ε σ α} (run : Goes (f ⟨⟩) post (g s)) :
    Goes (modify g >>= f) post s := run

theorem goes_modify {post : PUnit → σ → Prop} (holds : post ⟨⟩ (g s)) :
    Goes (modify g : EStateM ε σ PUnit) post s := holds

theorem goes_require_bind {p : Prop} [Decidable p] {e : ε} {f : PUnit → EStateM ε σ α} (holds : p)
    (run : Goes (f ⟨⟩) post s) : Goes (require p e >>= f) post s := by
  rwa [Goes, wp, require_of holds]

end Goes

end SystemdPort.Lib.Exec
