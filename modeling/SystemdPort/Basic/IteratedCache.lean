/-
# Basic.IteratedCache — cached arrays of a hashmap's keys and values

`iterated_cache_get()` of `src/basic/hashmap.c` hands out arrays of the keys and the values of a hashmap, in
the order of its buckets, and fills them anew only if they were not in use or the hashmap is dirty.

Where an entry is among the buckets depends on hash functions and on a random key.  So a call that moves
entries comes with the order it leaves them in, which may be any.  `resize_buckets()` moves entries
without making the hashmap dirty: arrays filled before and after it do not match (`resized_cache_mispaired`).
As long as the hashmap is dirty whenever it is resized for its own sake, they do (`iterated_cache_paired`).
-/
import SystemdPort.Basic.Errno
import SystemdPort.Lib.Run

namespace SystemdPort.Basic

set_option autoImplicit false

open Lib List

variable {K V α : Type} [DecidableEq K] [DecidableEq V]

/-! ## Hashmaps -/

structure HashmapBase (K V : Type) where
  /-- In the order of iteration. -/
  entries : List (K × V) := []
  /-- The buckets in indirect storage, if that is in use. -/
  indirect : Option Nat := none
  dirty : Bool := false

/-- `n_direct_buckets` for entries of a size: `struct direct_storage` has 39 bytes, and a DIB one. -/
def nDirectBuckets (entrySize : Nat) : Nat := 39 / (entrySize + 1)

def HashmapBase.nBuckets (entrySize : Nat) (h : HashmapBase K V) : Nat := h.indirect.getD (nDirectBuckets entrySize)

/-- What is needed for `n` entries, with a fifth of the buckets free. -/
def bucketsFor (n : Nat) : Nat := n + n / 4

/-- There are not enough buckets for `add` more entries. -/
def HashmapBase.grows (entrySize add : Nat) (h : HashmapBase K V) : Prop :=
  ¬ (h.indirect = none ∧ h.entries.length + add ≤ nDirectBuckets entrySize) ∧
    h.nBuckets entrySize < bucketsFor (h.entries.length + add)

instance (entrySize add : Nat) (h : HashmapBase K V) : Decidable (h.grows entrySize add) :=
  inferInstanceAs (Decidable (_ ∧ _))

/-- What a call that moves entries depends on: whether `realloc()` succeeds, and the order it leaves. -/
structure Placement (K V : Type) where
  memory : Bool := true
  order : List (K × V)

/-- `resize_buckets()`: whether it succeeded, and the hashmap after that; nothing is known after
`1U << new_shift` for a shift by 32. -/
def resizeBuckets (entrySize add : Nat) (memory : Bool) (order : List (K × V)) (h : HashmapBase K V) :
    Option (Bool × HashmapBase K V) :=
  let n := h.entries.length + add
  if 2 ^ 32 ≤ n then some (false, h)
  else if h.indirect = none ∧ n ≤ nDirectBuckets entrySize then some (true, h)
  else if 2 ^ 32 ≤ bucketsFor n ∨ (2 ^ 32 - 1) / (entrySize + 1) < bucketsFor n then some (false, h)
  else if bucketsFor n ≤ h.nBuckets entrySize then some (true, h)
  else
    let newShift := Nat.clog 2 (max (bucketsFor n * (entrySize + 1)) (2 * 39))
    if 32 ≤ newShift then none
    else if memory = false then some (false, h)
    else some (true, { h with entries := order, indirect := some (2 ^ newShift / (entrySize + 1)) })

/-- The new buckets, if they are resized, have at most 2³¹ bytes or are refused. -/
def HashmapBase.Shifts (entrySize add : Nat) (h : HashmapBase K V) : Prop :=
  let size := bucketsFor (h.entries.length + add) * (entrySize + 1)
  h.grows entrySize add → size ≤ 2 ^ 31 ∨ 2 ^ 32 ≤ size

instance (entrySize add : Nat) (h : HashmapBase K V) : Decidable (h.Shifts entrySize add) :=
  inferInstanceAs (Decidable (_ → _))

/-- The calls that change a hashmap. -/
inductive HashmapCall (K V : Type) where
  | put (key : K) (value : V) (placement : Placement K V)
  | remove (key : K) (placement : Placement K V)
  | reserve (add : Nat) (placement : Placement K V)
  /-- `_hashmap_move()` from a hashmap with these entries -/
  | moveFrom (other : List (K × V)) (placement : Placement K V)
  /-- `_hashmap_move()` to a hashmap with these keys -/
  | moveTo (other : List K) (placement : Placement K V)

def HashmapBase.contains (h : HashmapBase K V) (key : K) : Bool := h.entries.any (·.1 = key)

/-- Entries are added or removed, which makes the hashmap dirty. -/
def HashmapBase.replaceEntries (h : HashmapBase K V) (entries : List (K × V)) (placement : Placement K V) :
    Option (HashmapBase K V) :=
  if placement.order.isPerm entries then some { h with entries := placement.order, dirty := true } else none

/-- What a call does, if its order is one of the entries that are then there. -/
def HashmapCall.run (entrySize : Nat) (h : HashmapBase K V) : HashmapCall K V → Option (HashmapBase K V)
  | put key value placement =>
      if h.contains key then some h
      else do
        let (resized, h') ← resizeBuckets entrySize 1 placement.memory h.entries h
        if resized then h'.replaceEntries ((key, value) :: h.entries) placement else some h
  | remove key placement =>
      if h.contains key then h.replaceEntries (h.entries.filter (·.1 ≠ key)) placement else some h
  | reserve add placement =>
      if placement.order.isPerm h.entries then
        (resizeBuckets entrySize add placement.memory placement.order h).map Prod.snd
      else none
  | moveFrom other placement =>
      let moved := other.filter fun e => !h.contains e.1
      if moved = [] then
        if placement.order.isPerm h.entries then
          (resizeBuckets entrySize other.length placement.memory placement.order h).map Prod.snd
        else none
      else do
        let (resized, h') ← resizeBuckets entrySize other.length placement.memory h.entries h
        if resized then h'.replaceEntries (h.entries ++ moved) placement else some h
  | moveTo other placement =>
      if h.entries.all (·.1 ∈ other) then some h
      else h.replaceEntries (h.entries.filter (·.1 ∈ other)) placement

/-! ## The cache -/

/-- An array with everything that is allocated for it. -/
structure CacheMem (α : Type) where
  ptr : List α := []
  active : Bool := false

structure IteratedCache (K V : Type) where
  hashmap : HashmapBase K V := {}
  keys : CacheMem K := {}
  values : CacheMem V := {}

/-- Which arrays a call asks for, and what `realloc()` would add to each, if it succeeds. -/
structure CacheRequest (K V : Type) where
  keys : Bool
  values : Bool
  some_array : keys = true ∨ values = true
  moreKeys : Option (List K) := none
  moreValues : Option (List V) := none

structure CacheReply (K V : Type) where
  keys : Option (List K)
  values : Option (List V)
  nEntries : Nat

/-- `cachemem_maintain()` for an array that is asked for; the result tells whether it has to be filled. -/
def CacheMem.maintain (asked : Bool) (more : Option (List α)) (size : Nat) (mem : CacheMem α) :
    Option (CacheMem α × Bool) :=
  if asked then
    if size ≤ mem.ptr.length then some (⟨mem.ptr, true⟩, !mem.active)
    else
      match more with
      | none => none
      | some new => if size ≤ mem.ptr.length + new.length then some (⟨mem.ptr ++ new, true⟩, !mem.active) else none
  else some (⟨mem.ptr, false⟩, false)

/-- The loop over the buckets, for one of the arrays. -/
def CacheMem.fill (sync : Bool) (contents : List α) (mem : CacheMem α) : CacheMem α :=
  if sync then { mem with ptr := contents ++ mem.ptr.drop contents.length } else mem

/-- `iterated_cache_get()`, which has no reply if there is no memory. -/
def iteratedCacheGet (request : CacheRequest K V) (c : IteratedCache K V) : Option (CacheReply K V) × IteratedCache K V :=
  let h := c.hashmap
  let size := h.entries.length
  match c.keys.maintain request.keys request.moreKeys size with
  | none => (none, c)
  | some (keys, syncKeys) =>
    match c.values.maintain request.values request.moreValues size with
    | none => (none, { c with keys })
    | some (values, syncValues) =>
      let keys := keys.fill (syncKeys || h.dirty && keys.active) (h.entries.map Prod.fst)
      let values := values.fill (syncValues || h.dirty && values.active) (h.entries.map Prod.snd)
      (some {
        keys := if request.keys then some (keys.ptr.take size) else none
        values := if request.values then some (values.ptr.take size) else none
        nEntries := size },
      { hashmap := { h with dirty := false }, keys, values })

inductive CacheCall (K V : Type) where
  | change (call : HashmapCall K V)
  | get (request : CacheRequest K V)

def CacheCall.step (entrySize : Nat) (c : IteratedCache K V) :
    CacheCall K V → Option (IteratedCache K V × Option (CacheReply K V))
  | change call => (call.run entrySize c.hashmap).map fun hashmap => ({ c with hashmap }, none)
  | get request => some ((iteratedCacheGet request c).2, (iteratedCacheGet request c).1)

/-- A resize that adds no entry is for a dirty hashmap, and none is for more than 2³¹ bytes. -/
def CacheCall.Calm (entrySize : Nat) (h : HashmapBase K V) : CacheCall K V → Prop
  | change (.put key _ _) => h.contains key = false → h.Shifts entrySize 1
  | change (.reserve add _) => h.Shifts entrySize add ∧ (h.grows entrySize add → h.dirty = true)
  | change (.moveFrom other _) => h.Shifts entrySize other.length ∧
      ((∀ e ∈ other, h.contains e.1 = true) → h.grows entrySize other.length → h.dirty = true)
  | _ => True

instance (entrySize : Nat) (h : HashmapBase K V) : (call : CacheCall K V) → Decidable (call.Calm entrySize h)
  | .change (.put _ _ _) => inferInstanceAs (Decidable (_ → _))
  | .change (.reserve _ _) => inferInstanceAs (Decidable (_ ∧ (_ → _)))
  | .change (.moveFrom _ _) => inferInstanceAs (Decidable (_ ∧ (_ → _ → _)))
  | .change (.remove _ _) | .change (.moveTo _ _) | .get _ => inferInstanceAs (Decidable True)

/-- A step of a run in which every resize is calm. -/
def CacheCall.calmStep (entrySize : Nat) (c : IteratedCache K V) (call : CacheCall K V) :
    Option (IteratedCache K V × Option (CacheReply K V)) :=
  if call.Calm entrySize c.hashmap then call.step entrySize c else none

/-! ## What is in the arrays -/

/-- The arrays in use are those of the entries, unless the hashmap is dirty.  So is the first array while there is
no memory for the second. -/
structure Synced (c : IteratedCache K V) : Prop where
  keys : c.hashmap.dirty = false → c.keys.active = true ∨ c.values.ptr.length < c.hashmap.entries.length →
    c.keys.ptr.take c.hashmap.entries.length = c.hashmap.entries.map Prod.fst
  values : c.hashmap.dirty = false → c.values.active = true →
    c.values.ptr.take c.hashmap.entries.length = c.hashmap.entries.map Prod.snd

section Steps

variable {h h' : HashmapBase K V} {c c' : IteratedCache K V} {entrySize : Nat} {mem mem' : CacheMem α}
  {asked sync : Bool} {more : Option (List α)} {size : Nat}

omit [DecidableEq K] [DecidableEq V] in
theorem synced_of_dirty (dirty : c.hashmap.dirty = true) : Synced c := by
  constructor <;> simp [dirty]

theorem replaceEntries_dirty {entries : List (K × V)} {placement : Placement K V}
    (replaced : h.replaceEntries entries placement = some h') : h'.dirty = true := by
  unfold HashmapBase.replaceEntries at replaced
  split at replaced
  · cases replaced
    rfl
  · cases replaced

omit [DecidableEq K] [DecidableEq V] in
theorem resizeBuckets_calm {add : Nat} {memory resized : Bool} {order : List (K × V)}
    (calm : h.grows entrySize add → h.dirty = true)
    (done : resizeBuckets entrySize add memory order h = some (resized, h')) : h' = h ∨ h'.dirty = true := by
  unfold resizeBuckets at done
  dsimp only at done
  split_ifs at done with _ direct _ enough <;> cases done
  -- only the last branch gives new storage
  case neg.refl => exact .inr (calm ⟨direct, Nat.lt_of_not_le enough⟩)
  all_goals exact .inl rfl

/-- In a calm run the hashmap is as before, or dirty. -/
theorem HashmapCall.run_calm {call : HashmapCall K V} (calm : (CacheCall.change call).Calm entrySize h)
    (ran : call.run entrySize h = some h') : h' = h ∨ h'.dirty = true := by
  have added : ∀ {add : Nat} {entries : List (K × V)} {placement : Placement K V},
      (do let (resized, h') ← resizeBuckets entrySize add placement.memory h.entries h
          if resized then h'.replaceEntries entries placement else some h) = some h' → h' = h ∨ h'.dirty = true := by
    intro add entries placement ran
    obtain ⟨⟨resized, h₁⟩, -, ran⟩ := Option.bind_eq_some_iff.mp ran
    dsimp only at ran
    split_ifs at ran
    · exact .inr (replaceEntries_dirty ran)
    · exact .inl (Option.some.inj ran).symm
  cases call with
  | put key value placement =>
    simp only [run] at ran
    split_ifs at ran
    · exact .inl (Option.some.inj ran).symm
    · exact added ran
  | remove key placement =>
    simp only [run] at ran
    split_ifs at ran
    · exact .inr (replaceEntries_dirty ran)
    · exact .inl (Option.some.inj ran).symm
  | reserve add placement =>
    simp only [run] at ran
    split_ifs at ran
    obtain ⟨⟨_, _⟩, done, rfl⟩ := Option.map_eq_some_iff.mp ran
    exact resizeBuckets_calm calm.2 done
  | moveFrom other placement =>
    simp only [run] at ran
    split_ifs at ran with none
    · obtain ⟨⟨_, _⟩, done, rfl⟩ := Option.map_eq_some_iff.mp ran
      refine resizeBuckets_calm (calm.2 fun e member => ?_) done
      simpa using filter_eq_nil_iff.mp none e member
    · exact added ran
  | moveTo other placement =>
    simp only [run] at ran
    split_ifs at ran
    · exact .inl (Option.some.inj ran).symm
    · exact .inr (replaceEntries_dirty ran)

theorem maintain_none (failed : mem.maintain asked more size = none) : mem.ptr.length < size := by
  unfold CacheMem.maintain at failed
  split_ifs at failed with _ enough
  omega

/-- The array is as before up to what was allocated. -/
theorem maintain_some (done : mem.maintain asked more size = some (mem', sync)) :
    mem.ptr <+: mem'.ptr ∧ mem'.active = asked ∧ sync = (asked && !mem.active) := by
  unfold CacheMem.maintain at done
  split_ifs at done with isAsked
  · cases done
    simp [isAsked]
  · split at done
    · cases done
    · split_ifs at done
      cases done
      simp [isAsked]
  · cases done
    simp [isAsked]

theorem take_of_extends {l l' contents : List α} (all : contents.length = size) (before : l.take size = contents)
    (extends_ : l <+: l') : l'.take size = contents := by
  obtain ⟨more, rfl⟩ := extends_
  rw [← before, length_take] at all
  rw [take_append_of_le_length (by omega), before]

@[simp] theorem fill_active (contents : List α) : (mem.fill sync contents).active = mem.active := by
  unfold CacheMem.fill
  split <;> rfl

/-- An array that is asked for has the contents it is to have, if it had them when it is not filled. -/
theorem fill_asked {dirty : Bool} {contents : List α} (all : contents.length = size)
    (done : mem.maintain asked more size = some (mem', sync)) (isAsked : asked = true)
    (before : dirty = false → mem.active = true → mem.ptr.take size = contents) :
    (mem'.fill (sync || dirty && mem'.active) contents).ptr.take size = contents := by
  obtain ⟨extends_, active, rfl⟩ := maintain_some done
  rw [active, isAsked]
  unfold CacheMem.fill
  split
  · rw [← all]
    exact take_left
  · rename_i kept
    simp only [Bool.true_and, Bool.and_true, Bool.or_eq_true, Bool.not_eq_true', not_or, Bool.not_eq_false,
      Bool.not_eq_true] at kept
    exact take_of_extends all (before kept.2 kept.1) extends_

omit [DecidableEq K] [DecidableEq V] in
/-- What is handed out, and what is left in the cache. -/
theorem Synced.get (synced : Synced c) (request : CacheRequest K V) :
    Synced (iteratedCacheGet request c).2 ∧ ∀ reply ∈ (iteratedCacheGet request c).1,
      reply.nEntries = c.hashmap.entries.length ∧
      reply.keys = (if request.keys then some (c.hashmap.entries.map Prod.fst) else none) ∧
      reply.values = (if request.values then some (c.hashmap.entries.map Prod.snd) else none) := by
  unfold iteratedCacheGet
  dsimp only
  cases keysDone : c.keys.maintain request.keys request.moreKeys c.hashmap.entries.length with
  | none => exact ⟨synced, by simp⟩
  | some found =>
    obtain ⟨extends_, activeK, -⟩ := maintain_some keysDone
    cases valuesDone : c.values.maintain request.values request.moreValues c.hashmap.entries.length with
    | none =>
      -- the keys may be in use from now on, and were not filled
      have less := maintain_none valuesDone
      refine ⟨⟨fun clean _ => ?_, synced.values⟩, by simp⟩
      exact take_of_extends (length_map _) (synced.keys clean (.inr less)) extends_
    | some found =>
      obtain ⟨-, activeV, -⟩ := maintain_some valuesDone
      have keysRight (isAsked : request.keys = true) := fill_asked (length_map _) keysDone isAsked
        fun clean active => synced.keys clean (.inl active)
      have valuesRight (isAsked : request.values = true) := fill_asked (length_map _) valuesDone isAsked
        fun clean active => synced.values clean active
      refine ⟨⟨fun _ used => ?_, fun _ used => ?_⟩, ?_⟩
      · by_cases isAsked : request.keys = true
        · exact keysRight isAsked
        · have long := congrArg List.length (valuesRight (request.some_array.resolve_left isAsked))
          rw [length_take, length_map] at long
          rcases used with active | less
          · rw [fill_active, activeK] at active
            exact keysRight active
          · dsimp only at less
            omega
      · rw [fill_active, activeV] at used
        exact valuesRight used
      · rintro reply ⟨⟩
        refine ⟨rfl, ?_, ?_⟩
        · split
          · rw [keysRight (by assumption)]
          · rfl
        · dsimp only
          split
          · rw [valuesRight (by assumption)]
          · rfl

theorem Synced.step (synced : Synced c) {call : CacheCall K V} {result : Option (CacheReply K V)}
    (stepped : call.calmStep entrySize c = some (c', result)) : Synced c' := by
  unfold CacheCall.calmStep at stepped
  split_ifs at stepped with calm
  cases call with
  | get request =>
    cases stepped
    exact (synced.get request).1
  | change call =>
    obtain ⟨h', ran, same⟩ := Option.map_eq_some_iff.mp stepped
    cases same
    rcases HashmapCall.run_calm calm ran with rfl | dirty
    · exact synced
    · exact synced_of_dirty dirty

end Steps

/-- In any run from a new hashmap in which every resize that adds no entry is for a dirty hashmap, the arrays
that a call hands out are the keys and the values of all entries, in one order. -/
theorem iterated_cache_paired (entrySize : Nat) {calls : List (CacheCall K V)} {c : IteratedCache K V}
    {replies : List (CacheReply K V)} (ran : run (fun c call => CacheCall.calmStep entrySize c call) {} calls = some (c, replies))
    (request : CacheRequest K V) {reply : CacheReply K V} (got : (iteratedCacheGet request c).1 = some reply) :
    reply.nEntries = c.hashmap.entries.length ∧
    reply.keys = (if request.keys then some (c.hashmap.entries.map Prod.fst) else none) ∧
    reply.values = (if request.values then some (c.hashmap.entries.map Prod.snd) else none) := by
  have start : Synced ({} : IteratedCache K V) := ⟨by simp, by simp⟩
  exact ((run_invariant (fun _ _ _ _ synced stepped => synced.step stepped) start ran).get request).2 reply got

/-- Two entries are put, and their keys are asked for. -/
def twoEntriesCached : List (CacheCall Nat Nat) :=
  [.change (.put 1 10 ⟨true, [(1, 10)]⟩), .change (.put 2 20 ⟨true, [(1, 10), (2, 20)]⟩),
    .get { keys := true, values := false, some_array := .inl rfl, moreKeys := some [0, 0] }]

def bothArrays : CacheRequest Nat Nat where
  keys := true
  values := true
  some_array := .inl rfl
  moreValues := some [0, 0]

theorem iterated_cache_paired_two : ∃ c replies reply,
    run (fun c call => CacheCall.calmStep 16 c call) {} twoEntriesCached = some (c, replies) ∧
    (iteratedCacheGet bothArrays c).1 = some reply ∧ reply.keys = some [1, 2] ∧ reply.values = some [10, 20] := by
  obtain ⟨⟨c, replies⟩, ran, facts⟩ := Option.any_eq_true _ _ |>.mp (by decide +kernel :
    (run (fun c call => CacheCall.calmStep 16 c call) {} twoEntriesCached).any (fun p =>
      decide (p.1.hashmap.entries = [(1, 10), (2, 20)] ∧ (iteratedCacheGet bothArrays p.1).1.isSome = true)) = true)
  obtain ⟨entries, some_reply⟩ := of_decide_eq_true facts
  obtain ⟨reply, got⟩ := Option.isSome_iff_exists.mp some_reply
  obtain ⟨-, keys, values⟩ := iterated_cache_paired 16 ran bothArrays got
  rw [entries] at keys values
  exact ⟨c, replies, reply, ran, got, keys, values⟩

/-- After the buckets are resized for ten more entries, the keys are those of the old order. -/
theorem resized_cache_mispaired : ∃ c replies reply,
    run (fun c call => CacheCall.step 16 c call) {}
      (twoEntriesCached ++ [.change (.reserve 10 ⟨true, [(2, 20), (1, 10)]⟩)]) = some (c, replies) ∧
    (iteratedCacheGet bothArrays c).1 = some reply ∧ reply.keys = some [1, 2] ∧ reply.values = some [20, 10] ∧
    (1, 20) ∉ c.hashmap.entries := by
  obtain ⟨⟨c, replies⟩, ran, facts⟩ := Option.any_eq_true _ _ |>.mp (by decide +kernel :
    (run (fun c call => CacheCall.step 16 c call) {}
      (twoEntriesCached ++ [.change (.reserve 10 ⟨true, [(2, 20), (1, 10)]⟩)])).any (fun p =>
        decide ((1, 20) ∉ p.1.hashmap.entries ∧ (iteratedCacheGet bothArrays p.1).1.any (fun reply =>
          decide (reply.keys = some [1, 2] ∧ reply.values = some [20, 10])) = true)) = true)
  obtain ⟨missing, some_reply⟩ := of_decide_eq_true facts
  obtain ⟨reply, got, facts⟩ := Option.any_eq_true _ _ |>.mp some_reply
  obtain ⟨keys, values⟩ := of_decide_eq_true facts
  exact ⟨c, replies, reply, ran, got, keys, values, missing⟩

end SystemdPort.Basic
