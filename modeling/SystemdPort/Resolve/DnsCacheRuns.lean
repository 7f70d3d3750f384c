/-
# Resolve.DnsCacheRuns — what holds after any history of a cache

Between the calls on a cache, others make, hold and drop keys and records, as they like.  Every call keeps
`Settled`, and so does every history of calls; `cache_intact` says in the terms of the lists, the hash map
and the queue what that means.
-/
import SystemdPort.Resolve.DnsCachePut

namespace SystemdPort.Resolve

set_option autoImplicit false

open Basic Lib Lib.Exec Shared.Dns Function DnsCache

variable {c c' c'' : DnsCache} {i k r : Nat}

/-! ## What others do -/

/-- Others change what they hold, and nothing else. -/
structure Outside (c c' : DnsCache) : Prop where
  held : Held c'
  contents : ∀ k, c.keyLive k → (c'.keys k).key = (c.keys k).key
  calls : ∀ k, .call ∈ (c'.keys k).holders → .call ∈ (c.keys k).holders
  rest : ∃ keys rrs nextKey nextRr, c' = { c with keys, rrs, nextKey, nextRr }

theorem Settled.outside (settled : Settled c) (outside : Outside c c') : Settled c' := by
  have held := outside.held
  obtain ⟨keys, rrs, nextKey, nextRr, rfl⟩ := outside.rest
  exact ⟨settled.rests.kept held rfl rfl rfl (fun _ _ => rfl) rfl outside.contents,
    fun k => mt (outside.calls k) (settled.noCalls k), settled.small⟩

theorem Outside.denies {names : Set DnsResourceKey} (outside : Outside c c') (held : Held c) : Denies names c c' := by
  have contents := outside.contents
  obtain ⟨keys, rrs, nextKey, nextRr, rfl⟩ := outside.rest
  refine ⟨0, ?_⟩
  rintro j κ ⟨cached, type, rfl⟩
  exact .inl ⟨cached, type, congrArg (domain ∘ ValidKey.fold) (contents _ (held.item_live cached.1)).symm⟩

theorem AllPositive.outside {multicast : Bool} (positive : AllPositive multicast c) (outside : Outside c c') :
    AllPositive multicast c' := by
  obtain ⟨keys, rrs, nextKey, nextRr, rfl⟩ := outside.rest
  exact positive

theorem newKey_outside (key : ValidKey) (n : Nat) (held : Held c) :
    Goes (newKey key (.other n)) (fun _ c' => Outside c c') c := by
  have noHolders := held.freshKeys c.nextKey le_rfl
  have run : newKey key (.other n) c = .ok c.nextKey { c with
      keys := update c.keys c.nextKey { key, holders := {.other n} }
      nextKey := c.nextKey + 1 } := rfl
  refine goes_of_ok run ⟨{ held with slots := ?_, freshKeys := ?_ }, ?_, ?_, _, _, _, _, rfl⟩
  · intro s k
    exact (mem_newKey held key _ _ k).trans (or_iff_left (by simp) |>.trans (by cases s <;> exact held.slots _ k))
  · intro k fresh
    have fresh : c.nextKey + 1 ≤ k := fresh
    have := held.freshKeys k (by omega)
    simpa [show k ≠ c.nextKey by omega] using this
  · intro k live
    have : k ≠ c.nextKey := by
      rintro rfl
      exact live noHolders
    simp [this]
  · exact fun k => by simp [mem_newKey held]

theorem keyRef_outside {n : Nat} (held : Held c) (live : c.keyLive k) (missing : .other n ∉ (c.keys k).holders) :
    Goes (dnsResourceKeyRef (.other n) k) (fun _ c' => Outside c c') c := by
  refine goes_of_ok (keyRef_ok live missing) ⟨held.insert live (by simp), fun k' _ => key_setKeyHolders c k k' _, ?_,
    _, _, _, _, rfl⟩
  intro k'
  rw [holders_setKeyHolders]
  split <;> simp

theorem keyUnref_outside {n : Nat} (held : Held c) (holds : .other n ∈ (c.keys k).holders) :
    Goes (dnsResourceKeyUnref (.other n) k) (fun _ c' => Outside c c') c := by
  refine goes_of_ok (keyUnref_ok holds) ⟨held.erase k (by simp), fun k' _ => key_setKeyHolders c k k' _, ?_, _, _, _, _, rfl⟩
  intro k'
  rw [holders_setKeyHolders]
  split <;> simp

theorem rrUnref_outside {n : Nat} (held : Held c) (holds : .other n ∈ (c.rrs r).holders) :
    Goes (dnsResourceRecordUnref (.other n) r) (fun _ c' => Outside c c') c := by
  refine (held.counted.rrUnref holds).imp ?_
  rintro _ c' ⟨counted, contents, others, keys, rfl⟩
  refine ⟨counted.held (fun i k => (others k _ (by simp)).trans (held.slots (.item i) k)) ?_ held.freshItems,
    fun k _ => contents k, fun k => (others k .call (by simp)).mp, _, _, _, _, rfl⟩
  intro i s
  rw [holders_setRrHolders]
  split <;> simp [held.records, setRrHolders]

theorem rrRef_outside {n : Nat} (held : Held c) (live : c.rrLive r) (missing : .other n ∉ (c.rrs r).holders) :
    Goes (dnsResourceRecordRef (.other n) r) (fun _ c' => Outside c c') c := by
  refine goes_of_ok (rrRef_ok live missing) ⟨(held.counted.rrRef live).held (fun i => held.slots (.item i)) ?_
    held.freshItems, fun _ _ => rfl, fun _ => id, _, _, _, _, rfl⟩
  intro i s
  rw [holders_setRrHolders]
  split <;> simp [held.records, setRrHolders]

theorem newRr_outside (record : DnsResourceRecord) (expiry : UInt64) (n : Nat) (held : Held c) (live : c.keyLive k) :
    Goes (newRr k record expiry n) (fun _ c' => Outside c c') c := by
  have noHolders := held.freshRrs c.nextRr le_rfl
  have unused : ¬ c.rrLive c.nextRr := fun live => live noHolders
  have missing : .slot (.rr c.nextRr) ∉ (c.keys k).holders := by
    rw [held.slots]
    exact fun both => unused both.1
  apply goes_ok_bind (keyRef_ok live missing)
  refine goes_modify ⟨⟨?_, ?_, held.freshItems, ?_, ?_⟩, ?_, ?_, _, _, _, _, rfl⟩
  · intro s k'
    have mem : .slot s ∈ ((c.setKeyHolders k (insert (.slot (.rr c.nextRr)))).keys k').holders ↔
        .slot s ∈ (c.keys k').holders ∨ s = .rr c.nextRr ∧ k' = k := by
      by_cases here : k' = k <;> simp [here, or_comm]
    refine mem.trans ?_
    rw [held.slots]
    cases s with
    | item j => simp [inUse, slotKey, setKeyHolders]
    | rr s =>
      by_cases isNew : s = c.nextRr
      · simp [isNew, inUse, slotKey, rrLive, noHolders, eq_comm]
      · simp [isNew, inUse, slotKey, rrLive]
  · intro j r'
    have same : .item j ∈ (update c.rrs c.nextRr { key := k, record, expiry, holders := {.other n} } r').holders ↔
        .item j ∈ (c.rrs r').holders := by
      by_cases isNew : r' = c.nextRr
      · simp [isNew, noHolders]
      · simp [isNew]
    exact same.trans (held.records j r')
  · intro k' fresh
    have none := held.freshKeys k' fresh
    have : k' ≠ k := by
      rintro rfl
      exact live none
    rw [holders_setKeyHolders, if_neg this, none]
  · intro r' fresh
    have fresh : c.nextRr + 1 ≤ r' := fresh
    have := held.freshRrs r' (by omega)
    simpa [show r' ≠ c.nextRr by omega] using this
  · intro k' _
    exact key_setKeyHolders c k k' _
  · intro k'
    rw [holders_setKeyHolders]
    split <;> simp

/-! ## Histories -/

/-- Calls are made with objects that are held, and drop what is held. -/
def CacheCall.ArgsHeld (c : DnsCache) : CacheCall → Prop
  | put args => HeldArgs c args.key args.answer
  | prune _ | flush | makeKey _ _ => True
  | removeByKey k => c.keyLive k
  | removeByRr r => c.rrLive r
  | unlink i => c.allocated i = true
  | holdKey k n => c.keyLive k ∧ .other n ∉ (c.keys k).holders
  | dropKey k n => .other n ∈ (c.keys k).holders
  | makeRr k _ _ _ => c.keyLive k
  | holdRr r n => c.rrLive r ∧ .other n ∉ (c.rrs r).holders
  | dropRr r n => .other n ∈ (c.rrs r).holders

/-- No item without a record is compared with one: the protocol's rules for puts are kept (`PutCareful`), and a record
is removed only where the items of its key have records. -/
def CacheCall.Careful (multicast : Bool) (c : DnsCache) : CacheCall → Prop
  | put args => PutCareful multicast args
  | removeByRr r => PositiveAt c r
  | _ => True

/-- Both: the arguments are held, and the caller is careful. -/
def CacheCall.Allowed (multicast : Bool) (c : DnsCache) (call : CacheCall) : Prop :=
  call.ArgsHeld c ∧ call.Careful multicast c

def runCalls : List CacheCall → CacheM PUnit
  | [] => return
  | call :: calls => do
      call.run
      runCalls calls

/-- Each call of a history is one that may be made in the state it is made in. -/
def EachCall (P : DnsCache → CacheCall → Prop) : List CacheCall → DnsCache → Prop
  | [], _ => True
  | call :: calls, c => P c call ∧ ∀ c', call.run c = .ok ⟨⟩ c' → EachCall P calls c'

def HeldCalls : List CacheCall → DnsCache → Prop := EachCall fun c call => call.ArgsHeld c

def AllowedCalls (multicast : Bool) : List CacheCall → DnsCache → Prop := EachCall fun c call => call.Allowed multicast c

theorem EachCall.mono {P Q : DnsCache → CacheCall → Prop} {calls : List CacheCall} (each : EachCall P calls c)
    (weaker : ∀ c call, P c call → Q c call) : EachCall Q calls c := by
  induction calls generalizing c with
  | nil => trivial
  | cons call calls ih => exact ⟨weaker c call each.1, fun c' ran => ih (each.2 c' ran)⟩

theorem eachCall_append {P : DnsCache → CacheCall → Prop} {calls more : List CacheCall} (each : EachCall P calls c)
    (rest : ∀ c', runCalls calls c = .ok ⟨⟩ c' → EachCall P more c') : EachCall P (calls ++ more) c := by
  induction calls generalizing c with
  | nil => exact rest c rfl
  | cons call calls ih =>
    exact ⟨each.1, fun c' ran => ih (each.2 c' ran) fun c'' ran' => rest c'' (bind_eq_ok.mpr ⟨_, _, ran, ran'⟩)⟩

/-- The class and name that a call says does not exist. -/
def CacheCall.denied (c : DnsCache) : CacheCall → Set DnsResourceKey
  | put args => Resolve.denied args.rcode args.key c
  | _ => ∅

/-- One call keeps what holds between calls, if it comes back, as it does if the caller is careful. -/
theorem Settled.call {multicast : Bool} {sure : Prop} {call : CacheCall} (settled : Settled c) (args : call.ArgsHeld c)
    (positive : sure → AllPositive multicast c) (careful : sure → call.Careful multicast c) :
    wp call.run (fun _ c' => Settled c' ∧ (sure → AllPositive multicast c') ∧ Denies (call.denied c) c c')
      (NoRecord sure) c := by
  have held := settled.rests.held
  have shrinks : ∀ c', Rests c' ∅ ∧ Shrunk c c' →
      Settled c' ∧ (sure → AllPositive multicast c') ∧ Denies (call.denied c) c c' := by
    rintro c' ⟨rests, shrunk⟩
    exact ⟨settled.shrunk rests shrunk, fun isSure => (positive isSure).onward shrunk.onward, shrunk.onward.denies⟩
  have outside : ∀ {x : CacheM PUnit}, Goes x (fun _ c' => Outside c c') c →
      wp x (fun _ c' => Settled c' ∧ (sure → AllPositive multicast c') ∧ Denies (call.denied c) c c') (NoRecord sure) c := by
    intro x goes
    refine goes.wp_imp ?_
    intro _ c' outside
    exact ⟨settled.outside outside, fun isSure => (positive isSure).outside outside, outside.denies held⟩
  cases call with
  | put args' => exact put_ok settled args positive careful
  | prune t => exact (pruneLoop_ok settled.rests settled.noCalls (Nat.lt_succ_self _)).wp_imp fun _ => shrinks
  | flush => exact (flush_ok settled.rests).wp_imp fun _ => shrinks
  | removeByKey k => exact (removeByKey_ok settled.rests args).wp_imp fun _ c' facts => shrinks c' ⟨facts.1, facts.2.1⟩
  | removeByRr r => exact wp_mono (removeByRr_ok settled.rests args careful) (fun _ => shrinks) fun _ _ => id
  | unlink i =>
    exact (unlink_ok settled.rests ⟨args, by simp⟩).wp_imp fun _ c' facts => shrinks c' ⟨facts.1, facts.2.1⟩
  | makeKey key n => exact outside ((newKey_outside key n held).bind fun _ _ facts => goes_pure facts)
  | holdKey k n => exact outside (keyRef_outside held args.1 args.2)
  | dropKey k n => exact outside (keyUnref_outside held args)
  | makeRr k record expiry n => exact outside (newRr_outside record expiry n held args)
  | holdRr r n => exact outside (rrRef_outside held args.1 args.2)
  | dropRr r n => exact outside (rrUnref_outside held args)

theorem Settled.run {multicast : Bool} {sure : Prop} {calls : List CacheCall} (settled : Settled c)
    (positive : sure → AllPositive multicast c) (isHeld : HeldCalls calls c) (allowed : sure → AllowedCalls multicast calls c) :
    wp (runCalls calls) (fun _ c' => Settled c') (NoRecord sure) c := by
  induction calls generalizing c with
  | nil => exact wp_pure.mpr settled
  | cons call calls ih =>
    have step := settled.call isHeld.1 positive fun isSure => (allowed isSure).1.2
    rw [runCalls, wp_bind]
    unfold wp at step ⊢
    cases ran : call.run c with
    | ok a c₁ =>
      rw [ran] at step
      exact ih step.1 step.2.1 (isHeld.2 c₁ ran) fun isSure => (allowed isSure).2 c₁ ran
    | error e c₁ =>
      rw [ran] at step
      exact step

/-- A cache with nothing in it, and no objects; what is at unused addresses does not matter. -/
def newCache (key : ValidKey) : DnsCache where
  keys _ := { key }
  rrs _ := { key := 0, record := bareRecord key, expiry := 0 }
  items _ := { type := .positive, key := 0, rr := none, answer := false, until_ := 0, sharedOwner := false }
  allocated _ := false
  links := { prev := fun _ => none, next := fun _ => none }
  byKey := []
  byExpiry := Prioq.new fun _ => 0
  nextItem := 0
  nextKey := 0
  nextRr := 0

theorem settled_newCache (key : ValidKey) : Settled (newCache key) := by
  have held : Held (newCache key) := by
    refine ⟨?_, ?_, fun _ _ => rfl, fun _ _ => rfl, fun _ _ => rfl⟩
    · intro s k
      cases s <;> simp [newCache, inUse, rrLive]
    · simp [newCache]
  have none : (newCache key).cached ∅ = ∅ := by
    ext i
    simp [mem_cached, newCache]
  refine ⟨⟨fun _ => [], ⟨held, ?_, ?_, ?_, ?_, ?_, ?_⟩, ?_⟩, ?_, ?_⟩
  · exact ⟨by simp, by simp, fun _ => trivial⟩
  · simp [Mapped, newCache]
  · simp [newCache]
  · rw [none]
    exact Prioq.holds_new _ _
  · simp
  · simp [none]
  · simp [none]
  · simp [newCache, NoCalls]
  · simp [newCache, size, Prioq.new]

/-! ## What that means -/

/-- The lists, the hash map and the queue of a cache, where `list` has the list that starts with an item. -/
structure Intact (c : DnsCache) (list : Nat → List Nat) : Prop where
  /-- The value of each entry of the hash map is the first item of a list. -/
  heads : ∀ e ∈ c.byKey, (list e.2).head? = some e.2 ∧ c.links.Linked none (list e.2) ∧ (list e.2).Nodup
  /-- The key of the entry is not freed, and it is that of all items of the list. -/
  keys : ∀ e ∈ c.byKey, c.keyLive e.1 ∧ ∀ i ∈ list e.2, c.sameKey e.1 (c.items i).key = true
  /-- Each item is on the list of one entry, and nothing else is on the lists. -/
  listed : ∀ i, c.allocated i = true → ∃! e, e ∈ c.byKey ∧ i ∈ list e.2
  onlyListed : ∀ e ∈ c.byKey, ∀ i ∈ list e.2, c.allocated i = true
  /-- Each item is in the queue, at its index, and nothing else is in the queue. -/
  queued : ∀ i, c.allocated i = true → c.byExpiry.items[c.byExpiry.slots i]? = some ⟨i, some i⟩
  onlyQueued : ∀ n x, c.byExpiry.items[n]? = some x →
    c.allocated x.data = true ∧ x.idx = some x.data ∧ c.byExpiry.slots x.data = n

theorem Settled.intact (settled : Settled c) : ∃ list, Intact c list := by
  obtain ⟨lists, sound, all⟩ := settled.rests
  have cached : ∀ i, c.allocated i = true ↔ i ∈ c.cached ∅ := by
    simp [mem_cached]
  have kind : ∀ e ∈ c.byKey, c.kind e.1 = c.itemKind e.2 := by
    intro e mem
    rw [sound.own e mem]
    rfl
  have inList : ∀ e ∈ c.byKey, ∀ i, i ∈ lists (c.itemKind e.2) → c.itemKind i = c.kind e.1 := by
    intro e mem i listed
    rw [kind e mem]
    exact sound.listed.kinds _ i listed
  refine ⟨fun h => lists (c.itemKind h), ?_, ?_, ?_, ?_, ?_, ?_⟩
  · intro e mem
    refine ⟨?_, sound.listed.linked _, sound.listed.nodup _⟩
    rw [← kind e mem, sound.mapped.head mem]
  · intro e mem
    refine ⟨sound.liveKeys e mem, fun i listed => ?_⟩
    exact (c.sameKey_iff _ _).mpr (inList e mem i listed).symm
  · intro i allocated
    have stored := all i ((cached i).mp allocated)
    obtain ⟨e, mem, alike⟩ := sound.mapped.entry stored
    refine ⟨e, ⟨mem, ?_⟩, ?_⟩
    · rwa [← kind e mem, alike]
    · rintro e' ⟨mem', listed⟩
      have heads := sound.mapped.head mem'
      rw [← inList e' mem' i listed, ← alike, sound.mapped.head mem] at heads
      have same := Option.some.inj heads
      exact Prod.ext (by rw [sound.own e' mem', sound.own e mem, same]) same.symm
  · intro e mem i listed
    exact (cached i).mpr (sound.inQueue _ i listed)
  · intro i allocated
    obtain ⟨n, there⟩ := List.mem_iff_getElem?.mp ((sound.queued.members i).mpr ((cached i).mp allocated))
    rwa [sound.queued.good.tidy n _ i there rfl]
  · intro n x there
    have mem := List.mem_of_getElem? there
    exact ⟨(cached _).mpr (sound.queued.data_mem mem), sound.queued.own x mem,
      sound.queued.good.tidy n x x.data there (sound.queued.own x mem)⟩

theorem allPositive_newCache (multicast : Bool) (key : ValidKey) : AllPositive multicast (newCache key) := by
  intro _ j cached
  cases cached.1

theorem AllowedCalls.settled {multicast : Bool} {key : ValidKey} {calls : List CacheCall}
    (allowed : AllowedCalls multicast calls (newCache key)) :
    Goes (runCalls calls) (fun _ c => Settled c) (newCache key) :=
  wp_mono ((settled_newCache key).run (fun _ => allPositive_newCache multicast key) (allowed.mono fun _ _ => And.left)
    fun _ => allowed) (fun _ _ => id) fun _ _ failed => failed.2 trivial

/-- After every history, each item is on one list, which the hash map has under a key that is not freed, and once in
the queue; and after an answer is put, there are not too many items.  A history does not come back only if an assertion
fails, as it does not if the callers are careful. -/
theorem cache_intact (multicast : Bool) (key : ValidKey) (calls : List CacheCall)
    (isHeld : HeldCalls calls (newCache key)) :
    (∀ c, runCalls calls (newCache key) = .ok ⟨⟩ c → (∃ list, Intact c list) ∧
      ∀ args, calls.getLast? = some (.put args) → c.size ≤ max cacheMax (args.answer.length + 1)) ∧
    ∀ fault c, runCalls calls (newCache key) = .error fault c →
      fault = .assertion ∧ ¬ AllowedCalls multicast calls (newCache key) := by
  have run : wp (runCalls calls) (fun _ c => Settled c) (NoRecord (AllowedCalls multicast calls (newCache key))) _ :=
    (settled_newCache key).run (fun _ => allPositive_newCache multicast key) isHeld id
  constructor
  · intro c ran
    rw [wp, ran] at run
    exact ⟨run.intact, fun _ _ => run.small.trans (le_max_left _ _)⟩
  · intro fault c ran
    rwa [wp, ran] at run

/-- The key of the addresses of the root. -/
def rootKey : ValidKey :=
  ⟨{ «class» := 1, type := 1, name := [dot] }, [], Labels.nil_iff.mpr (.inr rfl)⟩

/-- Two records with one key are put. -/
def putTwo : List CacheCall :=
  [.makeKey rootKey 0, .makeRr 0 { key := rootKey.1, ttl := 60 } usecInfinity 0,
    .makeRr 0 { key := rootKey.1, ttl := 30, a := ⟨[127, 0, 0, 1], rfl⟩ } usecInfinity 0,
    .put
      { mdns := false, noNegative := false, key := some 0, rcode := .success
        answer := [{ rr := 0, cacheable := true, sharedOwner := false, primary := some true },
          { rr := 1, cacheable := true, sharedOwner := false, primary := some true }]
        hasAnswer := true, queryAuthenticated := false, nsecTtl := 0, now := { boottime := 0, realtime := 0 }
        matchKey := some true, findCname := some false, findSoa := some none }]

theorem putTwo_allowed : AllowedCalls false putTwo (newCache rootKey) := by
  refine ⟨⟨trivial, trivial⟩, ?_⟩
  rintro c₁ ⟨⟩
  refine ⟨⟨show keyLive _ _ by decide +kernel, trivial⟩, ?_⟩
  rintro c₂ ⟨⟩
  refine ⟨⟨show keyLive _ _ by decide +kernel, trivial⟩, ?_⟩
  rintro c₃ ⟨⟩
  refine ⟨⟨⟨?_, ?_⟩, by simp, by simp⟩, fun _ _ => trivial⟩
  · rintro k ⟨⟩
    exact ⟨0, by decide +kernel⟩
  · intro item mem
    rcases List.mem_cons.mp mem with rfl | mem
    · exact ⟨0, by decide +kernel⟩
    · rw [List.mem_singleton.mp mem]
      exact ⟨0, by decide +kernel⟩

theorem cache_intact_two : ∃ c, runCalls putTwo (newCache rootKey) = .ok ⟨⟩ c ∧ c.size = 2 ∧ ∃ list, Intact c list := by
  have two : returns (runCalls putTwo (newCache rootKey)) (fun _ c => c.size = 2) = true := by decide +kernel
  obtain ⟨_, c, ran, size⟩ := returns_iff.mp two
  obtain ⟨intact, -⟩ := (cache_intact false rootKey putTwo (putTwo_allowed.mono fun _ _ => And.left)).1 c ran
  exact ⟨c, ran, by simpa using size, intact⟩

/-! ## Names that do not exist -/

/-- At most one item for each class and name says that there is no such name. -/
def OneNxdomainEach (c : DnsCache) : Prop := ∀ κ i j, c.Nxdomain i κ → c.Nxdomain j κ → i = j

/-- No result says that a name does not exist while there is an item that says so. -/
def DeniedOnce : List CacheCall → DnsCache → Prop := EachCall fun c call => ∀ κ ∈ call.denied c, ∀ i, ¬ c.Nxdomain i κ

theorem OneNxdomainEach.denies {names : Set DnsResourceKey} (one : OneNxdomainEach c) (denies : Denies names c c')
    (none : ∀ κ ∈ names, ∀ i, ¬ c.Nxdomain i κ) : OneNxdomainEach c' := by
  obtain ⟨new, denies⟩ := denies
  intro κ i j isI isJ
  rcases denies i κ isI with oldI | ⟨rfl, newI⟩
  · rcases denies j κ isJ with oldJ | ⟨-, newJ⟩
    · exact one κ i j oldI oldJ
    · exact absurd oldI (none κ newJ i)
  · rcases denies j κ isJ with oldJ | ⟨same, -⟩
    · exact absurd oldJ (none κ newI j)
    · exact same.symm

theorem OneNxdomainEach.run {multicast : Bool} {calls : List CacheCall} (one : OneNxdomainEach c) (settled : Settled c)
    (positive : AllPositive multicast c) (allowed : AllowedCalls multicast calls c) (once : DeniedOnce calls c) :
    Goes (runCalls calls) (fun _ c' => OneNxdomainEach c') c := by
  induction calls generalizing c with
  | nil => exact goes_pure one
  | cons call calls ih =>
    have goes : Goes call.run _ c := wp_mono (settled.call allowed.1.1 (fun _ => positive) fun _ => allowed.1.2)
      (fun _ _ => id) fun _ _ failed => failed.2 trivial
    obtain ⟨_, c₁, ran, settled₁, positive₁, denies⟩ := goes.ok
    exact goes_ok_bind ran
      (ih (one.denies denies once.1) settled₁ (positive₁ trivial) (allowed.2 c₁ ran) (once.2 c₁ ran))

/-- An item for a name that does not exist is stored under another key than the one that `dns_cache_put_negative()`
clears; so there is at most one only if none is put while there is one. -/
theorem one_nxdomain (multicast : Bool) (key : ValidKey) (calls : List CacheCall)
    (allowed : AllowedCalls multicast calls (newCache key)) (once : DeniedOnce calls (newCache key)) :
    ∃ c, runCalls calls (newCache key) = .ok ⟨⟩ c ∧ OneNxdomainEach c := by
  have empty : ∀ j, j ∉ (newCache key).cached ∅ := by
    intro j cached
    cases cached.1
  have one : OneNxdomainEach (newCache key) := fun κ i j isOne _ => absurd isOne.1 (empty i)
  obtain ⟨_, c, ran, one⟩ := (one.run (settled_newCache key) (allPositive_newCache multicast key) allowed once).ok
  exact ⟨c, ran, one⟩

/-- A key is asked for, and there is no such name. -/
def putNxdomain (k : Nat) : CacheCall :=
  .put
    { mdns := false, noNegative := false, key := some k, rcode := .nxdomain
      answer := [{ rr := 0, cacheable := false, sharedOwner := false, primary := some false }]
      hasAnswer := true, queryAuthenticated := false, nsecTtl := 60, now := { boottime := 0, realtime := 0 }
      matchKey := some false, findCname := some false, findSoa := some (some (0, false)) }

/-- The addresses of the root are asked for. -/
def nxdomainOnce : List CacheCall :=
  [.makeKey rootKey 0, .makeKey ⟨{ rootKey.1 with type := 6 }, rootKey.2⟩ 0,
    .makeRr 1 { key := { rootKey.1 with type := 6 }, ttl := 60, soa := { minimum := 60 } } usecInfinity 0, putNxdomain 0]

theorem nxdomainOnce_allowed : AllowedCalls false nxdomainOnce (newCache rootKey) := by
  refine ⟨⟨trivial, trivial⟩, ?_⟩
  rintro c₁ ⟨⟩
  refine ⟨⟨trivial, trivial⟩, ?_⟩
  rintro c₂ ⟨⟩
  refine ⟨⟨show keyLive _ _ by decide +kernel, trivial⟩, ?_⟩
  rintro c₃ ⟨⟩
  refine ⟨⟨⟨?_, ?_⟩, by simp, by simp⟩, fun _ _ => trivial⟩
  · rintro k ⟨⟩
    exact ⟨0, by decide +kernel⟩
  · intro item mem
    rw [List.mem_singleton.mp mem]
    exact ⟨0, by decide +kernel⟩

theorem nxdomainOnce_once : DeniedOnce nxdomainOnce (newCache rootKey) := by
  refine ⟨fun _ => False.elim, ?_⟩
  rintro c₁ ⟨⟩
  refine ⟨fun _ => False.elim, ?_⟩
  rintro c₂ ⟨⟩
  refine ⟨fun _ => False.elim, ?_⟩
  rintro c₃ ⟨⟩
  refine ⟨?_, fun _ _ => trivial⟩
  rintro κ - i ⟨cached, -⟩
  cases cached.1

/-- The addresses of `a`. -/
def otherKey : ValidKey :=
  ⟨{ rootKey.1 with name := cstr "a" }, [cstr "a"],
    .cons (show dnsLabelUnescape (cstr "a") dnsLabelMax {} = .ok (cstr "a", []) by decide) (by decide)
      (Labels.nil_iff.mpr (.inl rfl))⟩

theorem nxdomainOnce_leaves (ran : runCalls nxdomainOnce (newCache rootKey) = .ok ⟨⟩ c) :
    Settled c ∧ c.nextItem = 1 ∧ (c.items 0).key = 2 ∧ c.kind 2 = rootKey.any.fold ∧ c.nextKey = 3 ∧
      .other 0 ∈ (c.rrs 0).holders := by
  obtain ⟨_, c', ran', settled⟩ := nxdomainOnce_allowed.settled.ok
  cases ran.symm.trans ran'
  have facts : returns (runCalls nxdomainOnce (newCache rootKey)) (fun _ c => decide (c.nextItem = 1 ∧
    (c.items 0).key = 2 ∧ c.kind 2 = rootKey.any.fold ∧ c.nextKey = 3 ∧ .other 0 ∈ (c.rrs 0).holders)) = true := by
      decide +kernel
  rw [ran] at facts
  exact ⟨settled, of_decide_eq_true facts⟩

/-- Two names do not exist. -/
theorem one_nxdomain_twice :
    ∃ c, runCalls (nxdomainOnce ++ [.makeKey otherKey 0, putNxdomain 3]) (newCache rootKey) = .ok ⟨⟩ c ∧
      OneNxdomainEach c := by
  refine one_nxdomain false rootKey _ (eachCall_append nxdomainOnce_allowed ?_) (eachCall_append nxdomainOnce_once ?_)
  · intro c ran
    obtain ⟨-, -, -, -, key, record⟩ := nxdomainOnce_leaves ran
    refine ⟨⟨trivial, trivial⟩, ?_⟩
    rintro c₁ ⟨⟩
    refine ⟨⟨⟨?_, ?_⟩, by simp, by simp⟩, fun _ _ => trivial⟩
    · rintro k ⟨⟩
      exact ⟨0, by simp [key]⟩
    · intro item mem
      rw [List.mem_singleton.mp mem]
      exact ⟨0, record⟩
  · intro c ran
    obtain ⟨settled, items, own, name, key, -⟩ := nxdomainOnce_leaves ran
    refine ⟨fun _ => False.elim, ?_⟩
    rintro c₁ ⟨⟩
    refine ⟨?_, fun _ _ => trivial⟩
    rintro _ ⟨-, k, ⟨⟩, rfl⟩ i ⟨cached, -, same⟩
    -- the only item so far is for the root
    have cached : c.allocated i = true := cached.1
    have first : i = 0 := by
      by_contra other
      cases cached.symm.trans (settled.rests.held.freshItems i (by omega))
    subst first
    simp only [itemKind, kind, own, key, update_self, update_of_ne (show 2 ≠ 3 by decide)] at same
    rw [show (c.keys 2).key.fold = _ from name] at same
    exact absurd same (by decide +kernel)

/-- Addresses of the other kind are asked for, too. -/
theorem two_nxdomains : ∃ c, runCalls (nxdomainOnce ++ [.makeKey ⟨{ rootKey.1 with type := 28 }, rootKey.2⟩ 0, putNxdomain 3])
    (newCache rootKey) = .ok ⟨⟩ c ∧ ¬ OneNxdomainEach c := by
  have run : returns (runCalls (nxdomainOnce ++ [.makeKey ⟨{ rootKey.1 with type := 28 }, rootKey.2⟩ 0, putNxdomain 3])
      (newCache rootKey)) (fun _ c => [0, 1].all fun i => c.allocated i && (c.items i).type = .nxdomain &&
        domain (c.itemKind i) = domain rootKey.fold) = true := by decide +kernel
  obtain ⟨_, c, ran, facts⟩ := returns_iff.mp run
  have found : ∀ i ∈ [0, 1], c.Nxdomain i (domain rootKey.fold) := by
    intro i mem
    have facts := List.all_eq_true.mp facts i mem
    simp only [Bool.and_eq_true, decide_eq_true_eq] at facts
    exact ⟨⟨facts.1.1, by simp⟩, facts.1.2, facts.2⟩
  refine ⟨c, ran, fun one => ?_⟩
  cases one _ 0 1 (found 0 (by simp)) (found 1 (by simp))

/-! ## Flushing -/

theorem flush_empties (rests : Rests c' ∅) (run : dnsCacheFlush c = .ok ⟨⟩ c') :
    c'.byKey = [] ∧ c'.byExpiry.items = [] ∧ ∀ i, c'.allocated i = false := by
  rw [dnsCacheFlush, get_bind] at run
  obtain ⟨_, c₁, _, run⟩ := bind_eq_ok.mp run
  obtain ⟨noKeys, run⟩ := require_bind_eq_ok.mp run
  obtain ⟨_, run⟩ := require_bind_eq_ok.mp run
  cases run
  obtain ⟨lists, sound, _⟩ := rests
  refine ⟨noKeys, rfl, fun i => ?_⟩
  by_contra used
  cases (sound.queued.members i).mpr ⟨by simpa using used, id⟩

/-- After every history, `dns_cache_flush()` leaves no item, and the cache holds no key and no record any more. -/
theorem cache_flushed (multicast : Bool) (key : ValidKey) (calls : List CacheCall)
    (allowed : AllowedCalls multicast calls (newCache key)) :
    ∃ c c', runCalls calls (newCache key) = .ok ⟨⟩ c ∧ dnsCacheFlush c = .ok ⟨⟩ c' ∧ c'.byKey = [] ∧
      c'.byExpiry.items = [] ∧ (∀ i, c'.allocated i = false) ∧
      (∀ r, ∀ h ∈ (c'.rrs r).holders, ∃ n, h = .other n) ∧
      ∀ k, ∀ h ∈ (c'.keys k).holders, (∃ n, h = .other n) ∨ ∃ r, h = .slot (.rr r) ∧ c'.rrLive r := by
  obtain ⟨_, c, ran, settled⟩ := allowed.settled.ok
  obtain ⟨_, c', flushed, rests, shrunk⟩ := (flush_ok settled.rests).ok
  obtain ⟨noKeys, noQueue, noItems⟩ := flush_empties rests flushed
  refine ⟨c, c', ran, flushed, noKeys, noQueue, noItems, ?_, ?_⟩
  · rintro r (i | n) mem
    · cases (noItems i).symm.trans ((rests.held.records i r).mp mem).1
    · exact ⟨n, rfl⟩
  · rintro k ((i | r) | _ | n) mem
    · cases (noItems i).symm.trans ((rests.held.slots _ k).mp mem).1
    · exact .inr ⟨r, rfl, ((rests.held.slots _ k).mp mem).1⟩
    · exact absurd mem (shrunk.noCalls settled.noCalls k)
    · exact .inl ⟨n, rfl⟩

theorem cache_flushed_two : ∃ c c', runCalls putTwo (newCache rootKey) = .ok ⟨⟩ c ∧ c.size = 2 ∧
    dnsCacheFlush c = .ok ⟨⟩ c' ∧ c'.byKey = [] ∧ ∀ r, ∀ h ∈ (c'.rrs r).holders, ∃ n, h = .other n := by
  obtain ⟨c, c', ran, flushed, noKeys, -, -, records, -⟩ := cache_flushed false rootKey putTwo putTwo_allowed
  have two : returns (runCalls putTwo (newCache rootKey)) (fun _ c => c.size = 2) = true := by decide +kernel
  rw [ran] at two
  exact ⟨c, c', ran, by simpa [returns] using two, flushed, noKeys, records⟩

end SystemdPort.Resolve
