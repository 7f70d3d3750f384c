/-
# Resolve.DnsCachePut — answers put into a cache

`Settled` is what holds between calls: every item is in the list of its key and in the queue, and there
are not too many of them.  `put_ok` says that `dns_cache_put()` keeps it, whatever the answer is and
wherever memory runs out.

`dns_cache_remove_by_rr()` asserts that the items it looks at have records.  A cache belongs to a scope, and
so to one protocol.  Callers are `PutCareful` if with multicast DNS there is no key that was asked for, and
otherwise no record has a shared owner; then the assertion does not fail.
-/
import SystemdPort.Resolve.DnsCacheChanges

namespace SystemdPort.Resolve

set_option autoImplicit false

open Basic Lib Lib.Exec Shared.Dns Function List DnsCache

variable {answer : List CacheAnswerItem} {n : Nat} {args : PutArgs}

variable {c c' c'' : DnsCache} {i k r : Nat}

structure Settled (c : DnsCache) : Prop where
  rests : Rests c ∅
  noCalls : NoCalls c
  small : c.size ≤ cacheMax

theorem Settled.shrunk (settled : Settled c) (rests : Rests c' ∅) (shrunk : Shrunk c c') : Settled c' :=
  ⟨rests, shrunk.noCalls settled.noCalls, shrunk.size.trans settled.small⟩

/-- An item with a record. -/
def DnsCacheItem.Positive (item : DnsCacheItem) : Prop := ∃ r, item.about = (.positive, some r)

theorem DnsCacheItem.negative {item : DnsCacheItem} (record : item.rr = none) : ¬ item.Positive := by
  rintro ⟨r, about⟩
  cases record.symm.trans (congrArg Prod.snd about)

/-- What others hold is kept, and there are no new items without a record. -/
structure Onward (c c' : DnsCache) : Prop extends Kept c c' where
  negatives : ∀ j ∈ c'.cached ∅, ¬ (c'.items j).Positive →
    j ∈ c.cached ∅ ∧ (c'.items j).about = (c.items j).about ∧ c'.itemKind j = c.itemKind j

theorem Onward.refl (c : DnsCache) : Onward c c where
  toKept := Kept.refl c
  negatives _ cached _ := ⟨cached, rfl, rfl⟩

theorem Onward.trans (first : Onward c c') (second : Onward c' c'') : Onward c c'' where
  toKept := first.toKept.trans second.toKept
  negatives j cached negative := by
    obtain ⟨cached, about, kind⟩ := second.negatives j cached negative
    rw [DnsCacheItem.Positive, about] at negative
    obtain ⟨cached, about', kind'⟩ := first.negatives j cached negative
    exact ⟨cached, about.trans about', kind.trans kind'⟩

theorem Shrunk.onward (shrunk : Shrunk c c') : Onward c c' where
  toKept := shrunk.kept
  negatives j cached _ := ⟨⟨shrunk.allocated j cached.1, by simp⟩, by rw [shrunk.items], shrunk.itemKind j⟩

theorem rrLive_of_other (holds : .other n ∈ (c.rrs r).holders) : c.rrLive r := ne_empty_of_mem holds

theorem keyLive_of_other (holds : .other n ∈ (c.keys k).holders) : c.keyLive k := ne_empty_of_mem holds

/-- The class and the name of a key. -/
def domain (κ : DnsResourceKey) : DnsResourceKey := { κ with type := dnsTypeAny }

/-- An item of the cache that says that a name does not exist, and of which class and name. -/
def DnsCache.Nxdomain (c : DnsCache) (i : Nat) (κ : DnsResourceKey) : Prop :=
  i ∈ c.cached ∅ ∧ (c.items i).type = .nxdomain ∧ domain (c.itemKind i) = κ

theorem Onward.nxdomain {j : Nat} {κ : DnsResourceKey} (onward : Onward c c') : c'.Nxdomain j κ → c.Nxdomain j κ := by
  rintro ⟨cached, type, rfl⟩
  have negative : ¬ (c'.items j).Positive := by
    rintro ⟨r, about⟩
    cases type.symm.trans (congrArg Prod.fst about)
  obtain ⟨cached, about, kind⟩ := onward.negatives j cached negative
  exact ⟨cached, (congrArg Prod.fst about).symm.trans type, by rw [kind]⟩

/-- The items that say that a name does not exist were there, but for one with a name of `names`. -/
def Denies (names : Set DnsResourceKey) (c c' : DnsCache) : Prop :=
  ∃ i, ∀ j κ, c'.Nxdomain j κ → c.Nxdomain j κ ∨ j = i ∧ κ ∈ names

variable {names : Set DnsResourceKey}

/-- What a result says does not exist. -/
def denied (rcode : CacheRcode) (key : Option Nat) (c : DnsCache) : Set DnsResourceKey :=
  { κ | rcode = .nxdomain ∧ ∃ k ∈ key, κ = domain (c.kind k) }

theorem Onward.denies (onward : Onward c c') : Denies names c c' := ⟨0, fun _ _ isOne => .inl (onward.nxdomain isOne)⟩

theorem Denies.around {c₁ c₂ : DnsCache} (denies : Denies names c₁ c₂) (before : Onward c c₁) (after : Onward c₂ c') :
    Denies names c c' := by
  obtain ⟨i, denies⟩ := denies
  exact ⟨i, fun j κ isOne => (denies j κ (after.nxdomain isOne)).imp_left before.nxdomain⟩

/-! ## New items -/

/-- The pointers of items that are not in the cache do not matter. -/
theorem Rests.relink {extra : Set Nat} {links : Links Nat} (rests : Rests c extra)
    (agree : ∀ j ∈ c.cached extra, links.prev j = c.links.prev j ∧ links.next j = c.links.next j) :
    Rests { c with links } extra := by
  obtain ⟨lists, sound, all⟩ := rests
  refine ⟨lists, ?_, all⟩
  refine ⟨{ sound.held with }, ⟨sound.listed.kinds, sound.listed.nodup, ?_⟩, sound.mapped, sound.own, sound.queued, sound.inQueue, sound.inUse⟩
  exact fun κ => (sound.listed.linked κ).congr fun j mem => agree j (sound.inQueue κ j mem)

/-- What adding an item leaves alone. -/
structure Added (c : DnsCache) (item : DnsCacheItem) (i : Nat) (c' : DnsCache) : Prop extends Kept c c' where
  rests : Rests c' {i}
  allocated : c'.allocated i = true
  alone : c'.links.prev i = none ∧ c'.links.next i = none
  size : c'.size ≤ c.size
  item : c'.items i = item
  older : ∀ j ∈ c'.cached {i}, j ∈ c.cached ∅ ∧ c'.items j = c.items j ∧ c'.itemKind j = c.itemKind j

variable {item : DnsCacheItem} {only : CacheAnswerItem → Bool} {key : Option Nat} (rcode : CacheRcode) (mdns : Bool)

/-- An item is added; the key of it may be new. -/
theorem added_of (rests : Rests c ∅) (kept : Kept c c') (held : Held (c'.addItem item))
    (contents : ∀ k, c.keyLive k → (c'.keys k).key = (c.keys k).key)
    (rest : ∃ keys rrs nextKey, c' = { c with keys, rrs, nextKey }) : Added c item c.nextItem (c'.addItem item) := by
  obtain ⟨keys, rrs, nextKey, rfl⟩ := rest
  have unused : c.allocated c.nextItem = false := rests.held.freshItems _ le_rfl
  have apart : ∀ j ∈ c.cached ∅, j ≠ c.nextItem := by
    rintro j cached rfl
    rw [mem_cached, unused] at cached
    cases cached.1
  have same : (addItem item { c with keys, rrs, nextKey }).cached {c.nextItem} = c.cached ∅ := by
    ext j
    rw [mem_cached, mem_cached]
    by_cases here : j = c.nextItem
    · simp [here, unused]
    · simp [here, addItem]
  have items : ∀ j ∈ c.cached ∅, (addItem item { c with keys, rrs, nextKey }).items j = c.items j := by
    intro j cached
    simp [addItem, apart j cached]
  refine ⟨?_, ?_, ?_, ?_, le_rfl, ?_, ?_⟩
  · exact { kept with }
  · have plain : Rests { addItem item { c with keys, rrs, nextKey } with links := c.links } {c.nextItem} :=
      rests.kept { held with } rfl rfl rfl items same contents
    refine plain.relink ?_
    intro j cached
    have cached : j ∈ c.cached ∅ := same ▸ cached
    simp [Links.setPrev, Links.setNext, apart j cached]
  · simp [addItem]
  · simp [addItem, Links.setPrev, Links.setNext]
  · simp [addItem]
  · intro j cached
    rw [same] at cached
    refine ⟨cached, items j cached, ?_⟩
    rw [itemKind, items j cached]
    exact congrArg ValidKey.fold (contents _ (rests.held.item_live cached.1))

theorem newItem_added (item : DnsCacheItem) (rests : Rests c ∅) (live : c.keyLive item.key)
    (record : ∀ r, item.rr = some r → c.rrLive r) : Goes (newItem item) (fun i c' => Added c item i c') c := by
  refine (newItem_ok item rests.held live record).imp ?_
  rintro i c' ⟨rfl, held, c₁, only, rfl⟩
  obtain ⟨keys, rrs, rest⟩ := only.rest
  refine added_of rests (only.itemOnly (i := 0)).toKept held (fun k _ => only.contents k) ?_
  exact ⟨keys, rrs, c.nextKey, rest⟩

/-- An item that was added joins the cache, or is freed. -/
theorem Added.link (memory : ItemMemory) (added : Added c item i c') (noCalls : NoCalls c)
    (space : c.size < cacheMax) : Goes (linkOrFree i memory)
      (fun _ c'' => Settled c'' ∧ Kept c c'' ∧ (item.Positive → Onward c c'') ∧
        ∀ j κ, c''.Nxdomain j κ → c.Nxdomain j κ ∨ j = i ∧ item.type = .nxdomain ∧ κ = domain (c'.itemKind i)) c' := by
  have noCalls' : NoCalls c' := fun k => mt (added.calls k).mp (noCalls k)
  have size := added.size
  have fits : c'.size < 2 ^ 31 := by
    have : cacheMax = 4096 := rfl
    omega
  refine (linkOrFree_ok memory added.rests added.allocated added.alone fits noCalls').imp ?_
  rintro _ c'' ⟨rests, kept, size', items⟩
  have all := added.toKept.trans kept
  have older : ∀ j ∈ c''.cached ∅, j ≠ i →
      j ∈ c.cached ∅ ∧ (c''.items j).about = (c.items j).about ∧ c''.itemKind j = c.itemKind j := by
    intro j cached apart
    obtain ⟨allocated, about, kind⟩ := items j cached
    obtain ⟨older, same, kind'⟩ := added.older j ⟨allocated, apart⟩
    exact ⟨older, about.trans (congrArg _ same), kind.trans kind'⟩
  refine ⟨⟨rests, fun k => mt (kept.calls k).mp (noCalls' k), by omega⟩, all, fun positive => ⟨all, ?_⟩, ?_⟩
  · intro j cached negative
    refine older j cached ?_
    rintro rfl
    rw [DnsCacheItem.Positive, (items j cached).2.1, added.item] at negative
    exact negative positive
  · rintro j κ ⟨cached, type, rfl⟩
    by_cases here : j = i
    · subst here
      obtain ⟨-, about, kind⟩ := items j cached
      rw [added.item] at about
      exact .inr ⟨rfl, (congrArg Prod.fst about).symm.trans type, by rw [kind]⟩
    · obtain ⟨cached', about, kind⟩ := older j cached here
      exact .inl ⟨cached', (congrArg Prod.fst about).symm.trans type, by rw [kind]⟩

/-- A new key is one that nobody has held. -/
theorem mem_newKey (held : Held c) (key : ValidKey) (h g : KeyHolder) (k : Nat) :
    g ∈ (update c.keys c.nextKey { key, holders := {h} } k).holders ↔ g ∈ (c.keys k).holders ∨ g = h ∧ k = c.nextKey := by
  by_cases isNew : k = c.nextKey
  · simp [isNew, held.freshKeys c.nextKey le_rfl]
  · simp [isNew]

/-- A new key and an item that holds it. -/
theorem held_newKey (key : ValidKey) (item : DnsCacheItem) (held : Held c) (own : item.key = c.nextKey)
    (noRecord : item.rr = none) : Held (addItem item { c with
      keys := update c.keys c.nextKey { key, holders := {.slot (.item c.nextItem)} }
      nextKey := c.nextKey + 1 }) := by
  have unused : c.allocated c.nextItem = false := held.freshItems _ le_rfl
  refine ⟨?_, ?_, ?_, ?_, held.freshRrs⟩
  · intro s k
    refine (mem_newKey held key _ _ k).trans ?_
    rw [held.slots]
    cases s with
    | item j =>
      by_cases here : j = c.nextItem
      · simp [addItem, inUse, slotKey, unused, here, own, eq_comm]
      · simp [addItem, inUse, slotKey, here]
    | rr r => simp [addItem, inUse, slotKey, rrLive]
  · intro j r
    have old := held.records j r
    by_cases here : j = c.nextItem
    · subst here
      simp [unused] at old
      simp [addItem, noRecord, old]
    · simpa [addItem, here] using old
  · intro j fresh
    have fresh : c.nextItem + 1 ≤ j := fresh
    have := held.freshItems j (by omega)
    simpa [addItem, show j ≠ c.nextItem by omega] using this
  · intro k fresh
    have fresh : c.nextKey + 1 ≤ k := fresh
    have := held.freshKeys k (by omega)
    simpa [addItem, show k ≠ c.nextKey by omega] using this

theorem kept_newKey (key : ValidKey) {h : KeyHolder} (held : Held c) (own : ∀ n, h ≠ .other n) (notCall : h ≠ .call) :
    Kept c { c with keys := update c.keys c.nextKey { key, holders := {h} }, nextKey := c.nextKey + 1 } := by
  have noHolders := held.freshKeys c.nextKey le_rfl
  refine ⟨?_, ?_, ?_, fun _ _ => Iff.rfl, ?_⟩
  · exact fun k n => by simp [mem_newKey held, (own n).symm]
  · exact fun k => by simp [mem_newKey held, notCall.symm]
  · intro k n holds
    have : k ≠ c.nextKey := by
      rintro rfl
      simp [noHolders] at holds
    simp [kind, this]
  · intro r n holds
    have : (c.rrs r).key ≠ c.nextKey := by
      intro isNew
      exact held.rr_live (rrLive_of_other holds) (isNew ▸ noHolders)
    simp [rrKind, kind, this]

/-- Items are removed while one is on its way. -/
theorem Added.removeByKey (added : Added c item i c') (live : c'.keyLive k) :
    Goes (dnsCacheRemoveByKey k) (fun _ c'' => Added c item i c'' ∧ c''.itemKind i = c'.itemKind i) c' := by
  refine (removeByKey_ok added.rests live).imp ?_
  rintro _ c'' ⟨rests, shrunk, links, -, allocated⟩
  refine ⟨⟨added.toKept.trans shrunk.kept, rests, ?_, ?_, ?_, ?_, ?_⟩, shrunk.itemKind i⟩
  · exact (allocated i).mpr ⟨added.allocated, .inl rfl⟩
  · rw [links]
    exact added.alone
  · exact shrunk.size.trans added.size
  · rw [shrunk.items]
    exact added.item
  · intro j cached
    obtain ⟨older, same, kind⟩ := added.older j ⟨shrunk.allocated j cached.1, cached.2⟩
    exact ⟨older, by rw [shrunk.items, same], (shrunk.itemKind j).trans kind⟩

/-! ## Putting -/

/-- The items that have the key of a record have records. -/
def PositiveAt (c : DnsCache) (r : Nat) : Prop := ∀ j ∈ c.cached ∅, c.itemKind j = c.rrKind r → (c.items j).rr ≠ none

theorem Onward.positiveAt (onward : Onward c c') (holds : .other n ∈ (c.rrs r).holders) (positive : PositiveAt c r) :
    PositiveAt c' r := by
  intro j cached kind record
  obtain ⟨cached, about, kind'⟩ := onward.negatives j cached (DnsCacheItem.negative record)
  exact positive j cached (kind'.symm.trans (kind.trans (onward.rrKinds r n holds)))
    ((congrArg Prod.snd about).symm.trans record)

theorem putPositive_ok {sure : Prop} (now : Now) (answer : List CacheAnswerItem) (primary : Bool) {item : CacheAnswerItem}
    (settled : Settled c) (holds : .other n ∈ (c.rrs item.rr).holders) (positive : sure → PositiveAt c item.rr) :
    wp (dnsCachePutPositive mdns now answer primary item) (fun _ c' => Settled c' ∧ Onward c c') (NoRecord sure) c := by
  have live := rrLive_of_other holds
  refine wp_get_bind.mpr ?_
  dsimp only
  split
  · exact wp_pure.mpr ⟨settled, Onward.refl c⟩
  -- which time to live the item gets does not matter
  generalize min (if primary then dnsAnswerMinTtl c answer else 0xFFFFFFFF) (c.rrs item.rr).record.ttl = minTtl
  split
  · refine wp_bind.mpr (wp_mono (removeByRr_ok settled.rests live positive) ?_ fun _ _ => id)
    rintro _ c' ⟨rests, shrunk⟩
    exact wp_pure.mpr ⟨settled.shrunk rests shrunk, shrunk.onward⟩
  refine Goes.wp_imp ?_ fun _ _ => id
  obtain ⟨lists, sound, all⟩ := settled.rests
  refine (get_ok sound live).bind ?_
  rintro existing c₁ ⟨rfl, found⟩
  cases existing with
  | some i =>
    have listed := found i rfl
    have kind := sound.listed.kinds _ i listed
    refine (updatePositive_ok _ sound (by rwa [kind]) live kind.symm).bind ?_
    rintro _ c' ⟨sound', updated⟩
    have same : c'.cached ∅ = c₁.cached ∅ := by
      rw [cached, cached, updated.allocated]
    refine goes_pure ⟨⟨⟨lists, same ▸ sound', ?_⟩, ?_, ?_⟩, updated.toKept, ?_⟩
    · intro j cached
      rw [updated.itemKind]
      exact all j (same ▸ cached)
    · exact fun k => mt (updated.calls k).mp (settled.noCalls k)
    · rw [updated.size]
      exact settled.small
    · intro j cached negative
      have apart : j ≠ i := by
        rintro rfl
        exact negative ⟨_, updated.record⟩
      exact ⟨same ▸ cached, congrArg _ (updated.items j apart), updated.itemKind j⟩
  | none =>
    dsimp only
    split
    · exact goes_pure ⟨settled, Onward.refl _⟩
    split
    · exact goes_pure ⟨settled, Onward.refl _⟩
    refine (makeSpace_ok 1 settled.rests settled.noCalls).bind ?_
    rintro _ c₂ ⟨rests, shrunk, space⟩
    have settled₂ := settled.shrunk rests shrunk
    have holds₂ := (shrunk.rrOthers item.rr n).mpr holds
    split
    · exact goes_pure ⟨settled₂, shrunk.onward⟩
    apply goes_get_bind
    refine (newItem_added _ rests (rests.held.rr_live (rrLive_of_other holds₂)) ?_).bind ?_
    · rintro r ⟨⟩
      exact rrLive_of_other holds₂
    intro i c₃ added
    refine (added.link item.memory settled₂.noCalls (space rfl)).bind ?_
    rintro _ c' ⟨settled', -, onward, -⟩
    exact goes_pure ⟨settled', shrunk.onward.trans (onward ⟨_, rfl⟩)⟩

/-- The new item of `dns_cache_put_negative()` -/
theorem negativeItem_ok (answer : Bool) («until» : UInt64) (memory : Bool) (rests : Rests c ∅)
    (holds : .other n ∈ (c.keys k).holders) : Goes (negativeItem rcode k answer «until» memory)
      (fun added c' => match added with
        | none => c' = c
        | some i => ∃ item, Added c item i c' ∧
          (item.type = .nxdomain → rcode = .nxdomain ∧ domain (c'.itemKind i) = domain (c.kind k))) c := by
  have live := keyLive_of_other holds
  unfold negativeItem
  split
  · rename_i isNxdomain
    split
    · exact goes_pure rfl
    apply goes_get_bind
    have run : newKey (c.keys k).key.any (.slot (.item c.nextItem)) c = .ok c.nextKey { c with
        keys := update c.keys c.nextKey { key := (c.keys k).key.any, holders := {.slot (.item c.nextItem)} }
        nextKey := c.nextKey + 1 } := rfl
    apply goes_ok_bind run
    apply goes_modify_bind
    have fresh : ∀ k, c.keyLive k → k ≠ c.nextKey := by
      rintro k live rfl
      exact live (rests.held.freshKeys _ le_rfl)
    have added := added_of rests (kept_newKey (c.keys k).key.any rests.held (by simp) (by simp))
      (held_newKey (c.keys k).key.any
        { type := .nxdomain, key := c.nextKey, rr := none, answer, until_ := «until», sharedOwner := false } rests.held rfl rfl)
      (fun k live => by simp [fresh k live]) ⟨_, _, _, rfl⟩
    refine (added.removeByKey ?_).bind ?_
    · exact keyLive_of_other ((added.others k n).mpr holds)
    · rintro _ c' ⟨added, kind⟩
      refine goes_pure ⟨_, added, fun _ => ⟨isNxdomain, ?_⟩⟩
      rw [kind]
      simp [itemKind, DnsCache.kind, addItem]
      rfl
  · refine (newItem_added _ rests live ?_).bind ?_
    · rintro r ⟨⟩
    · intro i c' added
      refine goes_pure ⟨_, added, fun type => ?_⟩
      dsimp only at type
      split at type <;> cases type

theorem putNegative_ok (answer : List CacheAnswerItem) (hasAnswer : Bool) (nsecTtl : UInt32) (now : Now)
    (soa : Option Nat) (memory : ItemMemory) (keyMemory : Bool) (settled : Settled c)
    (holds : .other n ∈ (c.keys k).holders) :
    Goes (dnsCachePutNegative k rcode answer hasAnswer nsecTtl now soa memory keyMemory)
      (fun _ c' => Settled c' ∧ Kept c c' ∧ Denies (denied rcode (some k) c) c c') c := by
  apply goes_get_bind
  split
  · exact goes_pure ⟨settled, Kept.refl c, (Onward.refl c).denies⟩
  split
  · exact goes_pure ⟨settled, Kept.refl c, (Onward.refl c).denies⟩
  split
  · exact goes_pure ⟨settled, Kept.refl c, (Onward.refl c).denies⟩
  refine (makeSpace_ok 1 settled.rests settled.noCalls).bind ?_
  rintro _ c₁ ⟨rests, shrunk, space⟩
  have settled₁ := settled.shrunk rests shrunk
  split
  · exact goes_pure ⟨settled₁, shrunk.kept, shrunk.onward.denies⟩
  refine (negativeItem_ok rcode hasAnswer _ keyMemory rests ((shrunk.kept.others k n).mpr holds)).bind ?_
  intro added c₂ facts
  cases added with
  | none =>
    obtain rfl := facts
    exact goes_pure ⟨settled₁, shrunk.kept, shrunk.onward.denies⟩
  | some i =>
    obtain ⟨item, added, named⟩ := facts
    refine (added.link memory settled₁.noCalls (space rfl)).bind ?_
    rintro _ c' ⟨settled', kept, -, nxdomains⟩
    refine goes_pure ⟨settled', shrunk.kept.trans kept, i, fun j κ isOne => ?_⟩
    refine (nxdomains j κ isOne).imp shrunk.onward.nxdomain ?_
    rintro ⟨rfl, type, rfl⟩
    obtain ⟨isNxdomain, name⟩ := named type
    exact ⟨rfl, isNxdomain, k, rfl, by rw [name, shrunk.kind]⟩

/-- What a call is given is held by others. -/
structure HeldArgs (c : DnsCache) (key : Option Nat) (answer : List CacheAnswerItem) : Prop where
  key : ∀ k ∈ key, ∃ n, .other n ∈ (c.keys k).holders
  records : ∀ item ∈ answer, ∃ n, .other n ∈ (c.rrs item.rr).holders

theorem HeldArgs.kept {key : Option Nat} (args : HeldArgs c key answer) (kept : Kept c c') :
    HeldArgs c' key answer where
  key k isKey := by
    obtain ⟨n, holds⟩ := args.key k isKey
    exact ⟨n, (kept.others k n).mpr holds⟩
  records item mem := by
    obtain ⟨n, holds⟩ := args.records item mem
    exact ⟨n, (kept.rrOthers item.rr n).mpr holds⟩

theorem removeAnswerKeys_ok (rests : Rests c ∅) (records : ∀ item ∈ answer, ∃ n, .other n ∈ (c.rrs item.rr).holders) :
    Goes (removeAnswerKeys only answer) (fun _ c' => Rests c' ∅ ∧ Shrunk c c' ∧
      ∀ item ∈ answer, only item = true → ∀ j ∈ c'.cached ∅, c.itemKind j ≠ c.rrKind item.rr) c := by
  induction answer generalizing c with
  | nil => exact goes_pure ⟨rests, Shrunk.refl c, by simp⟩
  | cons first rest ih =>
    have later : ∀ item ∈ rest, ∃ n, .other n ∈ (c.rrs item.rr).holders :=
      fun item mem => records item (mem_cons_of_mem _ mem)
    rw [removeAnswerKeys]
    split
    · obtain ⟨n, holds⟩ := records first mem_cons_self
      apply goes_get_bind
      refine (removeByKey_ok rests (rests.held.rr_live (rrLive_of_other holds))).bind ?_
      rintro _ c₁ ⟨rests₁, shrunk, -, -, allocated⟩
      refine (ih rests₁ ?_).imp ?_
      · intro item mem
        obtain ⟨n, holds⟩ := later item mem
        exact ⟨n, (shrunk.rrOthers item.rr n).mpr holds⟩
      rintro _ c' ⟨rests', shrunk', gone⟩
      refine ⟨rests', shrunk.trans shrunk', ?_⟩
      intro item mem isOne j cached
      rcases mem_cons.mp mem with rfl | mem
      · have := (allocated j).mp (shrunk'.allocated j cached.1)
        exact this.2.resolve_left (by simp)
      · have := gone item mem isOne j cached
        rwa [shrunk.itemKind, shrunk.rrKind] at this
    · rename_i isNot
      refine (ih rests later).imp ?_
      rintro _ c' ⟨rests', shrunk, gone⟩
      exact ⟨rests', shrunk, forall_mem_cons.mpr ⟨fun isOne => absurd isOne isNot, gone⟩⟩

theorem removeKeyIf_ok (rests : Rests c ∅) (isHeld : ∀ k ∈ key, ∃ n, .other n ∈ (c.keys k).holders) :
    Goes (removeKeyIf key) (fun _ c' => Rests c' ∅ ∧ Shrunk c c') c := by
  cases key with
  | none => exact goes_pure ⟨rests, Shrunk.refl c⟩
  | some k =>
    obtain ⟨n, holds⟩ := isHeld k rfl
    refine (removeByKey_ok rests (keyLive_of_other holds)).imp ?_
    rintro _ c' ⟨rests', shrunk, _⟩
    exact ⟨rests', shrunk⟩

theorem removeKeys_ok (rests : Rests c ∅) (isHeld : HeldArgs c key answer) :
    Goes (do
      removeKeyIf key
      removeAnswerKeys only answer : CacheM PUnit) (fun _ c' => Rests c' ∅ ∧ Shrunk c c' ∧
      ∀ item ∈ answer, only item = true → ∀ j ∈ c'.cached ∅, c'.itemKind j ≠ c'.rrKind item.rr) c := by
  refine (removeKeyIf_ok rests isHeld.key).bind ?_
  rintro _ c₁ ⟨rests₁, shrunk⟩
  refine (removeAnswerKeys_ok rests₁ (isHeld.kept shrunk.kept).records).imp ?_
  rintro _ c' ⟨rests', shrunk', gone⟩
  refine ⟨rests', shrunk.trans shrunk', ?_⟩
  intro item mem isOne j cached
  rw [shrunk'.itemKind, shrunk'.rrKind]
  exact gone item mem isOne j cached

theorem putLoop_ok {sure : Prop} (keyed : Bool) (now : Now) (answer : List CacheAnswerItem) {rest : List CacheAnswerItem}
    (settled : Settled c) (records : ∀ item ∈ rest, ∃ n, .other n ∈ (c.rrs item.rr).holders)
    (positive : sure → ∀ item ∈ rest, item.cacheable = true → PositiveAt c item.rr) :
    wp (putLoop mdns keyed now answer rest) (fun _ c' => Settled c' ∧ Onward c c') (NoRecord sure) c := by
  induction rest generalizing c with
  | nil => exact wp_pure.mpr ⟨settled, Onward.refl c⟩
  | cons item rest ih =>
    have ⟨n, holds⟩ := records item mem_cons_self
    refine wp_get_bind.mpr ?_
    split
    · exact ih settled (fun item mem => records item (mem_cons_of_mem _ mem))
        fun isSure item mem => positive isSure item (mem_cons_of_mem _ mem)
    rename_i taken
    have cacheable : item.cacheable = true := by
      by_contra isNot
      exact taken (.inl (by simpa using isNot))
    split
    · exact wp_pure.mpr ⟨settled, Onward.refl c⟩
    have first : Goes (firstUnlessPrimary (keyed && item.primary = some true) (c.rrs item.rr).key) (fun _ c' => c' = c) c := by
      unfold firstUnlessPrimary
      split
      · exact goes_pure rfl
      · obtain ⟨lists, sound, _⟩ := settled.rests
        exact goes_of_ok (sound.get (sound.held.rr_live (rrLive_of_other holds))) rfl
    refine first.wp_bind ?_
    rintro first c₀ rfl
    split
    · exact wp_pure.mpr ⟨settled, Onward.refl _⟩
    refine wp_bind.mpr (wp_mono (putPositive_ok mdns now answer _ settled holds
      fun isSure => positive isSure item mem_cons_self cacheable) ?_ fun _ _ => id)
    rintro put c₁ ⟨settled₁, onward⟩
    split
    · exact wp_pure.mpr ⟨settled₁, onward⟩
    refine wp_mono (ih settled₁ ?_ ?_) ?_ fun _ _ => id
    · intro item' mem
      obtain ⟨n', holds'⟩ := records item' (mem_cons_of_mem _ mem)
      exact ⟨n', (onward.rrOthers _ n').mpr holds'⟩
    · intro isSure item' mem cacheable'
      obtain ⟨n', holds'⟩ := records item' (mem_cons_of_mem _ mem)
      exact onward.positiveAt holds' (positive isSure item' (mem_cons_of_mem _ mem) cacheable')
    rintro _ c' ⟨settled', onward'⟩
    exact ⟨settled', onward.trans onward'⟩

/-- What was already added is cleaned up. -/
theorem putFailed_ok (settled : Settled c) (isHeld : HeldArgs c args.key args.answer) :
    Goes (putFailed args) (fun _ c' => Settled c' ∧ Onward c c') c := by
  refine (removeKeys_ok settled.rests isHeld).imp ?_
  rintro _ c' ⟨rests, shrunk, _⟩
  exact ⟨settled.shrunk rests shrunk, shrunk.onward⟩

/-- The part of `dns_cache_put()` that adds a negative item -/
theorem putNegativeIf_ok (settled : Settled c) (isHeld : HeldArgs c args.key args.answer) (isKey : args.key = some k) :
    Goes (putNegativeIf args k) (fun _ c' => Settled c' ∧ Denies (denied args.rcode (some k) c) c c') c := by
  have same : Goes (pure ⟨⟩ : CacheM PUnit) (fun _ c' => Settled c' ∧ Denies (denied args.rcode (some k) c) c c') c :=
    goes_pure ⟨settled, (Onward.refl c).denies⟩
  have failed : ∀ {c₁}, Settled c₁ → Kept c c₁ → Denies (denied args.rcode (some k) c) c c₁ →
      Goes (putFailed args) (fun _ c' => Settled c' ∧ Denies (denied args.rcode (some k) c) c c') c₁ := by
    intro c₁ settled₁ kept denies
    refine (putFailed_ok settled₁ (isHeld.kept kept)).imp ?_
    rintro _ c' ⟨settled', onward⟩
    exact ⟨settled', denies.around (Onward.refl c) onward⟩
  have failedNow := failed settled (Kept.refl c) (Onward.refl c).denies
  obtain ⟨n, holds⟩ := isHeld.key k isKey
  unfold putNegativeIf
  split
  · exact failedNow
  · exact same
  split
  · exact failedNow
  · exact same
  split
  · exact failedNow
  split
  · exact same
  split
  · exact same
  split
  · exact same
  refine (putNegative_ok _ _ _ _ _ _ _ _ settled holds).bind ?_
  rintro put c₁ ⟨settled₁, kept, denies⟩
  split
  · exact failed settled₁ kept denies
  · exact goes_pure ⟨settled₁, denies⟩

/-- What the callers of `dns_cache_put()` see to, with multicast DNS or not. -/
structure PutCareful (multicast : Bool) (args : PutArgs) : Prop where
  noKey : multicast = true → args.key = none
  noSharedOwner : multicast = false → ∀ item ∈ args.answer, item.sharedOwner = false

/-- With multicast DNS, all items have records. -/
def AllPositive (multicast : Bool) (c : DnsCache) : Prop :=
  multicast = true → ∀ j ∈ c.cached ∅, (c.items j).rr ≠ none

theorem AllPositive.onward {multicast : Bool} (positive : AllPositive multicast c) (onward : Onward c c') :
    AllPositive multicast c' := by
  intro isMulticast j cached record
  obtain ⟨cached, about, -⟩ := onward.negatives j cached (DnsCacheItem.negative record)
  exact positive isMulticast j cached ((congrArg Prod.snd about).symm.trans record)

theorem put_ok {multicast : Bool} {sure : Prop} (settled : Settled c) (isHeld : HeldArgs c args.key args.answer)
    (positive : sure → AllPositive multicast c) (careful : sure → PutCareful multicast args) :
    wp (dnsCachePut args)
      (fun _ c' => Settled c' ∧ (sure → AllPositive multicast c') ∧ Denies (denied args.rcode args.key c) c c')
      (NoRecord sure) c := by
  have stays : ∀ {c'}, Onward c c' → sure → AllPositive multicast c' :=
    fun onward isSure => (positive isSure).onward onward
  refine (removeKeys_ok settled.rests isHeld).wp_bind ?_
  rintro _ c₁ ⟨rests₁, shrunk, gone⟩
  have settled₁ := settled.shrunk rests₁ shrunk
  split
  · exact wp_pure.mpr ⟨settled₁, stays shrunk.onward, shrunk.onward.denies⟩
  split
  · exact wp_pure.mpr ⟨settled₁, stays shrunk.onward, shrunk.onward.denies⟩
  refine (makeSpace_ok _ rests₁ settled₁.noCalls).wp_bind ?_
  rintro _ c₂ ⟨rests₂, shrunk', -⟩
  have settled₂ := settled₁.shrunk rests₂ shrunk'
  have onward₂ := shrunk.onward.trans shrunk'.onward
  have isHeld₂ := isHeld.kept onward₂.toKept
  have positiveAt : sure → ∀ item ∈ args.answer, item.cacheable = true → PositiveAt c₂ item.rr := by
    intro isSure item mem cacheable j cached kind
    cases isMulticast : multicast with
    | true => exact stays onward₂ isSure isMulticast j cached
    | false =>
      have notShared := (careful isSure).noSharedOwner isMulticast item mem
      have apart := gone item mem (by simp [cacheable, notShared]) j ⟨shrunk'.allocated j cached.1, cached.2⟩
      rw [shrunk'.itemKind, shrunk'.rrKind] at kind
      exact absurd kind apart
  refine wp_bind.mpr (wp_mono
    (putLoop_ok args.mdns args.key.isSome args.now args.answer settled₂ isHeld₂.records positiveAt) ?_ fun _ _ => id)
  rintro loop c₃ ⟨settled₃, onward⟩
  have isHeld₃ := isHeld₂.kept onward.toKept
  have onward := onward₂.trans onward
  cases loop with
  | failed =>
    refine (putFailed_ok settled₃ isHeld₃).wp_imp ?_
    rintro _ c' ⟨settled', onward'⟩
    exact ⟨settled', stays (onward.trans onward'), (onward.trans onward').denies⟩
  | returned => exact wp_pure.mpr ⟨settled₃, stays onward, onward.denies⟩
  | through =>
    cases isKey : args.key with
    | none => exact wp_pure.mpr ⟨settled₃, stays onward, onward.denies⟩
    | some k =>
      refine (putNegativeIf_ok settled₃ isHeld₃ isKey).wp_imp ?_
      rintro _ c' ⟨settled', denies⟩
      refine ⟨settled', fun isSure isMulticast => ?_, ?_⟩
      · rw [(careful isSure).noKey isMulticast] at isKey
        cases isKey
      · obtain ⟨n, holds⟩ := isHeld.key k isKey
        have denies := denies.around onward (Onward.refl c')
        simpa [denied, onward.kinds k n holds] using denies

end SystemdPort.Resolve
