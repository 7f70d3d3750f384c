/-
# Resolve.DnsCacheChanges — items added to a cache, updated and removed from it

* `linkOrFree_ok` — a new item joins the cache, or is freed.
* `updatePositive_ok` — an item gets another record of its kind.
* `makeSpace_ok`, `pruneLoop_ok`, `flush_ok` — the loops that remove items come to an end.
-/
import SystemdPort.Resolve.DnsCacheLists

namespace SystemdPort.Resolve

set_option autoImplicit false

open Basic Lib Lib.Exec Shared.Dns Function List DnsCache

variable {c c' c'' : DnsCache} {lists : DnsResourceKey → List Nat} {queue extra : Set Nat} {i k r : Nat}

/-! ## Adding -/

theorem Relinked.trans (first : Relinked c c') (second : Relinked c' c'') : Relinked c c'' where
  toKept := first.toKept.trans second.toKept
  about j := (second.about j).trans (first.about j)
  itemKind j := (second.itemKind j).trans (first.itemKind j)
  allocated := second.allocated.trans first.allocated

theorem relinked_structures (c : DnsCache) (links : Links Nat) (byKey : List (Nat × Nat)) (byExpiry : Prioq Nat Nat) :
    Relinked c { c with links, byKey, byExpiry } where
  toKept := { Kept.refl c with }
  about _ := rfl
  itemKind _ := rfl
  allocated := rfl

/-- An item is the first one with its key, if there is memory for that. -/
theorem linkFirst_ok {memory : Bool} (sound : Consistent c lists queue) (queued : i ∈ queue)
    (empty : lists (c.itemKind i) = []) (alone : c.links.prev i = none ∧ c.links.next i = none) :
    Goes (do
      let put ← byKeyPut (c.items i).key i memory
      if put = false then
        expiryRemove i
        return false
      else return true : CacheM Bool)
      (fun linked c' => Relinked c c' ∧ c'.size ≤ c.size ∧
        (linked = true → Consistent c' (update lists (c.itemKind i) [i]) queue) ∧
        (linked = false → Consistent c' lists (queue \ {i}))) c := by
  have live := sound.held.item_live (sound.inUse i queued)
  obtain ⟨run, mapped⟩ := byKeyPut_ok (v := i) sound.mapped sound.liveKeys live empty memory
  apply goes_ok_bind run
  cases memory with
  | true =>
    refine goes_pure ⟨relinked_structures c c.links _ c.byExpiry, le_rfl, fun _ => ?_, by simp⟩
    have listed : Listed c (update lists (c.itemKind i) [i]) := sound.listed.update rfl (by simp)
      (nodup_singleton i) ⟨alone.1, alone.2, trivial⟩ fun κ _ => sound.listed.linked κ
    refine ⟨{ sound.held with }, { listed with }, mapped, ?_, sound.queued, ?_, sound.inUse⟩
    · exact forall_mem_cons.mpr ⟨rfl, sound.own⟩
    · exact (forall_update_iff lists fun _ l => ∀ j ∈ l, j ∈ queue).mpr
        ⟨by simpa using queued, fun κ _ => sound.inQueue κ⟩
  | false =>
    obtain ⟨q, removed, holds, less⟩ := expiryRemove_ok sound queued
    refine goes_ok_bind removed (goes_pure ⟨relinked_structures c c.links c.byKey q, less.le, by simp, fun _ => ?_⟩)
    refine ⟨{ sound.held with }, { sound.listed with }, sound.mapped, sound.own, holds, ?_,
      fun j mem => sound.inUse j mem.1⟩
    intro κ j mem
    refine ⟨sound.inQueue κ j mem, ?_⟩
    rintro rfl
    rw [← sound.listed.kinds κ j mem, empty] at mem
    cases mem

variable {n : Nat} {before : Option Nat} {list : List Nat} (memory : ItemMemory)

/-- No call is at work. -/
def NoCalls (c : DnsCache) : Prop := ∀ k, .call ∉ (c.keys k).holders

theorem linkItem_ok (sound : Consistent c lists queue) (new : i ∉ queue) (allocated : c.allocated i = true)
    (alone : c.links.prev i = none ∧ c.links.next i = none) (fits : c.size < 2 ^ 31) (noCalls : NoCalls c) :
    Goes (dnsCacheLinkItem i memory) (fun linked c' => Relinked c c' ∧ c'.size ≤ c.size + 1 ∧ (linked = true →
          Consistent c' (update lists (c.itemKind i) (i :: lists (c.itemKind i))) (insert i queue)) ∧
        (linked = false → Consistent c' lists queue)) c := by
  obtain ⟨put, q, run, refused, stored, _⟩ := sound.queued.put new memory.prioq fits
  have run : Prioq.put c.itemCompare i (some i) memory.prioq c.byExpiry = .ok put q := run
  have putOk : onExpiry (Prioq.put c.itemCompare i (some i) memory.prioq) c = .ok put { c with byExpiry := q } := by
    rw [onExpiry, run]
  have unlisted : ∀ κ, i ∉ lists κ := fun κ mem => new (sound.inQueue κ i mem)
  apply goes_get_bind
  apply goes_ok_bind putOk
  cases put with
  | false =>
    obtain rfl := refused rfl
    exact goes_pure ⟨relinked_structures c c.links c.byKey c.byExpiry, Nat.le_succ _, by simp, fun _ => sound⟩
  | true =>
    obtain ⟨holds, length⟩ := stored rfl
    have sound₁ : Consistent { c with byExpiry := q } lists (insert i queue) := by
      refine ⟨{ sound.held with }, { sound.listed with }, sound.mapped, sound.own, holds,
        fun κ j mem => .inr (sound.inQueue κ j mem), ?_⟩
      rintro j (rfl | mem)
      · exact allocated
      · exact sound.inUse j mem
    have relinked : Relinked c { c with byExpiry := q } := relinked_structures c c.links c.byKey q
    have head := sound₁.get (k := (c.items i).key) (sound₁.held.item_live allocated)
    refine goes_ok_bind head ?_
    cases list : lists (c.itemKind i) with
    | nil =>
      have first : (lists (kind { c with byExpiry := q } (c.items i).key)).head? = none := by
        rw [show kind { c with byExpiry := q } (c.items i).key = c.itemKind i from rfl, list]
        rfl
      rw [first]
      refine (linkFirst_ok sound₁ (.inl rfl) list alone).imp ?_
      rintro linked c' ⟨relinked', size, joined, failed⟩
      refine ⟨relinked.trans relinked', size.trans length.le, joined, ?_⟩
      intro isFalse
      have same : insert i queue \ {i} = queue := by
        ext j
        by_cases here : j = i
        · simp [new]
        · simp [here]
      exact same ▸ failed isFalse
    | cons f rest =>
      have first : (lists (kind { c with byExpiry := q } (c.items i).key)).head? = some f := by
        rw [show kind { c with byExpiry := q } (c.items i).key = c.itemKind i from rfl, list]
        rfl
      rw [first]
      refine (linkBefore_ok sound₁ (.inl rfl) unlisted list (noCalls _)).imp ?_
      rintro linked c' ⟨rfl, sound', relinked', byExpiry⟩
      refine ⟨relinked.trans relinked', ?_, fun _ => sound', by simp⟩
      rw [size, byExpiry]
      exact length.le

/-- Keys that are in use have the contents they had, and all else stays. -/
theorem Rests.kept {extra' : Set Nat} (rests : Rests c extra) (held : Held c') (links : c'.links = c.links)
    (byKey : c'.byKey = c.byKey) (byExpiry : c'.byExpiry = c.byExpiry)
    (items : ∀ i ∈ c.cached extra, c'.items i = c.items i) (cached : c'.cached extra' = c.cached extra)
    (contents : ∀ k, c.keyLive k → (c'.keys k).key = (c.keys k).key) : Rests c' extra' := by
  obtain ⟨lists, sound, all⟩ := rests
  have sound' := sound.kept held links byKey byExpiry items (fun j mem => (cached.symm ▸ mem : j ∈ c'.cached extra').1) contents
  refine ⟨lists, cached ▸ sound', ?_⟩
  intro j mem
  rw [cached] at mem
  have same : c'.itemKind j = c.itemKind j := by
    rw [itemKind, kind, items j mem, contents _ (sound.held.item_live mem.1)]
    rfl
  rw [same]
  exact all j mem

theorem Rests.held (rests : Rests c extra) : Held c := by
  obtain ⟨lists, sound, _⟩ := rests
  exact sound.held

/-- An item that is not in the cache is freed. -/
theorem freeExtra_ok (rests : Rests c {i}) (allocated : c.allocated i = true) :
    Goes (dnsCacheItemFree i) (fun _ c' => Rests c' ∅ ∧ Shrunk c c') c := by
  refine (itemFree_ok rests.held allocated).imp ?_
  rintro _ c' ⟨held, c₁, only, rfl⟩
  obtain ⟨keys, rrs, rfl⟩ := only.rest
  have shrunk : Shrunk c { c with keys, rrs, allocated := update c.allocated i false } := by
    refine ⟨{ only.toRefsKept with }, rfl, ?_, le_rfl⟩
    intro j allocated
    by_cases same : j = i
    · subst same
      simp at allocated
    · simpa [same] using allocated
  have same : cached { c with keys, rrs, allocated := update c.allocated i false } ∅ = c.cached {i} := by
    ext j
    rw [mem_cached, mem_cached]
    by_cases here : j = i
    · simp [here]
    · simp [here]
  exact ⟨rests.kept held rfl rfl rfl (fun _ _ => rfl) same fun k _ => only.contents k, shrunk⟩

/-- A new item joins the cache, or is freed. -/
theorem linkOrFree_ok (rests : Rests c {i}) (allocated : c.allocated i = true)
    (alone : c.links.prev i = none ∧ c.links.next i = none) (fits : c.size < 2 ^ 31) (noCalls : NoCalls c) :
    Goes (linkOrFree i memory) (fun _ c' => Rests c' ∅ ∧ Kept c c' ∧ c'.size ≤ c.size + 1 ∧
        ∀ j ∈ c'.cached ∅, c.allocated j = true ∧ (c'.items j).about = (c.items j).about ∧ c'.itemKind j = c.itemKind j) c := by
  obtain ⟨lists, sound, all⟩ := rests
  refine (linkItem_ok memory sound (by simp [mem_cached]) allocated alone fits noCalls).bind ?_
  rintro linked c' ⟨relinked, size, joined, failed⟩
  have same : c'.cached {i} = c.cached {i} := by
    rw [cached, cached, relinked.allocated]
  cases linked with
  | true =>
    have sound' := joined rfl
    have whole : insert i (c.cached {i}) = c'.cached ∅ := by
      ext j
      rw [Set.mem_insert_iff, mem_cached, mem_cached, relinked.allocated]
      by_cases here : j = i
      · simp [here, allocated]
      · simp [here]
    rw [whole] at sound'
    refine goes_pure ⟨⟨_, sound', ?_⟩, relinked.toKept, size, ?_⟩
    · intro j cached
      rw [← whole] at cached
      rw [relinked.itemKind]
      rcases cached with rfl | cached
      · rw [update_self]
        exact mem_cons_self
      · have stored := all j cached
        by_cases alike : c.itemKind j = c.itemKind i
        · rw [alike, update_self]
          rw [alike] at stored
          exact mem_cons_of_mem _ stored
        · rwa [update_of_ne alike]
    · intro j cached
      exact ⟨relinked.allocated ▸ cached.1, relinked.about j, relinked.itemKind j⟩
  | false =>
    have rests' : Rests c' {i} := by
      refine ⟨lists, same ▸ failed rfl, ?_⟩
      intro j cached
      rw [relinked.itemKind]
      exact all j (same ▸ cached)
    refine (freeExtra_ok rests' (relinked.allocated ▸ allocated)).bind ?_
    rintro _ c'' ⟨rests'', shrunk⟩
    refine goes_pure ⟨rests'', relinked.toKept.trans shrunk.kept, shrunk.size.trans size, ?_⟩
    intro j cached
    refine ⟨relinked.allocated ▸ shrunk.allocated j cached.1, ?_, (shrunk.itemKind j).trans (relinked.itemKind j)⟩
    rw [shrunk.items, relinked.about]

/-! ## Updating -/

/-- A change of an item that leaves alone its key and its record. -/
theorem setItem_same {f : DnsCacheItem → DnsCacheItem} {α : Type} {field : DnsCacheItem → α}
    (same : ∀ item, field (f item) = field item) (j : Nat) : field ((c.setItem i f).items j) = field (c.items j) := by
  by_cases here : j = i
  · subst here
    simp [setItem, same]
  · simp [setItem, here]

theorem Held.setItem (held : Held c) {f : DnsCacheItem → DnsCacheItem} (key : ∀ item, (f item).key = item.key)
    (rr : ∀ item, (f item).rr = item.rr) : Held (c.setItem i f) := by
  refine { held with slots := ?_, records := ?_ }
  · intro s k
    cases s with
    | item j =>
      rw [DnsCache.slotKey, setItem_same key]
      exact held.slots (.item j) k
    | rr r => exact held.slots (.rr r) k
  · intro j r
    rw [setItem_same rr]
    exact held.records j r

/-- The hash map gets the key of a record, if the item is the first of its list. -/
theorem replaceIfFirst_ok (mapped : Mapped c lists) (liveKeys : LiveKeys c) (listed : Listed c lists)
    (own : ∀ e ∈ c.byKey, e.1 = (c.items e.2).key) (stored : i ∈ lists (c.itemKind i)) (live : c.keyLive (c.rrs r).key)
    (kind : c.rrKind r = c.itemKind i) :
    ∃ entries, replaceIfFirst i r c = .ok ⟨⟩ { c with byKey := entries } ∧ Mapped { c with byKey := entries } lists ∧
      ∀ e ∈ entries, e.1 = if e.2 = i then (c.rrs r).key else (c.items e.2).key := by
  obtain ⟨before, after, list⟩ := append_of_mem stored
  have linked := listed.linked (c.itemKind i)
  rw [list] at linked
  have prev := linked.around.1
  cases before with
  | nil =>
    have first : c.links.prev i = none := prev
    obtain ⟨entries, run, entered⟩ := byKeyReplace_ok (v := i) mapped liveKeys live
    have mapped' := Entered.mapped (i :: after) entered mapped
    rw [show c.kind (c.rrs r).key = c.itemKind i from kind, ← nil_append (i :: after), ← list, update_eq_self] at mapped'
    refine ⟨entries, ?_, mapped', ?_⟩
    · rwa [replaceIfFirst, get_bind, if_pos first]
    · intro e mem
      rcases (entered e).mp mem with ⟨same, ⟨⟩⟩ | ⟨old, apart⟩
      · rwa [if_pos rfl]
      · rw [if_neg, own e old]
        intro here
        rw [own e old, here] at apart
        exact apart kind.symm
  | cons b rest =>
    have later : c.links.prev i ≠ none := by
      rw [prev]
      simp
    refine ⟨c.byKey, ?_, mapped, ?_⟩
    · rw [replaceIfFirst, get_bind, if_neg later]
      rfl
    · intro e mem
      rw [if_neg, own e mem]
      intro here
      -- the items that the hash map leads to have no predecessor
      have head := mapped.head mem
      rw [own e mem, here] at head
      obtain ⟨tail, isHead⟩ := head?_eq_some_iff.mp head
      have linked := listed.linked (c.itemKind i)
      rw [show lists (c.itemKind i) = i :: tail from isHead] at linked
      exact later linked.1

/-- What changes of one item and of its keys leave alone. -/
structure ItemOnly (i : Nat) (c c' : DnsCache) : Prop extends Kept c c' where
  sameContents : ∀ k, (c'.keys k).key = (c.keys k).key
  items : ∀ j, j ≠ i → c'.items j = c.items j
  allocated : c'.allocated = c.allocated
  links : c'.links = c.links
  byExpiry : c'.byExpiry = c.byExpiry

theorem ItemOnly.trans (first : ItemOnly i c c') (second : ItemOnly i c' c'') : ItemOnly i c c'' where
  toKept := first.toKept.trans second.toKept
  sameContents k := (second.sameContents k).trans (first.sameContents k)
  items j apart := (second.items j apart).trans (first.items j apart)
  allocated := second.allocated.trans first.allocated
  links := second.links.trans first.links
  byExpiry := second.byExpiry.trans first.byExpiry

theorem ItemOnly.kind (only : ItemOnly i c c') (k : Nat) : c'.kind k = c.kind k :=
  congrArg ValidKey.fold (only.sameContents k)

theorem itemOnly_setItem (c : DnsCache) (f : DnsCacheItem → DnsCacheItem) : ItemOnly i c (c.setItem i f) where
  toKept := { Kept.refl c with }
  sameContents _ := rfl
  items j apart := by simp [setItem, apart]
  allocated := rfl
  links := rfl
  byExpiry := rfl

theorem itemOnly_byKey (c : DnsCache) (byKey : List (Nat × Nat)) : ItemOnly i c { c with byKey } where
  toKept := (relinked_structures c c.links byKey c.byExpiry).toKept
  sameContents _ := rfl
  items _ _ := rfl
  allocated := rfl
  links := rfl
  byExpiry := rfl

theorem RefsOnly.itemOnly (only : RefsOnly c c') : ItemOnly i c c' := by
  obtain ⟨keys, rrs, rest⟩ := only.rest
  refine ⟨only.kept, only.contents, ?_, ?_, ?_, ?_⟩ <;> simp [rest]

/-- A pointer of the item to a key is set to one that is alike. -/
theorem Rekeyed.itemOnly (rekeyed : Rekeyed c c') (slots : ∀ s, s ≠ .item i → c'.slotKey s = c.slotKey s) :
    ItemOnly i c c' := by
  obtain ⟨keys, items, rrs, rest⟩ := rekeyed.rest
  refine ⟨⟨rekeyed.others, rekeyed.calls, fun k _ _ => rekeyed.kind k, ?_, ?_⟩, rekeyed.contents, ?_, ?_, ?_, ?_⟩
  · intro r n
    obtain ⟨key, same, _⟩ := rekeyed.rrs r
    rw [same]
  · exact fun r _ _ => rekeyed.rrKind r
  · intro j apart
    obtain ⟨key, item, _⟩ := rekeyed.items j
    have same : (c'.items j).key = (c.items j).key := slots (.item j) (by simpa using apart)
    rw [item] at same ⊢
    rw [show key = (c.items j).key from same]
  all_goals simp [rest]

/-- An item takes over a record, and the key of it. -/
theorem takeRecord_ok {α : Type} {f : CacheM α} {result : α → DnsCache → Prop} (held : Held c)
    (allocated : c.allocated i = true) (live : c.rrLive r) (kind : c.rrKind r = c.itemKind i)
    (next : ∀ c', Held c' → ItemOnly i c c' → c'.byKey = c.byKey → (c'.items i).about = ((c.items i).type, some r) →
      (c'.items i).key = (c.rrs r).key → Goes f result c') :
    Goes (do
      itemRrReplace i r
      let c ← get
      dnsResourceKeyReplace (.item i) (c.rrs r).key
      f) result c := by
  refine (itemRrReplace_ok held allocated live).bind ?_
  rintro _ c₁ ⟨held₁, c₀, only, rfl⟩
  have itemOnly : ItemOnly i c _ := only.itemOnly.trans (itemOnly_setItem c₀ fun item => { item with rr := some r })
  have rrKey : (c₀.rrs r).key = (c.rrs r).key := by
    obtain ⟨holders, same⟩ := only.rrs r
    rw [same]
  obtain ⟨keys, rrs, rfl⟩ := only.rest
  dsimp only at rrKey
  refine (keyReplace_ok (s := .item i) held₁ allocated (held₁.rr_live (held₁.record_live allocated r (by simp [setItem])))
    ?_).bind ?_
  · rw [itemOnly.kind, itemOnly.kind]
    simpa [setItem, slotKey, rrKey, rrKind, DnsCache.itemKind] using kind
  rintro _ c₂ ⟨held₂, rekeyed, slots⟩
  refine next c₂ held₂ ?_ ?_ ?_ ?_
  · exact itemOnly.trans (rekeyed.itemOnly fun s apart => by rw [slots, if_neg apart])
  · obtain ⟨_, _, _, rfl⟩ := rekeyed.rest
    rfl
  · obtain ⟨key, item, _⟩ := rekeyed.items i
    rw [item]
    simp [setItem, DnsCacheItem.about]
  · exact (slots (.item i)).trans ((if_pos rfl).trans rrKey)

/-- What an update of an item leaves alone. -/
structure Updated (c : DnsCache) (i r : Nat) (c' : DnsCache) : Prop extends Kept c c' where
  itemKind : ∀ j, c'.itemKind j = c.itemKind j
  record : (c'.items i).about = (.positive, some r)
  items : ∀ j, j ≠ i → c'.items j = c.items j
  allocated : c'.allocated = c.allocated
  size : c'.size = c.size

/-- An item whose record and time have changed finds its place in the queue. -/
theorem reshuffleItem_ok (sound : Consistent c lists queue) (stored : i ∈ lists (c.itemKind i))
    (kind : c.rrKind r = c.itemKind i) (only : ItemOnly i c c') (held : Held c')
    (mapped : Mapped { c with byKey := c'.byKey } lists)
    (own : ∀ e ∈ c'.byKey, e.1 = if e.2 = i then (c.rrs r).key else (c.items e.2).key)
    (record : (c'.items i).about = (.positive, some r)) (key : (c'.items i).key = (c.rrs r).key) :
    Goes (do
      let _ ← onExpiry (Prioq.reshuffle c'.itemCompare i (some i)) : CacheM PUnit)
      (fun _ c'' => Consistent c'' lists queue ∧ Updated c i r c'') c' := by
  have itemKind : ∀ j, c'.itemKind j = c.itemKind j := by
    intro j
    rw [itemKind, only.kind]
    by_cases here : j = i
    · rwa [here, key]
    · rw [only.items j here]
      rfl
  have agrees : (expiryOrder c.items).AgreesBut (expiryOrder c'.items) i := by
    intro a b apartA apartB
    rw [expiryOrder_le, expiryOrder_le, only.items a apartA, only.items b apartB]
  obtain ⟨q, run, holds, length⟩ := sound.queued.reshuffle agrees (sound.inQueue _ i stored)
  have run : Prioq.reshuffle c'.itemCompare i (some i) c'.byExpiry = .ok true q := by
    rwa [only.byExpiry]
  have shuffled : onExpiry (Prioq.reshuffle c'.itemCompare i (some i)) c' = .ok true { c' with byExpiry := q } := by
    rw [onExpiry, run]
  refine goes_ok_bind shuffled (goes_pure ⟨⟨?_, ?_, ?_, ?_, holds, sound.inQueue, ?_⟩, ?_⟩)
  · exact { held with }
  · exact sound.listed.congr only.links fun κ j _ => itemKind j
  · exact mapped.congr rfl fun e _ => only.kind e.1
  · intro e mem
    rw [own e mem]
    split
    · rename_i here
      rw [here, key]
    · rename_i apart
      rw [only.items _ apart]
  · intro j mem
    rw [only.allocated]
    exact sound.inUse j mem
  · exact ⟨only.toKept.trans (relinked_structures c' c'.links c'.byKey q).toKept, itemKind, record, only.items,
      only.allocated, length⟩

theorem updatePositive_ok (update : ItemUpdate) (sound : Consistent c lists queue) (stored : i ∈ lists (c.itemKind i))
    (live : c.rrLive r) (kind : c.rrKind r = c.itemKind i) :
    Goes (dnsCacheItemUpdatePositive i r update) (fun _ c' => Consistent c' lists queue ∧ Updated c i r c') c := by
  have queued := sound.inQueue _ i stored
  have allocated := sound.inUse i queued
  have sameKey : ∀ j, ((c.setItem i fun item => { item with type := .positive }).items j).key = (c.items j).key :=
    setItem_same fun _ => rfl
  have kind₁ : ∀ j, (c.setItem i fun item => { item with type := .positive }).itemKind j = c.itemKind j := by
    intro j
    rw [itemKind, sameKey]
    rfl
  have held₁ : Held (c.setItem i fun item => { item with type := .positive }) :=
    sound.held.setItem (fun _ => rfl) fun _ => rfl
  obtain ⟨entries, run, mapped, own⟩ := replaceIfFirst_ok (i := i) (r := r)
    (c := c.setItem i fun item => { item with type := .positive })
    sound.mapped sound.liveKeys (sound.listed.congr rfl fun κ j _ => kind₁ j)
    (fun e mem => (sound.own e mem).trans (sameKey e.2).symm) (by rw [kind₁]; exact stored) (sound.held.rr_live live)
    (by rw [kind₁]; exact kind)
  apply goes_modify_bind
  refine goes_ok_bind run ?_
  refine takeRecord_ok { held₁ with } allocated live ((kind₁ i).symm ▸ kind) ?_
  intro c₁ held only byKey record key
  have only := (((itemOnly_setItem c _).trans (itemOnly_byKey _ entries)).trans only).trans (itemOnly_setItem c₁ update.apply)
  apply goes_modify_bind
  apply goes_get_bind
  refine reshuffleItem_ok sound stored kind only (held.setItem (fun _ => rfl) fun _ => rfl) ?_ ?_ ?_ ?_
  · exact mapped.congr byKey fun _ _ => rfl
  · intro e mem
    have mem : e ∈ entries := by
      have mem : e ∈ c₁.byKey := mem
      rwa [byKey] at mem
    rw [own e mem]
    split
    · rfl
    · exact sameKey e.2
  · simpa [setItem, ItemUpdate.apply, DnsCacheItem.about] using record
  · simpa [setItem, ItemUpdate.apply] using key

/-! ## Removing -/

/-- Remove the items with the key of an item. -/
theorem removeWithKey_ok (rests : Rests c extra) (cached : i ∈ c.cached extra) (noCalls : NoCalls c) :
    Goes (removeWithKey i) (fun _ c' => Rests c' extra ∧ Shrunk c c' ∧ c'.size < c.size) c := by
  have live := rests.held.item_live cached.1
  have held := rests.held.insert (h := .call) live (by simp)
  have rests₁ : Rests (c.setKeyHolders (c.items i).key (insert .call)) extra :=
    rests.kept held rfl rfl rfl (fun _ _ => rfl) rfl fun k _ => key_setKeyHolders c _ k _
  have live₁ : (c.setKeyHolders (c.items i).key (insert .call)).keyLive (c.items i).key := by
    rw [keyLive, holders_setKeyHolders, if_pos rfl]
    exact ne_empty_of_mem (Finset.mem_insert_self _ _)
  apply goes_require_bind cached.1
  apply goes_ok_bind (keyRef_ok live (noCalls _))
  refine (removeByKey_ok rests₁ live₁).bind ?_
  rintro _ c₁ ⟨rests₁, shrunk, -, less, -⟩
  have called : .call ∈ (c₁.keys (c.items i).key).holders := by
    rw [shrunk.others _ _ (by simp), holders_setKeyHolders, if_pos rfl]
    exact Finset.mem_insert_self _ _
  have contents : ∀ k, (c₁.keys k).key = (c.keys k).key := fun k => (shrunk.contents k).trans (key_setKeyHolders c _ k _)
  refine goes_of_ok (keyUnref_ok called) ⟨?_, ?_, ?_⟩
  · exact rests₁.kept (rests₁.held.erase _ (by simp)) rfl rfl rfl (fun _ _ => rfl) rfl fun k _ => key_setKeyHolders c₁ _ k _
  · refine { shrunk with contents := ?_, others := ?_ }
    · intro k
      rw [key_setKeyHolders]
      exact contents k
    · intro k h apart
      have := shrunk.others k h apart
      rw [holders_setKeyHolders] at this ⊢
      by_cases isCall : h = .call
      · split <;> simp_all [NoCalls]
      · split <;> simp_all
  · exact less ⟨i, cached, rfl⟩

theorem Shrunk.noCalls (shrunk : Shrunk c c') (noCalls : NoCalls c) : NoCalls c' := by
  intro k
  rw [shrunk.others k .call (by simp)]
  exact noCalls k

theorem Consistent.peek (sound : Consistent c lists queue) (nonempty : c.size ≠ 0) :
    ∃ j, c.byExpiry.peek = some j ∧ j ∈ queue := by
  cases first : c.byExpiry.peek with
  | some j => exact ⟨j, rfl, sound.queued.peek_mem first⟩
  | none =>
    refine absurd ?_ nonempty
    simpa [Prioq.peek, Prioq.peekByIndex, size] using first

theorem makeSpaceLoop_ok {add : Nat} (rests : Rests c extra) (noCalls : NoCalls c) (fuel : c.size < n) :
    Goes (makeSpaceLoop add n)
      (fun _ c' => Rests c' extra ∧ Shrunk c c' ∧ (c'.size = 0 ∨ c'.size + add < cacheMax)) c := by
  induction n generalizing c with
  | zero => omega
  | succ n ih =>
    apply goes_get_bind
    split
    · rename_i empty
      exact goes_pure ⟨rests, Shrunk.refl c, .inl empty⟩
    rename_i nonempty
    split
    · rename_i space
      exact goes_pure ⟨rests, Shrunk.refl c, .inr space⟩
    have ⟨lists, sound, _⟩ := rests
    obtain ⟨j, first, mem⟩ := sound.peek nonempty
    rw [first]
    refine (removeWithKey_ok rests mem noCalls).bind ?_
    rintro _ c₁ ⟨rests₁, shrunk, less⟩
    refine (ih rests₁ (shrunk.noCalls noCalls) (by omega)).imp ?_
    rintro _ c' ⟨rests', shrunk', space⟩
    exact ⟨rests', shrunk.trans shrunk', space⟩

theorem makeSpace_ok (add : Nat) (rests : Rests c extra) (noCalls : NoCalls c) : Goes (dnsCacheMakeSpace add)
      (fun _ c' => Rests c' extra ∧ Shrunk c c' ∧ (add = 1 → c'.size < cacheMax)) c := by
  apply goes_get_bind
  split
  · exact goes_pure ⟨rests, Shrunk.refl c, by omega⟩
  refine (makeSpaceLoop_ok rests noCalls (Nat.lt_succ_self _)).imp ?_
  rintro _ c' ⟨rests', shrunk, space⟩
  refine ⟨rests', shrunk, ?_⟩
  rw [cacheMax] at space ⊢
  omega

theorem pruneLoop_ok {t : UInt64} (rests : Rests c extra) (noCalls : NoCalls c)
    (fuel : c.size < n) : Goes (pruneLoop t n) (fun _ c' => Rests c' extra ∧ Shrunk c c') c := by
  induction n generalizing c with
  | zero => omega
  | succ n ih =>
    apply goes_get_bind
    have ⟨lists, sound, _⟩ := rests
    have again : ∀ c₁, Rests c₁ extra → Shrunk c c₁ → c₁.size < c.size →
        Goes (pruneLoop t n) (fun _ c' => Rests c' extra ∧ Shrunk c c') c₁ := by
      intro c₁ rests₁ shrunk less
      refine (ih rests₁ (shrunk.noCalls noCalls) (by omega)).imp ?_
      rintro _ c' ⟨rests', shrunk'⟩
      exact ⟨rests', shrunk.trans shrunk'⟩
    cases first : c.byExpiry.peek with
    | none => exact goes_pure ⟨rests, Shrunk.refl c⟩
    | some j =>
      have mem := sound.queued.peek_mem first
      dsimp only
      split
      · exact goes_pure ⟨rests, Shrunk.refl c⟩
      split
      · refine (unlink_ok rests mem).bind ?_
        rintro _ c₁ ⟨rests₁, shrunk, less, _⟩
        exact again c₁ rests₁ shrunk less
      · refine (removeWithKey_ok rests mem noCalls).bind ?_
        rintro _ c₁ ⟨rests₁, shrunk, less⟩
        exact again c₁ rests₁ shrunk less

theorem flushLoop_ok (rests : Rests c extra) (fuel : c.size < n) :
    Goes (flushLoop n) (fun _ c' => Rests c' extra ∧ Shrunk c c' ∧ c'.byKey = []) c := by
  induction n generalizing c with
  | zero => omega
  | succ n ih =>
    apply goes_get_bind
    cases entries : c.byKey with
    | nil => exact goes_pure ⟨rests, Shrunk.refl c, entries⟩
    | cons e more =>
      have ⟨lists, sound, _⟩ := rests
      have mem : e ∈ c.byKey := by simp [entries]
      have listed := mem_of_mem_head? (sound.mapped.head mem)
      refine (removeByKey_ok rests (sound.liveKeys e mem)).bind ?_
      rintro _ c₁ ⟨rests₁, shrunk, -, less, -⟩
      have less := less ⟨e.2, sound.inQueue _ _ listed, sound.listed.kinds _ _ listed⟩
      refine (ih rests₁ (by omega)).imp ?_
      rintro _ c' ⟨rests', shrunk', empty⟩
      exact ⟨rests', shrunk.trans shrunk', empty⟩

theorem flush_ok (rests : Rests c extra) : Goes dnsCacheFlush (fun _ c' => Rests c' extra ∧ Shrunk c c') c := by
  refine (flushLoop_ok rests (Nat.lt_succ_self _)).bind ?_
  rintro _ c₁ ⟨⟨lists, sound, all⟩, shrunk, empty⟩
  have noItems : c₁.cached extra = ∅ := by
    refine Set.eq_empty_iff_forall_notMem.mpr fun j cached => ?_
    obtain ⟨e, mem, _⟩ := sound.mapped.entry (all j cached)
    simp [empty] at mem
  have noQueue : c₁.size = 0 := by
    by_contra nonempty
    obtain ⟨j, _, mem⟩ := sound.peek nonempty
    simp [noItems] at mem
  apply goes_require_bind empty
  apply goes_require_bind noQueue
  refine goes_modify ⟨⟨lists, ?_, all⟩, ?_⟩
  · refine ⟨{ sound.held with }, { sound.listed with }, sound.mapped, sound.own, ?_, sound.inQueue, sound.inUse⟩
    have none : Prioq.Holds (expiryOrder c₁.items) (c₁.cached extra) (Prioq.new c₁.byExpiry.slots) :=
      noItems ▸ Prioq.holds_new _ _
    exact none
  · exact { shrunk with size := Nat.zero_le _ }

/-! ## Looking for a record -/

theorem Consistent.length_le (sound : Consistent c lists queue) (κ : DnsResourceKey) : (lists κ).length ≤ c.size := by
  have fewer : (lists κ).map (fun j => (⟨j, some j⟩ : PrioqItem Nat Nat)) ⊆ c.byExpiry.items := by
    intro x mem
    obtain ⟨j, stored, rfl⟩ := mem_map.mp mem
    exact (sound.queued.members j).mpr (sound.inQueue κ j stored)
  have nodup : ((lists κ).map fun j => (⟨j, some j⟩ : PrioqItem Nat Nat)).Nodup := by
    refine (sound.listed.nodup κ).map fun a b same => ?_
    exact congrArg PrioqItem.data same
  have := (nodup.subperm fewer).length_le
  rwa [length_map] at this

theorem getLoop_ok (linked : c.links.Linked before list) (allocated : ∀ j ∈ list, c.allocated j = true)
    (fuel : list.length < n) : Goes (getLoop r n list.head?) (fun found c' => c' = c ∧ ∀ j ∈ found, j ∈ list) c := by
  induction n generalizing before list with
  | zero => omega
  | succ n ih =>
    cases list with
    | nil => exact goes_pure ⟨rfl, by simp⟩
    | cons j rest =>
      obtain ⟨-, next, linked⟩ := linked
      have again : Goes (getLoop r n (c.links.next j)) (fun found c' => c' = c ∧ ∀ j' ∈ found, j' ∈ j :: rest) c := by
        rw [next]
        refine (ih linked (fun j' mem => allocated j' (mem_cons_of_mem _ mem)) (by simpa using fuel)).imp ?_
        rintro found c' ⟨same, mem⟩
        exact ⟨same, fun j' isFound => mem_cons_of_mem _ (mem j' isFound)⟩
      apply goes_require_bind (allocated j mem_cons_self)
      cases (c.items j).rr with
      | none => exact again
      | some rr =>
        dsimp only
        split
        · refine goes_pure ⟨rfl, ?_⟩
          rintro j' ⟨⟩
          exact mem_cons_self
        · exact again

theorem get_ok (sound : Consistent c lists queue) (live : c.rrLive r) :
    Goes (dnsCacheGet r) (fun found c' => c' = c ∧ ∀ j ∈ found, j ∈ lists (c.rrKind r)) c := by
  have first := sound.get (sound.held.rr_live live)
  apply goes_ok_bind first
  exact getLoop_ok (sound.listed.linked _) (fun j mem => sound.inUse j (sound.inQueue _ j mem))
    (Nat.lt_succ_of_le (sound.length_le _))

/-- The error of a run that is not `sure` to come back: an item has no record to compare. -/
def NoRecord (sure : Prop) (fault : CacheFault) (_ : DnsCache) : Prop := fault = .assertion ∧ ¬ sure

variable {sure : Prop}

theorem removeByRrLoop_ok (rests : Rests c extra) (linked : c.links.Linked before list)
    (cached : ∀ j ∈ list, j ∈ c.cached extra) (positive : sure → ∀ j ∈ list, (c.items j).rr ≠ none)
    (fuel : list.length < n) :
    wp (removeByRrLoop r n list.head?) (fun _ c' => Rests c' extra ∧ Shrunk c c') (NoRecord sure) c := by
  induction n generalizing before list with
  | zero => omega
  | succ n ih =>
    cases list with
    | nil => exact wp_pure.mpr ⟨rests, Shrunk.refl c⟩
    | cons j rest =>
      obtain ⟨-, next, linked⟩ := linked
      have here := cached j mem_cons_self
      refine wp_get_bind.mpr (wp_require_bind (fun unused => absurd here.1 unused) fun _ => ?_)
      cases record : (c.items j).rr with
      | none => exact ⟨rfl, fun isSure => positive isSure j mem_cons_self record⟩
      | some rr =>
        dsimp only
        split
        · exact wp_pure.mpr ⟨rests, Shrunk.refl c⟩
        · refine (unlink_ok rests here).wp_imp ?_
          rintro _ c' ⟨rests', shrunk, _⟩
          exact ⟨rests', shrunk⟩
        · rw [next]
          exact ih linked (fun j' mem => cached j' (mem_cons_of_mem _ mem))
            (fun isSure j' mem => positive isSure j' (mem_cons_of_mem _ mem)) (by simpa using fuel)

theorem removeByRr_ok (rests : Rests c extra) (live : c.rrLive r)
    (positive : sure → ∀ j ∈ c.cached extra, c.itemKind j = c.rrKind r → (c.items j).rr ≠ none) :
    wp (dnsCacheRemoveByRr r) (fun _ c' => Rests c' extra ∧ Shrunk c c') (NoRecord sure) c := by
  have ⟨lists, sound, _⟩ := rests
  have first := sound.get (sound.held.rr_live live)
  refine wp_get_bind.mpr ((goes_of_ok first ⟨rfl, rfl⟩ : Goes _ (fun a t => a = _ ∧ t = _) c).wp_bind ?_)
  rintro _ _ ⟨rfl, rfl⟩
  exact removeByRrLoop_ok rests (sound.listed.linked _) (sound.inQueue _)
    (fun isSure j mem => positive isSure j (sound.inQueue _ j mem) (sound.listed.kinds _ j mem))
    (Nat.lt_succ_of_le (sound.length_le _))

end SystemdPort.Resolve
