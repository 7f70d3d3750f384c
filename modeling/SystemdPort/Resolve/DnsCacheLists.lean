/-
# Resolve.DnsCacheLists — the lists, the hash map and the queue of a cache

`Consistent c lists queue` says that the items of each kind of key are linked as the list that `lists` has
for it, that the hash map leads to the first item of each list, under the very key of that item, and
that the queue has the items of `queue`, in order.  Items may be in the queue and in no list while they
are being added or removed.

* `unlink_ok` — one item is taken out of its list.
* `removeByKey_ok` — the items of a key are removed.
* `linkBefore_ok` — an item is put in front of the list of its key.
-/
import SystemdPort.Basic.PrioqMembers
import SystemdPort.Resolve.DnsCacheRefs

namespace SystemdPort.Resolve

set_option autoImplicit false

open Basic Lib Lib.Exec Shared.Dns Function List

variable {list : List Nat} {c c' c'' : DnsCache} {lists : DnsResourceKey → List Nat} {queue : Set Nat}

/-! ## The hash map -/

/-- The hash map leads to the first items of the lists. -/
def Mapped (c : DnsCache) (lists : DnsResourceKey → List Nat) : Prop :=
  ∀ κ h, (∃ k, (k, h) ∈ c.byKey ∧ c.kind k = κ) ↔ (lists κ).head? = some h

/-- None of the keys in the hash map is freed. -/
def LiveKeys (c : DnsCache) : Prop := ∀ e ∈ c.byKey, c.keyLive e.1

theorem Mapped.head (mapped : Mapped c lists) {e : Nat × Nat} (stored : e ∈ c.byKey) :
    (lists (c.kind e.1)).head? = some e.2 := (mapped _ _).mp ⟨e.1, stored, rfl⟩

theorem Mapped.entry (mapped : Mapped c lists) {κ : DnsResourceKey} {i : Nat} (listed : i ∈ lists κ) :
    ∃ e ∈ c.byKey, c.kind e.1 = κ := by
  obtain ⟨h, head⟩ := Option.isSome_iff_exists.mp (isSome_head?.mpr (ne_nil_of_mem listed))
  obtain ⟨k, stored, kind⟩ := (mapped _ _).mpr head
  exact ⟨(k, h), stored, kind⟩

variable {κ : DnsResourceKey} {first k v : Nat} {before after : List Nat} {entries : List (Nat × Nat)}

theorem byKeyEntry_ok (mapped : Mapped c lists) (liveKeys : LiveKeys c) (live : c.keyLive k) :
    ∃ e, byKeyEntry k c = .ok e c ∧ e.map Prod.snd = (lists (c.kind k)).head? := by
  refine ⟨_, by rw [byKeyEntry, get_bind, require_of ⟨live, liveKeys⟩]; rfl, ?_⟩
  cases found : c.byKey.find? fun e => c.sameKey e.1 k with
  | some e =>
    have passes : c.sameKey e.1 k = true := by simpa using find?_some found
    rw [← (c.sameKey_iff _ _).mp passes, mapped.head (mem_of_find?_eq_some found)]
    rfl
  | none =>
    cases head : (lists (c.kind k)).head? with
    | none => rfl
    | some h =>
      obtain ⟨k', mem, same⟩ := (mapped _ _).mpr head
      exact absurd ((c.sameKey_iff k' k).mpr same) (find?_eq_none.mp found _ mem)

theorem byKeyGet_ok (mapped : Mapped c lists) (liveKeys : LiveKeys c) (live : c.keyLive k) :
    byKeyGet k c = .ok (lists (c.kind k)).head? c := by
  obtain ⟨e, run, head⟩ := byKeyEntry_ok mapped liveKeys live
  rw [byKeyGet, bind_of_ok run, ← head]
  rfl

/-- There is `new` for a key, and for others what the hash map has. -/
def Entered (c : DnsCache) (k : Nat) (new : Option Nat) (entries : List (Nat × Nat)) : Prop :=
  ∀ e, e ∈ entries ↔ e.1 = k ∧ new = some e.2 ∨ e ∈ c.byKey ∧ c.kind e.1 ≠ c.kind k

theorem Entered.others (entered : Entered c k none entries) : ∀ e ∈ entries, e ∈ c.byKey ∧ c.kind e.1 ≠ c.kind k :=
  fun e mem => ((entered e).mp mem).resolve_left (by simp)

/-- The hash map after the list of one kind has changed. -/
theorem Entered.mapped (list : List Nat) (entered : Entered c k list.head? entries) (mapped : Mapped c lists) :
    Mapped { c with byKey := entries } (update lists (c.kind k) list) := by
  intro κ h
  by_cases same : κ = c.kind k
  · subst same
    rw [update_self]
    constructor
    · rintro ⟨k', stored, same⟩
      rcases (entered _).mp stored with ⟨_, first⟩ | ⟨_, apart⟩
      · exact first
      · exact absurd same apart
    · exact fun first => ⟨k, (entered (k, h)).mpr (.inl ⟨rfl, first⟩), rfl⟩
  · rw [update_of_ne same, ← mapped]
    refine exists_congr fun k' => and_congr_left ?_
    rintro rfl
    refine (entered _).trans ⟨?_, fun stored => .inr ⟨stored, same⟩⟩
    rintro (⟨rfl, _⟩ | ⟨stored, _⟩)
    · exact absurd rfl same
    · exact stored

theorem byKeyTake_ok (mapped : Mapped c lists) (liveKeys : LiveKeys c) (live : c.keyLive k) :
    ∃ entries, byKeyTake k c = .ok (lists (c.kind k)).head? { c with byKey := entries } ∧ Entered c k none entries := by
  obtain ⟨e, run, head⟩ := byKeyEntry_ok mapped liveKeys live
  refine ⟨c.byKey.filter fun e => !c.sameKey e.1 k, ?_, fun e => ?_⟩
  · rw [byKeyTake, bind_of_ok run, ← head]
    rfl
  · rw [mem_filter, Bool.not_eq_true', ← Bool.not_eq_true, c.sameKey_iff]
    simp

/-- There was no entry for the key. -/
theorem Mapped.entered (mapped : Mapped c lists) (empty : (lists (c.kind k)).head? = none) :
    Entered c k (some v) ((k, v) :: c.byKey) := by
  intro e
  rw [mem_cons, Prod.ext_iff, Option.some.injEq, eq_comm (a := v)]
  refine or_congr_right ⟨fun stored => ⟨stored, fun same => ?_⟩, And.left⟩
  rw [← same, mapped.head stored] at empty
  cases empty

theorem byKeyReplace_ok (mapped : Mapped c lists) (liveKeys : LiveKeys c) (live : c.keyLive k) :
    ∃ entries, byKeyReplace k v c = .ok ⟨⟩ { c with byKey := entries } ∧ Entered c k (some v) entries := by
  obtain ⟨e, run, head⟩ := byKeyEntry_ok mapped liveKeys live
  rw [byKeyReplace, bind_of_ok run]
  cases e with
  | some old =>
    obtain ⟨k₀, stored, alike⟩ := (mapped (c.kind k) old.2).mpr head.symm
    refine ⟨_, rfl, fun e => ?_⟩
    rw [mem_map]
    constructor
    · rintro ⟨e', stored, rfl⟩
      split
      · exact .inl ⟨rfl, rfl⟩
      · rename_i apart
        exact .inr ⟨stored, mt (c.sameKey_iff _ _).mpr apart⟩
    · rintro (⟨rfl, ⟨⟩⟩ | ⟨stored, apart⟩)
      · exact ⟨_, stored, if_pos ((c.sameKey_iff _ _).mpr alike)⟩
      · exact ⟨e, stored, if_neg (mt (c.sameKey_iff _ _).mp apart)⟩
  | none => exact ⟨_, rfl, mapped.entered head.symm⟩

theorem byKeyPut_ok (mapped : Mapped c lists) (liveKeys : LiveKeys c) (live : c.keyLive k)
    (empty : lists (c.kind k) = []) (memory : Bool) :
    byKeyPut k v memory c = .ok memory (if memory then { c with byKey := (k, v) :: c.byKey } else c) ∧
      Mapped { c with byKey := (k, v) :: c.byKey } (update lists (c.kind k) [v]) := by
  obtain ⟨e, run, head⟩ := byKeyEntry_ok mapped liveKeys live
  rw [empty] at head
  obtain rfl : e = none := by simpa using head
  refine ⟨?_, Entered.mapped [v] (mapped.entered (by rw [empty]; rfl)) mapped⟩
  rw [byKeyPut, bind_of_ok run]
  cases memory <;> rfl

/-! ## The whole -/

/-- `dns_cache_item_prioq_compare_func()` -/
def expiryOrder (items : Nat → DnsCacheItem) : Comparison Nat := .byNat fun i => (items i).until_.toNat

theorem expiryOrder_le (items : Nat → DnsCacheItem) (a b : Nat) :
    (expiryOrder items).compare a b ≤ 0 ↔ (items a).until_.toNat ≤ (items b).until_.toNat := cmpInt_le_zero _ _

/-- The items of each kind of key are linked, in the order that `lists` has. -/
structure Listed (c : DnsCache) (lists : DnsResourceKey → List Nat) : Prop where
  kinds : ∀ κ, ∀ i ∈ lists κ, c.itemKind i = κ
  nodup : ∀ κ, (lists κ).Nodup
  linked : ∀ κ, c.links.Linked none (lists κ)

structure Consistent (c : DnsCache) (lists : DnsResourceKey → List Nat) (queue : Set Nat) : Prop where
  held : Held c
  listed : Listed c lists
  mapped : Mapped c lists
  /-- The hash map has the keys of the first items. -/
  own : ∀ e ∈ c.byKey, e.1 = (c.items e.2).key
  queued : Prioq.Holds (expiryOrder c.items) queue c.byExpiry
  inQueue : ∀ κ, ∀ i ∈ lists κ, i ∈ queue
  inUse : ∀ i ∈ queue, c.allocated i = true

namespace Consistent

theorem liveKeys (sound : Consistent c lists queue) : LiveKeys c := by
  intro e stored
  rw [sound.own e stored]
  exact sound.held.item_live (sound.inUse _ (sound.inQueue _ _ (mem_of_mem_head? (sound.mapped.head stored))))

theorem get (sound : Consistent c lists queue) (live : c.keyLive k) : byKeyGet k c = .ok (lists (c.kind k)).head? c :=
  byKeyGet_ok sound.mapped sound.liveKeys live

end Consistent

theorem Listed.update (listed : Listed c lists) (same : c'.itemKind = c.itemKind)
    (mine : ∀ j ∈ list, c.itemKind j = κ) (nodup : list.Nodup) (linked : c'.links.Linked none list)
    (others : ∀ κ', κ' ≠ κ → c'.links.Linked none (lists κ')) : Listed c' (update lists κ list) where
  kinds := (forall_update_iff lists fun κ' l => ∀ j ∈ l, c'.itemKind j = κ').mpr
    (same ▸ ⟨mine, fun κ' _ => listed.kinds κ'⟩)
  nodup := (forall_update_iff lists fun _ l => l.Nodup).mpr ⟨nodup, fun κ' _ => listed.nodup κ'⟩
  linked := (forall_update_iff lists fun _ l => c'.links.Linked none l).mpr ⟨linked, others⟩

theorem listRemove_ok {i : Nat} (listed : Listed c lists) (list : lists κ = before ++ i :: after) :
    listRemove (lists κ).head? i c = .ok (before ++ after).head? { c with links := c.links.remove i } ∧
      Listed { c with links := c.links.remove i } (update lists κ (before ++ after)) := by
  have linked := listed.linked κ
  have nodup := listed.nodup κ
  rw [list] at linked nodup
  have around := linked.around
  have mine : ∀ j ∈ before ++ i :: after, c.itemKind j = κ := fun j mem => listed.kinds κ j (list ▸ mem)
  refine ⟨?_, listed.update rfl ?_ ?_ ?_ fun κ' same => ?_⟩
  · rw [listRemove, get_bind, list]
    cases before with
    | nil =>
      have first : c.links.prev i = none := around.1
      rw [require_of (.inr rfl), if_pos first, around.2]
      rfl
    | cons b rest =>
      have later : c.links.prev i ≠ none := by
        rw [around.1]
        simp
      rw [require_of (.inl later), if_neg later]
      rfl
  · exact fun j mem => mine j (((sublist_cons_self i after).append_left before).subset mem)
  · exact nodup.sublist (List.Sublist.append_left (sublist_cons_self i after) before)
  · exact Links.linked_remove linked nodup (by simp)
  · have apart : ∀ j ∈ lists κ', j ∉ before ++ i :: after := by
      intro j mem stored
      exact same ((listed.kinds κ' j mem).symm.trans (mine j stored))
    refine (listed.linked κ').congr fun j mem => Links.remove_of_ne ?_ ?_ ?_
    · rintro rfl
      exact apart j mem (by simp)
    · rw [around.2]
      intro isNext
      exact apart j mem (by simp [mem_of_mem_head? isNext])
    · rw [around.1, Option.or_none]
      intro isPrev
      exact apart j mem (mem_append_left _ (mem_of_getLast? isPrev))

/-- Nothing that matters to the lists and the hash map has changed. -/
theorem Listed.congr (listed : Listed c lists) (links : c'.links = c.links)
    (kinds : ∀ κ, ∀ i ∈ lists κ, c'.itemKind i = c.itemKind i) : Listed c' lists where
  kinds κ i mem := (kinds κ i mem).trans (listed.kinds κ i mem)
  nodup := listed.nodup
  linked κ := links ▸ listed.linked κ

theorem Mapped.congr (mapped : Mapped c lists) (byKey : c'.byKey = c.byKey)
    (kinds : ∀ e ∈ c.byKey, c'.kind e.1 = c.kind e.1) : Mapped c' lists := by
  intro κ h
  rw [← mapped, byKey]
  exact exists_congr fun k => and_congr_right fun mem => by rw [kinds _ mem]

/-! ## Removing -/

/-- What removing items leaves alone. -/
structure Shrunk (c c' : DnsCache) : Prop extends RefsKept c c' where
  items : c'.items = c.items
  allocated : ∀ i, c'.allocated i = true → c.allocated i = true
  size : c'.size ≤ c.size

theorem Shrunk.refl (c : DnsCache) : Shrunk c c := ⟨RefsKept.refl c, rfl, fun _ => id, le_rfl⟩

theorem Shrunk.trans (first : Shrunk c c') (second : Shrunk c' c'') : Shrunk c c'' where
  toRefsKept := first.toRefsKept.trans second.toRefsKept
  items := second.items.trans first.items
  allocated i := first.allocated i ∘ second.allocated i
  size := second.size.trans first.size

theorem Shrunk.itemKind (shrunk : Shrunk c c') (i : Nat) : c'.itemKind i = c.itemKind i := by
  rw [DnsCache.itemKind, DnsCache.itemKind, shrunk.kind, shrunk.items]

theorem expiryRemove_ok {i : Nat} (sound : Consistent c lists queue) (queued : i ∈ queue) :
    ∃ q, expiryRemove i c = .ok ⟨⟩ { c with byExpiry := q } ∧
      Prioq.Holds (expiryOrder c.items) (queue \ {i}) q ∧ q.items.length < c.size := by
  obtain ⟨q, run, holds, _, less⟩ := sound.queued.remove queued
  have run : Prioq.remove c.itemCompare i (some i) c.byExpiry = .ok true q := run
  refine ⟨q, ?_, holds, less⟩
  rw [expiryRemove, get_bind, bind_apply, onExpiry, run]
  rfl

/-- An item that is in no list leaves the queue and is freed. -/
theorem dropItem_ok {i : Nat} (sound : Consistent c lists queue) (queued : i ∈ queue) (unlisted : ∀ κ, i ∉ lists κ) :
    Goes (do
      expiryRemove i
      dnsCacheItemFree i : CacheM PUnit)
      (fun _ c' => Consistent c' lists (queue \ {i}) ∧ Shrunk c c' ∧ c'.links = c.links ∧ c'.size < c.size ∧
        c'.allocated = update c.allocated i false) c := by
  obtain ⟨q, removed, holds, less⟩ := expiryRemove_ok sound queued
  have held : Held { c with byExpiry := q } :=
    { sound.held with }
  refine goes_ok_bind removed ((itemFree_ok held (sound.inUse i queued)).imp ?_)
  rintro _ c' ⟨held, c₁, only, rfl⟩
  obtain ⟨keys, rrs, rfl⟩ := only.rest
  have shrunk : Shrunk c { c with keys, rrs, byExpiry := q, allocated := update c.allocated i false } := by
    refine ⟨{ only.toRefsKept with }, rfl, ?_, less.le⟩
    intro j allocated
    by_cases same : j = i
    · subst same
      simp at allocated
    · simpa [same] using allocated
  refine ⟨⟨held, ?_, ?_, sound.own, holds, ?_, ?_⟩, shrunk, rfl, less, rfl⟩
  · exact sound.listed.congr rfl fun κ j _ => shrunk.itemKind j
  · exact sound.mapped.congr rfl fun e _ => shrunk.kind e.1
  · intro κ j mem
    refine ⟨sound.inQueue κ j mem, ?_⟩
    rintro rfl
    exact unlisted κ mem
  · rintro j ⟨mem, apart⟩
    have apart : j ≠ i := apart
    simpa [apart] using sound.inUse j mem

/-- A list has a new first item, or none. -/
theorem setFirst_ok (list : List Nat) (mapped : Mapped c lists) (liveKeys : LiveKeys c)
    (own : ∀ e ∈ c.byKey, c.kind e.1 ≠ κ → e.1 = (c.items e.2).key) (empty : list = [] → c.keyLive k ∧ c.kind k = κ)
    (members : ∀ j ∈ list, c.keyLive (c.items j).key ∧ c.itemKind j = κ) :
    ∃ entries, byKeySetFirst k list.head? c = .ok ⟨⟩ { c with byKey := entries } ∧
      Mapped { c with byKey := entries } (update lists κ list) ∧ ∀ e ∈ entries, e.1 = (c.items e.2).key := by
  cases list with
  | nil =>
    obtain ⟨live, kind⟩ := empty rfl
    obtain ⟨entries, run, entered⟩ := byKeyTake_ok mapped liveKeys live
    subst kind
    refine ⟨entries, ?_, entered.mapped [] mapped, fun e mem => own e (entered.others e mem).1 (entered.others e mem).2⟩
    rw [head?_nil, byKeySetFirst, bind_of_ok run]
    rfl
  | cons v rest =>
    obtain ⟨live, rfl⟩ := members v mem_cons_self
    obtain ⟨entries, run, entered⟩ := byKeyReplace_ok (v := v) mapped liveKeys live
    refine ⟨entries, ?_, entered.mapped (v :: rest) mapped, fun e mem => ?_⟩
    · rwa [head?_cons, byKeySetFirst, get_bind]
    · rcases (entered e).mp mem with ⟨same, ⟨⟩⟩ | ⟨stored, apart⟩
      · exact same
      · exact own e stored apart

theorem unlinkAndFree_ok {i : Nat} (sound : Consistent c lists queue) (list : lists κ = before ++ i :: after) :
    Goes (dnsCacheItemUnlinkAndFree i)
      (fun _ c' => Consistent c' (update lists κ (before ++ after)) (queue \ {i}) ∧ Shrunk c c' ∧ c'.size < c.size ∧
        c'.allocated = update c.allocated i false) c := by
  have listed : i ∈ lists κ := by simp [list]
  have queued := sound.inQueue κ i listed
  have allocated := sound.inUse i queued
  have kind : c.itemKind i = κ := sound.listed.kinds κ i listed
  have live := sound.held.item_live allocated
  have first := sound.get live
  rw [show c.kind (c.items i).key = κ from kind] at first
  obtain ⟨removed, listed'⟩ := listRemove_ok sound.listed list
  have fewer : before ++ after ⊆ lists κ := by
    rw [list]
    exact ((sublist_cons_self i after).append_left before).subset
  have members : ∀ j ∈ before ++ after, c.keyLive (c.items j).key ∧ c.itemKind j = κ := by
    intro j mem
    have mem := fewer mem
    exact ⟨sound.held.item_live (sound.inUse j (sound.inQueue κ j mem)), sound.listed.kinds κ j mem⟩
  obtain ⟨entries, run, mapped, own⟩ := setFirst_ok (c := { c with links := c.links.remove i }) _
    sound.mapped sound.liveKeys (fun e mem _ => sound.own e mem) (fun _ => ⟨live, kind⟩) members
  have sound' : Consistent { c with links := c.links.remove i, byKey := entries }
      (update lists κ (before ++ after)) queue := by
    refine ⟨{ sound.held with }, { listed' with }, mapped, own, sound.queued, ?_, sound.inUse⟩
    exact (forall_update_iff lists fun _ l => ∀ j ∈ l, j ∈ queue).mpr
      ⟨fun j mem => sound.inQueue κ j (fewer mem), fun κ' _ => sound.inQueue κ'⟩
  have nodup := sound.listed.nodup κ
  rw [list] at nodup
  have unlisted : ∀ κ', i ∉ update lists κ (before ++ after) κ' :=
    (forall_update_iff lists fun _ l => i ∉ l).mpr ⟨(nodup_middle.mp nodup).notMem,
      fun κ' apart mem => apart ((sound.listed.kinds κ' i mem).symm.trans kind)⟩
  apply goes_get_bind
  apply goes_require_bind allocated
  apply goes_ok_bind first
  apply goes_ok_bind removed
  apply goes_ok_bind run
  refine (dropItem_ok sound' queued unlisted).imp ?_
  rintro _ c' ⟨sound, shrunk, -, less, freed⟩
  refine ⟨sound, ?_, less, freed⟩
  exact { shrunk with }

theorem removeByKeyLoop_ok {n : Nat} {before : Option Nat} (sound : Consistent c lists queue)
    (linked : c.links.Linked before list) (nodup : list.Nodup) (queued : ∀ i ∈ list, i ∈ queue)
    (unlisted : ∀ i ∈ list, ∀ κ, i ∉ lists κ) (fuel : c.size < n) : Goes (removeByKeyLoop n list.head?)
      (fun _ c' => Consistent c' lists (queue \ {i | i ∈ list}) ∧ Shrunk c c' ∧ c'.links = c.links ∧
        (list ≠ [] → c'.size < c.size) ∧ ∀ j, c'.allocated j = true ↔ c.allocated j = true ∧ j ∉ list) c := by
  induction n generalizing c queue before list with
  | zero => omega
  | succ n ih =>
    cases list with
    | nil =>
      refine goes_pure ⟨?_, Shrunk.refl c, rfl, fun nonempty => absurd rfl nonempty, by simp⟩
      simpa using sound
    | cons i rest =>
      obtain ⟨-, next, linked⟩ := linked
      obtain ⟨fresh, nodup⟩ := nodup_cons.mp nodup
      have here := queued i mem_cons_self
      apply goes_require_bind (sound.inUse i here)
      rw [← bind_assoc]
      refine (dropItem_ok sound here (unlisted i mem_cons_self)).bind ?_
      rintro _ c₁ ⟨sound, shrunk, links, less, freed⟩
      rw [next]
      rw [← links] at linked
      refine (ih sound linked nodup ?_ ?_ (by omega)).imp ?_
      · intro j mem
        refine ⟨queued j (mem_cons_of_mem _ mem), ?_⟩
        rintro rfl
        exact fresh mem
      · exact fun j mem => unlisted j (mem_cons_of_mem _ mem)
      rintro _ c' ⟨sound, shrunk', links', -, freed'⟩
      refine ⟨?_, shrunk.trans shrunk', links'.trans links, ?_, ?_⟩
      · have same : (queue \ {i}) \ {j | j ∈ rest} = queue \ {j | j ∈ i :: rest} := by
          ext j
          simp [and_assoc]
        exact same ▸ sound
      · have := shrunk'.size
        omega
      · intro j
        rw [freed', freed]
        by_cases same : j = i
        · simp [same]
        · simp [same]

/-! ## The cache as a whole -/

/-- The items that are allocated, but for those on their way. -/
def DnsCache.cached (c : DnsCache) (extra : Set Nat) : Set Nat := { i | c.allocated i = true ∧ i ∉ extra }

theorem mem_cached {extra : Set Nat} {i : Nat} : i ∈ c.cached extra ↔ c.allocated i = true ∧ i ∉ extra := Iff.rfl

/-- All items are in a list and in the queue, but for those on their way. -/
def Rests (c : DnsCache) (extra : Set Nat) : Prop :=
  ∃ lists, Consistent c lists (c.cached extra) ∧ ∀ i ∈ c.cached extra, i ∈ lists (c.itemKind i)

variable {extra : Set Nat} {i k : Nat}

theorem Consistent.kept (sound : Consistent c lists queue) (held : Held c') (links : c'.links = c.links)
    (byKey : c'.byKey = c.byKey) (byExpiry : c'.byExpiry = c.byExpiry) (items : ∀ i ∈ queue, c'.items i = c.items i)
    (allocated : ∀ i ∈ queue, c'.allocated i = true) (contents : ∀ k, c.keyLive k → (c'.keys k).key = (c.keys k).key) :
    Consistent c' lists queue := by
  have kinds : ∀ i ∈ queue, c'.itemKind i = c.itemKind i := by
    intro i queued
    rw [DnsCache.itemKind, DnsCache.kind, items i queued, contents _ (sound.held.item_live (sound.inUse i queued))]
    rfl
  have mapsTo : ∀ e ∈ c.byKey, e.2 ∈ queue := by
    intro e stored
    exact sound.inQueue _ _ (mem_of_mem_head? (sound.mapped.head stored))
  refine ⟨held, ?_, ?_, ?_, ?_, sound.inQueue, allocated⟩
  · exact sound.listed.congr links fun κ i mem => kinds i (sound.inQueue κ i mem)
  · refine sound.mapped.congr byKey fun e mem => ?_
    rw [DnsCache.kind, contents _ (sound.liveKeys e mem)]
    rfl
  · intro e mem
    rw [byKey] at mem
    rw [items _ (mapsTo e mem)]
    exact sound.own e mem
  · rw [byExpiry]
    refine sound.queued.changedAmong fun a memA b memB => ?_
    rw [expiryOrder_le, expiryOrder_le, items a memA, items b memB]

theorem unlink_ok (rests : Rests c extra) (cached : i ∈ c.cached extra) : Goes (dnsCacheItemUnlinkAndFree i)
      (fun _ c' => Rests c' extra ∧ Shrunk c c' ∧ c'.size < c.size ∧ c'.allocated = update c.allocated i false) c := by
  obtain ⟨lists, sound, all⟩ := rests
  obtain ⟨before, after, list⟩ := append_of_mem (all i cached)
  refine (unlinkAndFree_ok sound list).imp ?_
  rintro _ c' ⟨sound', shrunk, less, freed⟩
  have same : c.cached extra \ {i} = c'.cached extra := by
    ext j
    rw [Set.mem_sdiff, mem_cached, mem_cached, freed]
    by_cases here : j = i
    · simp [here]
    · simp [here]
  rw [same] at sound'
  refine ⟨⟨_, sound', ?_⟩, shrunk, less, freed⟩
  intro j mem
  rw [← same] at mem
  have stored := all j mem.1
  rw [shrunk.itemKind]
  by_cases alike : c.itemKind j = c.itemKind i
  · rw [alike]
    rw [alike, list] at stored
    have apart : j ≠ i := mem.2
    simpa [apart] using stored
  · rwa [update_of_ne alike]

theorem removeByKey_ok (rests : Rests c extra) (live : c.keyLive k) : Goes (dnsCacheRemoveByKey k)
      (fun _ c' => Rests c' extra ∧ Shrunk c c' ∧ c'.links = c.links ∧
        ((∃ i ∈ c.cached extra, c.itemKind i = c.kind k) → c'.size < c.size) ∧
        ∀ j, c'.allocated j = true ↔ c.allocated j = true ∧ (j ∈ extra ∨ c.itemKind j ≠ c.kind k)) c := by
  obtain ⟨lists, sound, all⟩ := rests
  obtain ⟨entries, run, entered⟩ := byKeyTake_ok sound.mapped sound.liveKeys live
  have fewer : ∀ κ i, i ∈ update lists (c.kind k) [] κ → i ∈ lists κ ∧ κ ≠ c.kind k := by
    intro κ i mem
    by_cases same : κ = c.kind k
    · subst same
      simp at mem
    · rw [update_of_ne same] at mem
      exact ⟨mem, same⟩
  have listed : Listed { c with byKey := entries } (update lists (c.kind k) []) :=
    sound.listed.update rfl nofun nodup_nil trivial fun κ _ => sound.listed.linked κ
  have sound' : Consistent { c with byKey := entries } (update lists (c.kind k) []) (c.cached extra) :=
    ⟨{ sound.held with },
      listed, entered.mapped [] sound.mapped, fun e mem => sound.own e (entered.others e mem).1, sound.queued,
      fun κ i mem => sound.inQueue κ i (fewer κ i mem).1, sound.inUse⟩
  have unlisted : ∀ i ∈ lists (c.kind k), ∀ κ, i ∉ update lists (c.kind k) [] κ := by
    intro i mem κ mem'
    obtain ⟨stored, apart⟩ := fewer κ i mem'
    exact apart ((sound.listed.kinds κ i stored).symm.trans (sound.listed.kinds _ i mem))
  have members : ∀ j, j ∈ lists (c.kind k) ↔ j ∈ c.cached extra ∧ c.itemKind j = c.kind k := by
    intro j
    constructor
    · exact fun mem => ⟨sound.inQueue _ j mem, sound.listed.kinds _ j mem⟩
    · rintro ⟨cached, kind⟩
      exact kind ▸ all j cached
  apply goes_ok_bind run
  refine (removeByKeyLoop_ok sound' (sound.listed.linked _) (sound.listed.nodup _) (sound.inQueue _) unlisted
    (Nat.lt_succ_self _)).imp ?_
  rintro _ c' ⟨sound'', shrunk, links, less, freed⟩
  have shrunk : Shrunk c c' :=
    { shrunk with }
  have freed : ∀ j, c'.allocated j = true ↔ c.allocated j = true ∧ (j ∈ extra ∨ c.itemKind j ≠ c.kind k) := by
    intro j
    rw [freed, members]
    refine and_congr_right fun (allocated : c.allocated j = true) => ?_
    simp only [mem_cached]
    tauto
  have same : c.cached extra \ {i | i ∈ lists (c.kind k)} = c'.cached extra := by
    ext j
    rw [Set.mem_sdiff, Set.mem_ofPred_eq, members, mem_cached, mem_cached, freed]
    tauto
  rw [same] at sound''
  refine ⟨⟨_, sound'', ?_⟩, shrunk, links, ?_, freed⟩
  · intro j mem
    rw [← same] at mem
    rw [shrunk.itemKind]
    have apart : c.itemKind j ≠ c.kind k := fun kind => mem.2 ((members j).mpr ⟨mem.1, kind⟩)
    rw [update_of_ne apart]
    exact all j mem.1
  · rintro ⟨j, cached, kind⟩
    exact less (ne_nil_of_mem ((members j).mpr ⟨cached, kind⟩))

/-! ## Adding -/

/-- Holders of a key that are not in other objects come and go. -/
theorem Held.rehold {f : Finset KeyHolder → Finset KeyHolder} (held : Held c)
    (slots : ∀ s, .slot s ∈ f (c.keys k).holders ↔ .slot s ∈ (c.keys k).holders)
    (fresh : c.nextKey ≤ k → f (c.keys k).holders = ∅) : Held (c.setKeyHolders k f) := by
  refine { held with slots := ?_, freshKeys := ?_ }
  · intro s k'
    have old : _ ↔ (c.setKeyHolders k f).inUse s ∧ (c.setKeyHolders k f).slotKey s = k' := held.slots s k'
    rw [← old, holders_setKeyHolders]
    split
    · rename_i here
      exact here ▸ slots s
    · rfl
  · intro k' isFresh
    rw [holders_setKeyHolders]
    split
    · rename_i here
      exact here ▸ fresh (here ▸ isFresh)
    · exact held.freshKeys k' isFresh

theorem Held.insert {h : KeyHolder} (held : Held c) (live : c.keyLive k) (outside : ∀ s, .slot s ≠ h) :
    Held (c.setKeyHolders k (insert h)) :=
  held.rehold (fun s => by simp [outside s]) fun fresh => absurd (held.freshKeys k fresh) live

theorem Held.erase {h : KeyHolder} (held : Held c) (k : Nat) (outside : ∀ s, .slot s ≠ h) :
    Held (c.setKeyHolders k fun holders => holders.erase h) :=
  held.rehold (fun s => by simp [outside s]) fun fresh => by simp [held.freshKeys k fresh]

theorem reduceIf_ok {record : Option Nat} (held : Held c) (allocated : c.allocated i = true)
    (live : ∀ r ∈ record, c.rrLive r) : Goes (reduceIf i record) (fun _ c' => Held c' ∧ Rekeyed c c' ∧
      ∀ j, j ≠ i → c'.slotKey (.item j) = c.slotKey (.item j)) c := by
  cases record with
  | none => exact goes_pure ⟨held, Rekeyed.refl c, fun _ _ => rfl⟩
  | some r =>
    refine (keyReduce_ok (a := .rr r) (b := .item i) held (live r rfl) allocated).imp ?_
    rintro _ c' ⟨held, rekeyed, slots⟩
    refine ⟨held, rekeyed, fun j apart => slots _ ?_ ?_⟩
    · simp
    · simpa using apart

theorem Held.record_live (held : Held c) (allocated : c.allocated i = true) : ∀ r ∈ (c.items i).rr, c.rrLive r := by
  intro r record
  exact ne_empty_of_mem ((held.records i r).mpr ⟨allocated, record⟩)

theorem Rekeyed.rrLive (rekeyed : Rekeyed c c') {r : Nat} : c'.rrLive r ↔ c.rrLive r := by
  obtain ⟨key, same, _⟩ := rekeyed.rrs r
  rw [DnsCache.rrLive, DnsCache.rrLive, same]

theorem Rekeyed.allocated (rekeyed : Rekeyed c c') : c'.allocated = c.allocated := by
  obtain ⟨_, _, _, rfl⟩ := rekeyed.rest
  rfl

/-- The keys of two items and of their records are made the same where they can be. -/
theorem reduceAll_ok {α : Type} {f : CacheM α} {result : α → DnsCache → Prop} (held : Held c)
    (allocated : c.allocated i = true) (allocated' : c.allocated first = true)
    (next : ∀ c', Held c' → Rekeyed c c' → (∀ j, j ≠ first → j ≠ i → (c'.items j).key = (c.items j).key) → Goes f result c') :
    Goes (do
      dnsResourceKeyReduce (.item first) (.item i)
      reduceIf i (c.items first).rr
      reduceIf i (c.items i).rr
      f) result c := by
  refine (keyReduce_ok (a := .item first) (b := .item i) held allocated' allocated).bind ?_
  rintro _ c₁ ⟨held₁, rekeyed₁, slots₁⟩
  refine (reduceIf_ok held₁ (rekeyed₁.allocated ▸ allocated)
    fun r record => rekeyed₁.rrLive.mpr (held.record_live allocated' r record)).bind ?_
  rintro _ c₂ ⟨held₂, rekeyed₂, slots₂⟩
  have rekeyed := rekeyed₁.trans rekeyed₂
  refine (reduceIf_ok held₂ (rekeyed.allocated ▸ allocated)
    fun r record => rekeyed.rrLive.mpr (held.record_live allocated r record)).bind ?_
  rintro _ c₃ ⟨held₃, rekeyed₃, slots₃⟩
  refine next c₃ held₃ (rekeyed.trans rekeyed₃) ?_
  intro j apart apart'
  exact (slots₃ j apart').trans ((slots₂ j apart').trans (slots₁ (.item j) (by simpa using apart) (by simpa using apart')))

/-- What others hold is there still, and is what it was. -/
structure Kept (c c' : DnsCache) : Prop where
  others : ∀ k n, .other n ∈ (c'.keys k).holders ↔ .other n ∈ (c.keys k).holders
  calls : ∀ k, .call ∈ (c'.keys k).holders ↔ .call ∈ (c.keys k).holders
  kinds : ∀ k n, .other n ∈ (c.keys k).holders → c'.kind k = c.kind k
  rrOthers : ∀ r n, .other n ∈ (c'.rrs r).holders ↔ .other n ∈ (c.rrs r).holders
  rrKinds : ∀ r n, .other n ∈ (c.rrs r).holders → c'.rrKind r = c.rrKind r

theorem Kept.refl (c : DnsCache) : Kept c c where
  others _ _ := Iff.rfl
  calls _ := Iff.rfl
  kinds _ _ _ := rfl
  rrOthers _ _ := Iff.rfl
  rrKinds _ _ _ := rfl

theorem Kept.trans (first : Kept c c') (second : Kept c' c'') : Kept c c'' where
  others k n := (second.others k n).trans (first.others k n)
  calls k := (second.calls k).trans (first.calls k)
  kinds k n holds := (second.kinds k n ((first.others k n).mpr holds)).trans (first.kinds k n holds)
  rrOthers r n := (second.rrOthers r n).trans (first.rrOthers r n)
  rrKinds r n holds := (second.rrKinds r n ((first.rrOthers r n).mpr holds)).trans (first.rrKinds r n holds)

theorem RefsKept.kept (refs : RefsKept c c') : Kept c c' where
  others k n := refs.others k (.other n) (by simp)
  calls k := refs.others k .call (by simp)
  kinds k _ _ := refs.kind k
  rrOthers := refs.rrOthers
  rrKinds r _ _ := refs.rrKind r

/-- What an item says: its type, and its record. -/
def DnsCacheItem.about (item : DnsCacheItem) : DnsCacheItemType × Option Nat := (item.type, item.rr)

/-- Items are what they were, but for which of some keys that are alike they have. -/
structure Relinked (c c' : DnsCache) : Prop extends Kept c c' where
  about : ∀ j, (c'.items j).about = (c.items j).about
  itemKind : ∀ j, c'.itemKind j = c.itemKind j
  allocated : c'.allocated = c.allocated

theorem listed_prepend (listed : Listed c lists) (kind : c.itemKind i = κ) (unlisted : ∀ κ, i ∉ lists κ) :
    Listed { c with links := c.links.prepend (lists κ).head? i } (update lists κ (i :: lists κ)) := by
  refine listed.update rfl (forall_mem_cons.mpr ⟨kind, listed.kinds κ⟩)
    (nodup_cons.mpr ⟨unlisted κ, listed.nodup κ⟩)
    (Links.linked_prepend (listed.linked κ) (unlisted κ) (listed.nodup κ)) fun κ' apart => ?_
  refine (listed.linked κ').congr fun j mem => Links.prepend_of_ne ?_ ?_
  · rintro rfl
    exact unlisted κ' mem
  · intro isHead
    have := listed.kinds κ j (mem_of_mem_head? isHead)
    exact apart ((listed.kinds κ' j mem).symm.trans this)

/-- An item is put in front of the others with its key. -/
theorem linkBefore_ok {rest : List Nat} (sound : Consistent c lists queue) (queued : i ∈ queue)
    (unlisted : ∀ κ, i ∉ lists κ) (list : lists (c.itemKind i) = first :: rest)
    (noCall : .call ∉ (c.keys (c.items first).key).holders) :
    Goes (do
      dnsResourceKeyRef .call (c.items first).key
      dnsResourceKeyReduce (.item first) (.item i)
      reduceIf i (c.items first).rr
      reduceIf i (c.items i).rr
      modify fun c => { c with links := c.links.prepend (some first) i }
      byKeySetFirst (c.items i).key (some i)
      dnsResourceKeyUnref .call (c.items first).key
      return true : CacheM Bool)
      (fun linked c' => linked = true ∧ Consistent c' (update lists (c.itemKind i) (i :: first :: rest)) queue ∧
        Relinked c c' ∧ c'.byExpiry = c.byExpiry) c := by
  have firstListed : first ∈ lists (c.itemKind i) := by simp [list]
  have allocated := sound.inUse i queued
  have allocated' := sound.inUse first (sound.inQueue _ first firstListed)
  have live := sound.held.item_live allocated'
  apply goes_ok_bind (keyRef_ok live noCall)
  refine reduceAll_ok (sound.held.insert live (by simp)) allocated allocated' ?_
  intro c₁ held rekeyed slots
  have kind : ∀ k, c₁.kind k = c.kind k := fun k => (rekeyed.kind k).trans (kind_setKeyHolders c _ k _)
  have itemKind : ∀ j, c₁.itemKind j = c.itemKind j := fun j => (rekeyed.itemKind j).trans (itemKind_setKeyHolders c _ j _)
  obtain ⟨keys, items, rrs, rfl⟩ := rekeyed.rest
  have called : .call ∈ (keys (c.items first).key).holders := (rekeyed.calls _).mpr (by simp)
  have own : ∀ e ∈ c.byKey, c.kind e.1 ≠ c.itemKind i → e.1 = (items e.2).key := by
    intro e stored apart
    have mem := mem_of_mem_head? (sound.mapped.head stored)
    rw [slots]
    · exact sound.own e stored
    · intro same
      rw [same] at mem
      exact apart ((sound.listed.kinds _ _ mem).symm.trans (sound.listed.kinds _ _ firstListed))
    · intro same
      rw [same] at mem
      exact unlisted _ mem
  have liveKeys : LiveKeys { c with keys, items, rrs } := by
    intro e stored
    have head := sound.mapped.head stored
    by_cases same : c.kind e.1 = c.itemKind i
    · rw [same, list] at head
      cases head
      rw [sound.own e stored]
      exact ne_empty_of_mem called
    · rw [own e stored same]
      exact held.item_live (sound.inUse _ (sound.inQueue _ _ (mem_of_mem_head? head)))
  have inQueue : ∀ κ, ∀ j ∈ update lists (c.itemKind i) (i :: first :: rest) κ, j ∈ queue :=
    (forall_update_iff lists fun _ l => ∀ j ∈ l, j ∈ queue).mpr
      ⟨forall_mem_cons.mpr ⟨queued, list ▸ sound.inQueue _⟩, fun κ _ => sound.inQueue κ⟩
  have listed : Listed { c with keys, items, rrs, links := c.links.prepend (some first) i }
      (update lists (c.itemKind i) (i :: first :: rest)) := by
    have listed := listed_prepend (c := { c with keys, items, rrs }) (sound.listed.congr rfl fun κ j _ => itemKind j)
      (itemKind i) unlisted
    rwa [list] at listed
  obtain ⟨entries, run, mapped, own⟩ := setFirst_ok
    (c := { c with keys, items, rrs, links := c.links.prepend (some first) i })
    (k := (c.items i).key) (i :: first :: rest) (sound.mapped.congr rfl fun e _ => kind e.1) liveKeys
    (fun e stored apart => own e stored (kind e.1 ▸ apart)) (by simp) fun j mem => by
      have mem : j ∈ update lists (c.itemKind i) (i :: first :: rest) (c.itemKind i) := by
        rwa [update_self]
      exact ⟨held.item_live (sound.inUse j (inQueue _ j mem)), listed.kinds _ j mem⟩
  apply goes_ok_bind run
  refine goes_ok_bind (keyUnref_ok called) ?_
  have held : Held { c with keys, items, rrs, links := c.links.prepend (some first) i, byKey := entries } :=
    { held with }
  have sound' : Consistent { c with keys, items, rrs, links := c.links.prepend (some first) i, byKey := entries }
      (update lists (c.itemKind i) (i :: first :: rest)) queue := by
    refine ⟨held, { listed with }, mapped, own, ?_, inQueue, sound.inUse⟩
    refine sound.queued.congr fun a b => ?_
    obtain ⟨keyA, itemA, _⟩ := rekeyed.items a
    obtain ⟨keyB, itemB, _⟩ := rekeyed.items b
    rw [expiryOrder_le, expiryOrder_le, itemA, itemB]
    rfl
  refine goes_pure ⟨rfl, ?_, ?_, rfl⟩
  · refine sound'.kept (held.erase _ (by simp)) rfl rfl rfl (fun _ _ => rfl) sound'.inUse ?_
    intro k _
    rw [key_setKeyHolders]
  · refine ⟨⟨?_, ?_, ?_, ?_, ?_⟩, ?_, ?_, rfl⟩
    · intro k n
      have := rekeyed.others k n
      rw [holders_setKeyHolders] at this ⊢
      split <;> simp_all
    · intro k
      have := rekeyed.calls k
      rw [holders_setKeyHolders] at this ⊢
      split <;> simp_all
    · intro k _ _
      rw [kind_setKeyHolders]
      exact kind k
    · intro r n
      obtain ⟨key, same, _⟩ := rekeyed.rrs r
      rw [rrs_setKeyHolders, same]
      rfl
    · intro r n _
      rw [rrKind_setKeyHolders]
      exact (rekeyed.rrKind r).trans (rrKind_setKeyHolders c _ r _)
    · intro j
      obtain ⟨key, same, _⟩ := rekeyed.items j
      exact (congrArg DnsCacheItem.about same).trans rfl
    · intro j
      rw [itemKind_setKeyHolders]
      exact itemKind j

end SystemdPort.Resolve
