/-
# Resolve.DnsCache — the cache of resource records

`src/resolve/resolved-dns-cache.c`.  The items of the cache are in a hash map by their key, as lists of
the items with one key, and in a priority queue by the time they expire.  The hash map does not copy its
keys: it has pointers to keys that belong to items.

Keys and records are objects with counted references.  Instead of the number of references an object has
the set of its holders, so that a reference that is dropped has to be one that was taken; an object is
freed when nobody holds it.  Looking something up in the hash map reads the key that is looked up and
keys in the map, and none of them may have been freed.

Told to the calls is whether memory can be allocated, what time it is, and what the functions that match
keys with records and answers say.  Answers and packets that items refer to are left out, but for whether
there is an answer.
-/
import SystemdPort.Basic.Prioq
import SystemdPort.Lib.LinkedList
import SystemdPort.Resolve.DnsRrEqual

namespace SystemdPort.Resolve

set_option autoImplicit false

open Basic Lib Lib.Exec Shared.Dns Function

/-! ## Objects -/

/-- A key with a name that is valid, as the names in records are. -/
abbrev ValidKey := { key : DnsResourceKey // IsName (dnsResourceKeyName key) }

/-- The pointers to keys in other objects. -/
inductive KeySlot where
  | item (i : Nat)
  | rr (r : Nat)
  deriving DecidableEq

/-- Who holds a key: an object, a function while it runs, or others than the cache. -/
inductive KeyHolder where
  | slot (s : KeySlot)
  | call
  | other (n : Nat)
  deriving DecidableEq

structure KeyObject where
  key : ValidKey
  holders : Finset KeyHolder := ∅

inductive RrHolder where
  | item (i : Nat)
  | other (n : Nat)
  deriving DecidableEq

structure RrObject where
  key : Nat
  /-- The record, with a copy of the key it was made with. -/
  record : DnsResourceRecord
  expiry : UInt64
  holders : Finset RrHolder := ∅

inductive DnsCacheItemType where
  | positive
  | nodata
  | nxdomain
  | rcode
  deriving DecidableEq

structure DnsCacheItem where
  type : DnsCacheItemType
  key : Nat
  rr : Option Nat
  /-- Whether the item has an answer, as those of primary lookups do. -/
  answer : Bool
  until_ : UInt64
  sharedOwner : Bool

/-- A cache, and all objects. -/
structure DnsCache where
  keys : Nat → KeyObject
  rrs : Nat → RrObject
  items : Nat → DnsCacheItem
  /-- Which items are allocated. -/
  allocated : Nat → Bool
  links : Links Nat
  byKey : List (Nat × Nat)
  byExpiry : Prioq Nat Nat
  /-- The next addresses of items, keys and records. -/
  nextItem : Nat
  nextKey : Nat
  nextRr : Nat

inductive CacheFault where
  | assertion
  | useAfterFree
  | prioq (fault : PrioqFault)
  | outOfFuel

abbrev CacheM := EStateM CacheFault DnsCache

namespace DnsCache

/-- A key that is not freed. -/
def keyLive (c : DnsCache) (k : Nat) : Prop := (c.keys k).holders ≠ ∅

instance (c : DnsCache) (k : Nat) : Decidable (c.keyLive k) := inferInstanceAs (Decidable (_ ≠ _))

def rrLive (c : DnsCache) (r : Nat) : Prop := (c.rrs r).holders ≠ ∅

instance (c : DnsCache) (r : Nat) : Decidable (c.rrLive r) := inferInstanceAs (Decidable (_ ≠ _))

def setKeyHolders (k : Nat) (f : Finset KeyHolder → Finset KeyHolder) (c : DnsCache) : DnsCache :=
  { c with keys := update c.keys k { c.keys k with holders := f (c.keys k).holders } }

def setRrHolders (r : Nat) (f : Finset RrHolder → Finset RrHolder) (c : DnsCache) : DnsCache :=
  { c with rrs := update c.rrs r { c.rrs r with holders := f (c.rrs r).holders } }

def setItem (i : Nat) (f : DnsCacheItem → DnsCacheItem) (c : DnsCache) : DnsCache :=
  { c with items := update c.items i (f (c.items i)) }

def slotKey (c : DnsCache) : KeySlot → Nat
  | .item i => (c.items i).key
  | .rr r => (c.rrs r).key

def setSlotKey (k : Nat) (c : DnsCache) : KeySlot → DnsCache
  | .item i => c.setItem i fun item => { item with key := k }
  | .rr r => { c with rrs := update c.rrs r { c.rrs r with key := k } }

/-- Whether `dns_resource_key_compare_func()` returns 0. -/
def sameKey (c : DnsCache) (a b : Nat) : Bool := dnsResourceKeyCompareFunc (c.keys a).key (c.keys b).key = 0

/-- `dns_resource_record_equal()` -/
def rrEqual (c : DnsCache) (a b : Nat) : Except Errno Bool :=
  if a = b then .ok true
  else
    dnsResourceRecordEqual { (c.rrs a).record with key := (c.keys (c.rrs a).key).key }
      { (c.rrs b).record with key := (c.keys (c.rrs b).key).key }

/-- `dns_cache_item_prioq_compare_func()` -/
def itemCompare (c : DnsCache) (x y : Nat) : Int := cmpInt (c.items x).until_.toNat (c.items y).until_.toNat

end DnsCache

/-- `dns_resource_key_ref()` for a holder -/
def dnsResourceKeyRef (h : KeyHolder) (k : Nat) : CacheM PUnit := do
  let c ← get
  require (c.keyLive k ∧ h ∉ (c.keys k).holders) .assertion
  modify (DnsCache.setKeyHolders k (insert h))

/-- `dns_resource_key_unref()` for a holder -/
def dnsResourceKeyUnref (h : KeyHolder) (k : Nat) : CacheM PUnit := do
  let c ← get
  require (h ∈ (c.keys k).holders) .assertion
  modify (DnsCache.setKeyHolders k fun holders => holders.erase h)

/-- `DNS_RESOURCE_KEY_REPLACE()` of the pointer in an object -/
def dnsResourceKeyReplace (s : KeySlot) (k : Nat) : CacheM PUnit := do
  let c ← get
  if c.slotKey s = k then return
  else
    dnsResourceKeyRef (.slot s) k
    dnsResourceKeyUnref (.slot s) (c.slotKey s)
    modify fun c => c.setSlotKey k s

/-- `dns_resource_key_reduce()` -/
def dnsResourceKeyReduce (a b : KeySlot) : CacheM PUnit := do
  let c ← get
  if c.slotKey a = c.slotKey b then return
  else
    require (c.keyLive (c.slotKey a) ∧ c.keyLive (c.slotKey b)) .useAfterFree
    if dnsResourceKeyEqual (c.keys (c.slotKey a)).key (c.keys (c.slotKey b)).key ≠ .ok true then return
    -- keep the one which already has more references
    else if (c.keys (c.slotKey b)).holders.card < (c.keys (c.slotKey a)).holders.card then
      dnsResourceKeyReplace b (c.slotKey a)
    else dnsResourceKeyReplace a (c.slotKey b)

/-- `dns_resource_record_ref()` for a holder -/
def dnsResourceRecordRef (h : RrHolder) (r : Nat) : CacheM PUnit := do
  let c ← get
  require (c.rrLive r ∧ h ∉ (c.rrs r).holders) .assertion
  modify (DnsCache.setRrHolders r (insert h))

/-- `dns_resource_record_unref()` for a holder; the last one frees the record and its reference to the key. -/
def dnsResourceRecordUnref (h : RrHolder) (r : Nat) : CacheM PUnit := do
  let c ← get
  require (h ∈ (c.rrs r).holders) .assertion
  modify (DnsCache.setRrHolders r fun holders => holders.erase h)
  if (c.rrs r).holders.erase h = ∅ then dnsResourceKeyUnref (.slot (.rr r)) (c.rrs r).key

/-! ## The hash map and the queue -/

/-- The entry of the hash map for a key. -/
def byKeyEntry (k : Nat) : CacheM (Option (Nat × Nat)) := do
  let c ← get
  require (c.keyLive k ∧ ∀ e ∈ c.byKey, c.keyLive e.1) .useAfterFree
  return c.byKey.find? fun e => c.sameKey e.1 k

/-- `hashmap_get()` -/
def byKeyGet (k : Nat) : CacheM (Option Nat) := do
  let e ← byKeyEntry k
  return e.map Prod.snd

/-- `hashmap_replace()`, which takes over the key too -/
def byKeyReplace (k v : Nat) : CacheM PUnit := do
  let e ← byKeyEntry k
  match e with
  | some _ => modify fun c => { c with byKey := c.byKey.map fun e => if c.sameKey e.1 k then (k, v) else e }
  | none => modify fun c => { c with byKey := (k, v) :: c.byKey }

/-- `hashmap_put()` -/
def byKeyPut (k v : Nat) (memory : Bool) : CacheM Bool := do
  let e ← byKeyEntry k
  if e.isSome ∨ memory = false then return false
  else
    modify fun c => { c with byKey := (k, v) :: c.byKey }
    return true

/-- `hashmap_remove()` -/
def byKeyTake (k : Nat) : CacheM (Option Nat) := do
  let e ← byKeyEntry k
  modify fun c => { c with byKey := c.byKey.filter fun e => !c.sameKey e.1 k }
  return e.map Prod.snd

/-- A call on the queue. -/
def onExpiry {α : Type} (x : PrioqM Nat Nat α) : CacheM α := fun c =>
  match x c.byExpiry with
  | .ok a q => .ok a { c with byExpiry := q }
  | .error fault q => .error (.prioq fault) { c with byExpiry := q }

/-- `prioq_remove(c->by_expiry, i, &i->prioq_idx)` -/
def expiryRemove (i : Nat) : CacheM PUnit := do
  let c ← get
  let _ ← onExpiry (Prioq.remove c.itemCompare i (some i))

/-- `LIST_REMOVE(by_key, head, i)`, with the new head -/
def listRemove (head : Option Nat) (i : Nat) : CacheM (Option Nat) := do
  let c ← get
  require (c.links.prev i ≠ none ∨ head = some i) .assertion
  modify fun c => { c with links := c.links.remove i }
  return if c.links.prev i = none then c.links.next i else head

/-! ## Removing -/

/-- Drop the reference of an item to its record. -/
def rrUnrefIf (i : Nat) : Option Nat → CacheM PUnit
  | some r => dnsResourceRecordUnref (.item i) r
  | none => pure ⟨⟩

/-- `dns_cache_item_free()` -/
def dnsCacheItemFree (i : Nat) : CacheM PUnit := do
  let c ← get
  require (c.allocated i = true) .useAfterFree
  rrUnrefIf i (c.items i).rr
  dnsResourceKeyUnref (.slot (.item i)) (c.items i).key
  modify fun c => { c with allocated := update c.allocated i false }

/-- The list of a key has a new first item, or none. -/
def byKeySetFirst (k : Nat) : Option Nat → CacheM PUnit
  | some first => do
      let c ← get
      byKeyReplace (c.items first).key first
  | none => do
      let _ ← byKeyTake k

/-- `dns_cache_item_unlink_and_free()` -/
def dnsCacheItemUnlinkAndFree (i : Nat) : CacheM PUnit := do
  let c ← get
  require (c.allocated i = true) .useAfterFree
  let first ← byKeyGet (c.items i).key
  let first ← listRemove first i
  byKeySetFirst (c.items i).key first
  expiryRemove i
  dnsCacheItemFree i

/-- The loop of `dns_cache_remove_by_rr()` -/
def removeByRrLoop (r : Nat) : Nat → Option Nat → CacheM PUnit
  | _, none => return
  | 0, some _ => throw .outOfFuel
  | n + 1, some i => do
      let c ← get
      require (c.allocated i = true) .useAfterFree
      match (c.items i).rr with
      | none => throw .assertion
      | some rr =>
        match c.rrEqual rr r with
        | .error _ => return
        | .ok true => dnsCacheItemUnlinkAndFree i
        | .ok false => removeByRrLoop r n (c.links.next i)

/-- How many items there are. -/
def DnsCache.size (c : DnsCache) : Nat := c.byExpiry.items.length

/-- `dns_cache_remove_by_rr()` -/
def dnsCacheRemoveByRr (r : Nat) : CacheM PUnit := do
  let c ← get
  let first ← byKeyGet (c.rrs r).key
  removeByRrLoop r (c.size + 1) first

/-- The loop of `dns_cache_remove_by_key()` -/
def removeByKeyLoop : Nat → Option Nat → CacheM PUnit
  | _, none => return
  | 0, some _ => throw .outOfFuel
  | n + 1, some i => do
      let c ← get
      require (c.allocated i = true) .useAfterFree
      expiryRemove i
      dnsCacheItemFree i
      removeByKeyLoop n (c.links.next i)

/-- `dns_cache_remove_by_key()` -/
def dnsCacheRemoveByKey (k : Nat) : CacheM PUnit := do
  let c ← get
  let first ← byKeyTake k
  removeByKeyLoop (c.size + 1) first

/-- The loop of `dns_cache_flush()` -/
def flushLoop : Nat → CacheM PUnit
  | 0 => throw .outOfFuel
  | n + 1 => do
      let c ← get
      match c.byKey with
      | [] => return
      | (k, _) :: _ => do
          dnsCacheRemoveByKey k
          flushLoop n

/-- `dns_cache_flush()` -/
def dnsCacheFlush : CacheM PUnit := do
  let c ← get
  flushLoop (c.size + 1)
  let c ← get
  require (c.byKey = []) .assertion
  require (c.size = 0) .assertion
  modify fun c => { c with byExpiry := { slots := c.byExpiry.slots } }

/-- `CACHE_MAX` -/
def cacheMax : Nat := 4096

/-- Remove the items with the key of an item, holding the key. -/
def removeWithKey (i : Nat) : CacheM PUnit := do
  let c ← get
  require (c.allocated i = true) .useAfterFree
  -- an extra reference, so that the key doesn't go away in the middle of the remove call
  dnsResourceKeyRef .call (c.items i).key
  dnsCacheRemoveByKey (c.items i).key
  dnsResourceKeyUnref .call (c.items i).key

/-- The loop of `dns_cache_make_space()` -/
def makeSpaceLoop (add : Nat) : Nat → CacheM PUnit
  | 0 => throw .outOfFuel
  | n + 1 => do
      let c ← get
      if c.size = 0 then return
      else if c.size + add < cacheMax then return
      else
        match c.byExpiry.peek with
        | none => throw .assertion
        | some i => do
            removeWithKey i
            makeSpaceLoop add n

/-- `dns_cache_make_space()` -/
def dnsCacheMakeSpace (add : Nat) : CacheM PUnit := do
  let c ← get
  if add = 0 then return
  else makeSpaceLoop add (c.size + 1)

/-- The loop of `dns_cache_prune()` at the time `t` -/
def pruneLoop (t : UInt64) : Nat → CacheM PUnit
  | 0 => throw .outOfFuel
  | n + 1 => do
      let c ← get
      match c.byExpiry.peek with
      | none => return
      | some i =>
        if t < (c.items i).until_ then return
        else if (c.items i).sharedOwner then do
          dnsCacheItemUnlinkAndFree i
          pruneLoop t n
        else do
          removeWithKey i
          pruneLoop t n

/-- `dns_cache_prune()` -/
def dnsCachePrune (t : UInt64) : CacheM PUnit := do
  let c ← get
  pruneLoop t (c.size + 1)

/-! ## Putting -/

/-- Whether there is memory for a new item. -/
structure ItemMemory where
  init : Bool := true
  item : Bool := true
  prioq : Bool := true
  hashmap : Bool := true

/-- `dns_resource_key_reduce()` with the key of a record, if there is one -/
def reduceIf (i : Nat) : Option Nat → CacheM PUnit
  | some r => dnsResourceKeyReduce (.rr r) (.item i)
  | none => pure ⟨⟩

/-- `dns_cache_link_item()` -/
def dnsCacheLinkItem (i : Nat) (memory : ItemMemory) : CacheM Bool := do
  let c ← get
  let put ← onExpiry (Prioq.put c.itemCompare i (some i) memory.prioq)
  if put = false then return false
  else
    let first ← byKeyGet (c.items i).key
    match first with
    | some first => do
        -- keep a reference to the original key, while the list is manipulated
        dnsResourceKeyRef .call (c.items first).key
        dnsResourceKeyReduce (.item first) (.item i)
        reduceIf i (c.items first).rr
        reduceIf i (c.items i).rr
        modify fun c => { c with links := c.links.prepend (some first) i }
        byKeySetFirst (c.items i).key (some i)
        dnsResourceKeyUnref .call (c.items first).key
        return true
    | none => do
        let put ← byKeyPut (c.items i).key i memory.hashmap
        if put = false then
          expiryRemove i
          return false
        else return true

/-- The loop of `dns_cache_get()` -/
def getLoop (r : Nat) : Nat → Option Nat → CacheM (Option Nat)
  | _, none => return none
  | 0, some _ => throw .outOfFuel
  | n + 1, some i => do
      let c ← get
      require (c.allocated i = true) .useAfterFree
      match (c.items i).rr with
      | none => getLoop r n (c.links.next i)
      | some rr =>
        match c.rrEqual rr r with
        | .ok true => return some i
        | _ => getLoop r n (c.links.next i)

/-- `dns_cache_get()` -/
def dnsCacheGet (r : Nat) : CacheM (Option Nat) := do
  let c ← get
  let first ← byKeyGet (c.rrs r).key
  getLoop r (c.size + 1) first

/-- `USEC_INFINITY` -/
def usecInfinity : UInt64 := 0xFFFFFFFFFFFFFFFF

/-- `CACHE_TTL_MAX_USEC` -/
def cacheTtlMaxUsec : UInt64 := 7200000000

/-- `CACHE_TTL_STRANGE_RCODE_USEC` -/
def cacheTtlStrangeRcodeUsec : UInt64 := 10000000

/-- `DNS_TYPE_SOA` -/
def dnsTypeSoa : UInt16 := 6

/-- The time, by the clocks for timestamps and for signatures. -/
structure Now where
  boottime : UInt64
  realtime : UInt64

/-- `calculate_until()` -/
def calculateUntil (rr : RrObject) (type : UInt16) (minTtl nsecTtl : UInt32) (now : Now) (useSoaMinimum : Bool) : UInt64 :=
  let ttl := min minTtl nsecTtl
  let ttl := if type = dnsTypeSoa ∧ useSoaMinimum then min ttl rr.record.soa.minimum else ttl
  let u := min (ttl.toUInt64 * 1000000) cacheTtlMaxUsec
  let u := if rr.expiry ≠ usecInfinity then min u (if now.realtime < rr.expiry then rr.expiry - now.realtime else 0) else u
  now.boottime + u

/-- `DNS_RR_REPLACE(i->rr, dns_resource_record_ref(rr))` -/
def itemRrReplace (i r : Nat) : CacheM PUnit := do
  let c ← get
  if (c.items i).rr = some r then return
  else
    dnsResourceRecordRef (.item i) r
    rrUnrefIf i (c.items i).rr
    modify (DnsCache.setItem i fun item => { item with rr := some r })

/-- The first item of a list gives the hash map its key. -/
def replaceIfFirst (i r : Nat) : CacheM PUnit := do
  let c ← get
  if c.links.prev i = none then byKeyReplace (c.rrs r).key i
  else return

/-- What is new about an item. -/
structure ItemUpdate where
  answer : Bool
  until_ : UInt64
  sharedOwner : Bool

def ItemUpdate.apply (update : ItemUpdate) (item : DnsCacheItem) : DnsCacheItem :=
  { item with answer := update.answer, until_ := update.until_, sharedOwner := update.sharedOwner }

/-- `dns_cache_item_update_positive()` -/
def dnsCacheItemUpdatePositive (i r : Nat) (update : ItemUpdate) : CacheM PUnit := do
  modify (DnsCache.setItem i fun item => { item with type := .positive })
  replaceIfFirst i r
  itemRrReplace i r
  let c ← get
  dnsResourceKeyReplace (.item i) (c.rrs r).key
  modify (DnsCache.setItem i update.apply)
  let c ← get
  let _ ← onExpiry (Prioq.reshuffle c.itemCompare i (some i))

/-- Take a reference of an item to its record. -/
def rrRefIf (i : Nat) : Option Nat → CacheM PUnit
  | some r => dnsResourceRecordRef (.item i) r
  | none => pure ⟨⟩

/-- A new item, which is on no list. -/
def DnsCache.addItem (item : DnsCacheItem) (c : DnsCache) : DnsCache :=
  { c with
    items := update c.items c.nextItem item
    allocated := update c.allocated c.nextItem true
    links := (c.links.setNext c.nextItem none).setPrev c.nextItem none
    nextItem := c.nextItem + 1 }

/-- A new item with a reference to its key, and to its record. -/
def newItem (item : DnsCacheItem) : CacheM Nat := do
  let c ← get
  let i := c.nextItem
  dnsResourceKeyRef (.slot (.item i)) item.key
  rrRefIf i item.rr
  modify (DnsCache.addItem item)
  return i

/-- A new item is put into the cache, or freed. -/
def linkOrFree (i : Nat) (memory : ItemMemory) : CacheM Bool := do
  let linked ← dnsCacheLinkItem i memory
  if linked = false then
    dnsCacheItemFree i
    return false
  else return true

/-- `dns_class_is_pseudo()` -/
def dnsClassIsPseudo (klass : UInt16) : Bool := klass.toNat = 255

/-- Whether a key is a pseudo key. -/
def DnsCache.isPseudo (c : DnsCache) (k : Nat) : Bool :=
  dnsClassIsPseudo (c.keys k).key.1.class || dnsTypeIsPseudo (c.keys k).key.1.type.toNat

/-- A record of an answer. -/
structure CacheAnswerItem where
  rr : Nat
  cacheable : Bool
  sharedOwner : Bool
  /-- What `dns_resource_key_match_rr()` and `dns_resource_key_match_cname_or_dname()` say of the key that
  was asked for; `none` for an error. -/
  primary : Option Bool
  memory : ItemMemory := {}

/-- `dns_answer_min_ttl()` -/
def dnsAnswerMinTtl (c : DnsCache) (answer : List CacheAnswerItem) : UInt32 :=
  answer.foldl (fun ttl item => if c.isPseudo (c.rrs item.rr).key then ttl else min ttl (c.rrs item.rr).record.ttl)
    0xFFFFFFFF

/-- Whether a call failed, for lack of memory. -/
inductive PutResult where
  | done
  | failed
  deriving DecidableEq

/-- `dns_cache_put_positive()` -/
def dnsCachePutPositive (mdns : Bool) (now : Now) (answer : List CacheAnswerItem) (primary : Bool)
    (item : CacheAnswerItem) : CacheM PutResult := do
  let c ← get
  let r := item.rr
  if c.isPseudo (c.rrs r).key then return .done
  else
    let minTtl := min (if primary then dnsAnswerMinTtl c answer else 0xFFFFFFFF) (c.rrs r).record.ttl
    if minTtl = 0 then
      dnsCacheRemoveByRr r
      return .done
    else
      let «until» := calculateUntil (c.rrs r) (c.keys (c.rrs r).key).key.1.type minTtl 0xFFFFFFFF now false
      let existing ← dnsCacheGet r
      match existing with
      | some i =>
        dnsCacheItemUpdatePositive i r { answer := primary, until_ := «until», sharedOwner := item.sharedOwner }
        return .done
      | none =>
        -- do not cache goodbye packets
        if mdns ∧ (c.rrs r).record.ttl ≤ 1 then return .done
        else if item.memory.init = false then return .failed
        else
          dnsCacheMakeSpace 1
          if item.memory.item = false then return .failed
          else
            let c ← get
            let i ← newItem { type := .positive, key := (c.rrs r).key, rr := some r, answer := primary,
                              until_ := «until», sharedOwner := item.sharedOwner }
            let linked ← linkOrFree i item.memory
            return if linked then .done else .failed

/-- `DNS_RCODE_SUCCESS`, `DNS_RCODE_SERVFAIL`, `DNS_RCODE_NXDOMAIN`, and the others -/
inductive CacheRcode where
  | success
  | servfail
  | nxdomain
  | other
  deriving DecidableEq

/-- `DNS_TYPE_ANY` -/
def dnsTypeAny : UInt16 := 255

/-- The key for items that say that a name does not exist. -/
def ValidKey.any (key : ValidKey) : ValidKey := ⟨{ key.1 with type := dnsTypeAny }, key.2⟩

/-- A new key object. -/
def newKey (key : ValidKey) (h : KeyHolder) : CacheM Nat := do
  let c ← get
  modify fun c => { c with keys := update c.keys c.nextKey { key, holders := {h} }, nextKey := c.nextKey + 1 }
  return c.nextKey

/-- The key of a negative item: one of its own if the name does not exist. -/
def negativeItem (rcode : CacheRcode) (k : Nat) (answer : Bool) («until» : UInt64) (memory : Bool) :
    CacheM (Option Nat) := do
  if rcode = .nxdomain then
    if memory = false then return none
    else
      let c ← get
      let i := c.nextItem
      let any ← newKey (c.keys k).key.any (.slot (.item i))
      modify (DnsCache.addItem
        { type := .nxdomain, key := any, rr := none, answer, until_ := «until», sharedOwner := false })
      dnsCacheRemoveByKey k
      return some i
  else
    let i ← newItem { type := if rcode = .success then .nodata else .rcode, key := k, rr := none, answer,
                      until_ := «until», sharedOwner := false }
    return some i

/-- Whether an answer is not cached for lack of a time to live. -/
def negativeSkipped (c : DnsCache) (rcode : CacheRcode) (nsecTtl : UInt32) (soa : Option Nat) : Bool :=
  match rcode with
  | .success | .nxdomain =>
    match soa with
    | none => true
    | some soa => nsecTtl = 0 || (c.rrs soa).record.soa.minimum = 0 || (c.rrs soa).record.ttl = 0
  | .servfail => false
  | .other => true

/-- How long a negative answer is cached. -/
def negativeUntil (c : DnsCache) (rcode : CacheRcode) (answer : List CacheAnswerItem) (nsecTtl : UInt32) (now : Now)
    (soa : Option Nat) : UInt64 :=
  match rcode, soa with
  | .success, some soa | .nxdomain, some soa =>
    calculateUntil (c.rrs soa) (c.keys (c.rrs soa).key).key.1.type (dnsAnswerMinTtl c answer) nsecTtl now true
  | _, _ => now.boottime + cacheTtlStrangeRcodeUsec

/-- `dns_cache_put_negative()`; `keyMemory` tells whether there is memory for a new key. -/
def dnsCachePutNegative (k : Nat) (rcode : CacheRcode) (answer : List CacheAnswerItem) (hasAnswer : Bool)
    (nsecTtl : UInt32) (now : Now) (soa : Option Nat) (memory : ItemMemory) (keyMemory : Bool) : CacheM PutResult := do
  let c ← get
  if c.isPseudo k then return .done
  else
    if negativeSkipped c rcode nsecTtl soa then return .done
    else if memory.init = false then return .failed
    else
      dnsCacheMakeSpace 1
      if memory.item = false then return .failed
      else
        let item ← negativeItem rcode k hasAnswer (negativeUntil c rcode answer nsecTtl now soa) keyMemory
        match item with
        | none => return .failed
        | some i =>
          let linked ← linkOrFree i memory
          return if linked then .done else .failed

/-- The second part of `dns_cache_remove_previous()` -/
def removeAnswerKeys (only : CacheAnswerItem → Bool) : List CacheAnswerItem → CacheM PUnit
  | [] => return
  | item :: answer =>
    if only item then do
      let c ← get
      dnsCacheRemoveByKey (c.rrs item.rr).key
      removeAnswerKeys only answer
    else removeAnswerKeys only answer

def removeKeyIf : Option Nat → CacheM PUnit
  | some k => dnsCacheRemoveByKey k
  | none => pure ⟨⟩

/-- `dns_cache_remove_previous()` -/
def dnsCacheRemovePrevious (key : Option Nat) (answer : List CacheAnswerItem) : CacheM PUnit := do
  removeKeyIf key
  removeAnswerKeys (fun item => item.cacheable && !item.sharedOwner) answer

/-- `DNS_TYPE_NSEC` -/
def dnsTypeNsec : UInt16 := 47

/-- `DNS_TYPE_NSEC3` -/
def dnsTypeNsec3 : UInt16 := 50

/-- `bitmap_isset()` -/
def bitmapIsset (b : Option Bitmap) (n : Nat) : Bool := b.any fun b => n ∈ b

/-- `rr_eligible()` -/
def rrEligible (type : UInt16) (record : DnsResourceRecord) : Bool :=
  if type = dnsTypeNsec then !bitmapIsset record.nsec.types 2 || bitmapIsset record.nsec.types 6
  else if type = dnsTypeNsec3 then !bitmapIsset record.nsec3.types 2 || bitmapIsset record.nsec3.types 6
  else true

/-- What the loop over the records of an answer comes to. -/
inductive PutLoop where
  | through
  | returned
  | failed
  deriving DecidableEq

/-- The first item with a key, unless the record is one that was asked for. -/
def firstUnlessPrimary (primary : Bool) (k : Nat) : CacheM (Option Nat) := if primary then pure none else byKeyGet k

/-- The loop of `dns_cache_put()` -/
def putLoop (mdns keyed : Bool) (now : Now) (answer : List CacheAnswerItem) : List CacheAnswerItem → CacheM PutLoop
  | [] => return .through
  | item :: rest => do
      let c ← get
      if item.cacheable = false ∨
          rrEligible (c.keys (c.rrs item.rr).key).key.1.type (c.rrs item.rr).record = false then
        putLoop mdns keyed now answer rest
      else if keyed ∧ item.primary = none then return .returned
      else
        let primary := keyed && item.primary = some true
        -- do not replace items of primary lookups with other data
        let first ← firstUnlessPrimary primary (c.rrs item.rr).key
        if first.any fun first => (c.items first).answer then return .returned
        else
          let put ← dnsCachePutPositive mdns now answer primary item
          if put = .failed then return .failed
          else putLoop mdns keyed now answer rest

/-- The arguments of a call, and what other functions tell it. -/
structure PutArgs where
  mdns : Bool
  noNegative : Bool
  key : Option Nat
  rcode : CacheRcode
  answer : List CacheAnswerItem
  /-- Whether the answer is not `NULL`. -/
  hasAnswer : Bool
  queryAuthenticated : Bool
  nsecTtl : UInt32
  now : Now
  /-- `dns_answer_match_key()` -/
  matchKey : Option Bool
  /-- `dns_answer_find_cname_or_dname()` -/
  findCname : Option Bool
  /-- `dns_answer_find_soa()`: the record, and whether it is authenticated -/
  findSoa : Option (Option (Nat × Bool))
  memory : ItemMemory := {}
  keyMemory : Bool := true

/-- Clean up what was already added. -/
def putFailed (args : PutArgs) : CacheM PUnit := do
  removeKeyIf args.key
  removeAnswerKeys CacheAnswerItem.cacheable args.answer

/-- The part of `dns_cache_put()` that adds a negative item -/
def putNegativeIf (args : PutArgs) (k : Nat) : CacheM PUnit := do
  match args.matchKey with
  | none => putFailed args
  | some true => return
  | some false =>
    match args.findCname with
    | none => putFailed args
    | some true => return
    | some false =>
      match args.findSoa with
      | none => putFailed args
      | some soa =>
        if soa = none ∧ args.rcode ≠ .servfail then return
        -- refuse using the SOA data if it is unsigned, but the key is signed
        else if args.queryAuthenticated ∧ soa.any fun soa => !soa.2 then return
        else if args.noNegative then return
        else
          let put ← dnsCachePutNegative k args.rcode args.answer args.hasAnswer args.nsecTtl args.now (soa.map Prod.fst)
            args.memory args.keyMemory
          if put = .failed then putFailed args else return

/-- `dns_cache_put()` -/
def dnsCachePut (args : PutArgs) : CacheM PUnit := do
  dnsCacheRemovePrevious args.key args.answer
  if args.rcode = .other then return
  else if args.rcode ≠ .servfail ∧ args.answer.isEmpty then return
  else
    dnsCacheMakeSpace (args.answer.length + if args.key.isSome then 1 else 0)
    let loop ← putLoop args.mdns args.key.isSome args.now args.answer args.answer
    match loop with
    | .failed => putFailed args
    | .returned => return
    | .through =>
      match args.key with
      | none => return
      | some k => putNegativeIf args k

/-! ## Histories -/

/-- What happens to a cache and the objects it shares with others. -/
inductive CacheCall where
  | put (args : PutArgs)
  | prune (t : UInt64)
  | flush
  | removeByKey (k : Nat)
  | removeByRr (r : Nat)
  | unlink (i : Nat)
  /-- Others make, hold and drop keys and records. -/
  | makeKey (key : ValidKey) (n : Nat)
  | holdKey (k n : Nat)
  | dropKey (k n : Nat)
  | makeRr (k : Nat) (record : DnsResourceRecord) (expiry : UInt64) (n : Nat)
  | holdRr (r n : Nat)
  | dropRr (r n : Nat)

/-- A new record object, which holds its key. -/
def newRr (k : Nat) (record : DnsResourceRecord) (expiry : UInt64) (n : Nat) : CacheM PUnit := do
  let c ← get
  let r := c.nextRr
  dnsResourceKeyRef (.slot (.rr r)) k
  modify fun c =>
    { c with rrs := update c.rrs r { key := k, record, expiry, holders := {.other n} }, nextRr := r + 1 }

def CacheCall.run : CacheCall → CacheM PUnit
  | put args => dnsCachePut args
  | prune t => dnsCachePrune t
  | flush => dnsCacheFlush
  | removeByKey k => dnsCacheRemoveByKey k
  | removeByRr r => dnsCacheRemoveByRr r
  | unlink i => dnsCacheItemUnlinkAndFree i
  | makeKey key n => do
      let _ ← newKey key (.other n)
  | holdKey k n => dnsResourceKeyRef (.other n) k
  | dropKey k n => dnsResourceKeyUnref (.other n) k
  | makeRr k record expiry n => newRr k record expiry n
  | holdRr r n => dnsResourceRecordRef (.other n) r
  | dropRr r n => dnsResourceRecordUnref (.other n) r

end SystemdPort.Resolve
