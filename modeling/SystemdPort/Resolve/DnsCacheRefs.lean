/-
# Resolve.DnsCacheRefs — who holds the keys and records of a cache

`Held` says that the pointers of items and records are counted: an item or a record holds just the key
it points to, and an item its record.  Taking, dropping and replacing references keeps that, and never
drops a reference that is not held.

`Rekeyed` is what may happen to the pointers to keys where a key is replaced by one that is alike, and
`RefsOnly` what may happen where items take and drop references.
-/
import SystemdPort.Resolve.DnsCache

namespace SystemdPort.Resolve

set_option autoImplicit false

open Basic Lib Lib.Exec Shared.Dns Function DnsCache

/-! ## Keys that are alike -/

/-- A key without the case of its name. -/
def ValidKey.fold (key : ValidKey) : DnsResourceKey := { key.1 with name := foldName (dnsResourceKeyName key.1) }

/-- A record with a key and nothing in it. -/
def bareRecord (key : ValidKey) : DnsResourceRecord := { key := key.1, unparsable := true }

variable {s : KeySlot} {i r k : Nat} {h : KeyHolder} (a key b : ValidKey)

theorem wellFormed_bareRecord : WellFormed (bareRecord key) where
  owner := key.2
  names := by simp [NamesGood, payloadKind, bareRecord]
  version := by simp [bareRecord]

theorem keyCompareFunc_eq_zero : dnsResourceKeyCompareFunc a.1 b.1 = 0 ↔ a.fold = b.fold := by
  exact keyCompare_eq_zero (wellFormed_bareRecord a) (wellFormed_bareRecord b)

theorem keyEqual_iff : dnsResourceKeyEqual a.1 b.1 = .ok true ↔ a.fold = b.fold := by
  have := keyEqual_eq (wellFormed_bareRecord a) (wellFormed_bareRecord b)
  rw [show dnsResourceKeyEqual a.1 b.1 = .ok (decide (a.fold = b.fold)) from this]
  simp

namespace DnsCache

/-- What is common to the keys that are like `k`. -/
def kind (c : DnsCache) (k : Nat) : DnsResourceKey := (c.keys k).key.fold

def itemKind (c : DnsCache) (i : Nat) : DnsResourceKey := c.kind (c.items i).key

def rrKind (c : DnsCache) (r : Nat) : DnsResourceKey := c.kind (c.rrs r).key

theorem sameKey_iff (c : DnsCache) (a b : Nat) : c.sameKey a b = true ↔ c.kind a = c.kind b := by
  rw [sameKey, decide_eq_true_iff]
  exact keyCompareFunc_eq_zero _ _

/-- A pointer that is there. -/
def inUse (c : DnsCache) : KeySlot → Prop
  | .item i => c.allocated i = true
  | .rr r => c.rrLive r

end DnsCache

/-! ## References -/

section Fields

variable (c : DnsCache) (k k' r r' i : Nat) (f : Finset KeyHolder → Finset KeyHolder) (g : Finset RrHolder → Finset RrHolder)

@[simp] theorem holders_setKeyHolders :
    ((c.setKeyHolders k f).keys k').holders = if k' = k then f (c.keys k').holders else (c.keys k').holders := by
  by_cases here : k' = k
  · subst here
    simp [setKeyHolders]
  · simp [setKeyHolders, here]

@[simp] theorem key_setKeyHolders : ((c.setKeyHolders k f).keys k').key = (c.keys k').key := by
  by_cases here : k' = k
  · subst here
    simp [setKeyHolders]
  · simp [setKeyHolders, here]

@[simp] theorem kind_setKeyHolders : (c.setKeyHolders k f).kind k' = c.kind k' :=
  congrArg ValidKey.fold (key_setKeyHolders c k k' f)

@[simp] theorem itemKind_setKeyHolders : (c.setKeyHolders k f).itemKind i = c.itemKind i := kind_setKeyHolders c k _ f

@[simp] theorem rrKind_setKeyHolders : (c.setKeyHolders k f).rrKind r = c.rrKind r := kind_setKeyHolders c k _ f

@[simp] theorem holders_setRrHolders :
    ((c.setRrHolders r g).rrs r').holders = if r' = r then g (c.rrs r').holders else (c.rrs r').holders := by
  by_cases here : r' = r
  · subst here
    simp [setRrHolders]
  · simp [setRrHolders, here]

@[simp] theorem rrs_setKeyHolders : (c.setKeyHolders k f).rrs = c.rrs := rfl

@[simp] theorem rrLive_setKeyHolders : (c.setKeyHolders k f).rrLive r = c.rrLive r := rfl

@[simp] theorem keys_setRrHolders : (c.setRrHolders r g).keys = c.keys := rfl

theorem rrs_setRrHolders : ∃ holders, (c.setRrHolders r g).rrs r' = { c.rrs r' with holders } := by
  by_cases here : r' = r
  · subst here
    exact ⟨g (c.rrs r').holders, by simp [setRrHolders]⟩
  · exact ⟨_, by simp [setRrHolders, update_of_ne here]; rfl⟩

end Fields

/-- All pointers to keys and records are counted. -/
structure Held (c : DnsCache) : Prop where
  slots : ∀ s k, .slot s ∈ (c.keys k).holders ↔ c.inUse s ∧ c.slotKey s = k
  records : ∀ i r, .item i ∈ (c.rrs r).holders ↔ c.allocated i = true ∧ (c.items i).rr = some r
  freshItems : ∀ i, c.nextItem ≤ i → c.allocated i = false
  freshKeys : ∀ k, c.nextKey ≤ k → (c.keys k).holders = ∅
  freshRrs : ∀ r, c.nextRr ≤ r → (c.rrs r).holders = ∅

variable {c c' c'' : DnsCache}

theorem Held.slot_live (held : Held c) (used : c.inUse s) : c.keyLive (c.slotKey s) := by
  have mem := (held.slots s (c.slotKey s)).mpr ⟨used, rfl⟩
  exact Finset.nonempty_iff_ne_empty.mp ⟨_, mem⟩

theorem Held.item_live (held : Held c) (allocated : c.allocated i = true) : c.keyLive (c.items i).key :=
  held.slot_live (s := .item i) allocated

theorem Held.rr_live (held : Held c) (live : c.rrLive r) : c.keyLive (c.rrs r).key :=
  held.slot_live (s := .rr r) live

/-- What changes of pointers to keys leave alone. -/
structure Rekeyed (c c' : DnsCache) : Prop where
  contents : ∀ k, (c'.keys k).key = (c.keys k).key
  others : ∀ k n, .other n ∈ (c'.keys k).holders ↔ .other n ∈ (c.keys k).holders
  calls : ∀ k, .call ∈ (c'.keys k).holders ↔ .call ∈ (c.keys k).holders
  items : ∀ i, ∃ key, c'.items i = { c.items i with key } ∧ c.kind key = c.itemKind i
  rrs : ∀ r, ∃ key, c'.rrs r = { c.rrs r with key } ∧ c.kind key = c.rrKind r
  rest : ∃ keys items rrs, c' = { c with keys, items, rrs }

theorem Rekeyed.refl (c : DnsCache) : Rekeyed c c where
  contents _ := rfl
  others _ _ := Iff.rfl
  calls _ := Iff.rfl
  items _ := ⟨_, rfl, rfl⟩
  rrs _ := ⟨_, rfl, rfl⟩
  rest := ⟨_, _, _, rfl⟩

theorem Rekeyed.kind (rekeyed : Rekeyed c c') (k : Nat) : c'.kind k = c.kind k := by
  rw [DnsCache.kind, rekeyed.contents, DnsCache.kind]

theorem Rekeyed.itemKind (rekeyed : Rekeyed c c') (i : Nat) : c'.itemKind i = c.itemKind i := by
  obtain ⟨key, item, same⟩ := rekeyed.items i
  rw [DnsCache.itemKind, rekeyed.kind, item, same]

theorem Rekeyed.rrKind (rekeyed : Rekeyed c c') (r : Nat) : c'.rrKind r = c.rrKind r := by
  obtain ⟨key, rr, same⟩ := rekeyed.rrs r
  rw [DnsCache.rrKind, rekeyed.kind, rr, same]

theorem Rekeyed.trans (first : Rekeyed c c') (second : Rekeyed c' c'') : Rekeyed c c'' where
  contents k := (second.contents k).trans (first.contents k)
  others k n := (second.others k n).trans (first.others k n)
  calls k := (second.calls k).trans (first.calls k)
  items i := by
    obtain ⟨key, item, _⟩ := first.items i
    obtain ⟨key', item', same'⟩ := second.items i
    refine ⟨key', by rw [item', item], ?_⟩
    rw [← first.kind, same', first.itemKind]
  rrs r := by
    obtain ⟨key, rr, _⟩ := first.rrs r
    obtain ⟨key', rr', same'⟩ := second.rrs r
    refine ⟨key', by rw [rr', rr], ?_⟩
    rw [← first.kind, same', first.rrKind]
  rest := by
    obtain ⟨_, _, _, rfl⟩ := first.rest
    obtain ⟨_, _, _, rfl⟩ := second.rest
    exact ⟨_, _, _, rfl⟩

/-- A pointer is set to another key that is alike. -/
def DnsCache.repoint (s : KeySlot) (k : Nat) (c : DnsCache) : DnsCache :=
  ((c.setKeyHolders k (insert (.slot s))).setKeyHolders (c.slotKey s) fun holders => holders.erase (.slot s)).setSlotKey k s

theorem repoint_keys (c : DnsCache) (s : KeySlot) (k : Nat) :
    (c.repoint s k).keys = ((c.setKeyHolders k (insert (.slot s))).setKeyHolders (c.slotKey s)
      fun holders => holders.erase (.slot s)).keys := by
  cases s <;> rfl

theorem mem_repoint (held : Held c) (apart : c.slotKey s ≠ k) (h : KeyHolder) (k' : Nat) :
    h ∈ ((c.repoint s k).keys k').holders ↔ if h = .slot s then k' = k else h ∈ (c.keys k').holders := by
  rw [repoint_keys]
  by_cases own : h = .slot s
  · subst own
    have old := held.slots s k'
    by_cases isOld : k' = c.slotKey s
    · simp [isOld, apart]
    · have : .slot s ∉ (c.keys k').holders := fun mem => isOld (old.mp mem).2.symm
      by_cases isNew : k' = k
      · subst isNew
        simp [isOld]
      · simp [isNew, this]
  · simp only [holders_setKeyHolders]
    split <;> split <;> simp [own]

theorem inUse_repoint (c : DnsCache) (s : KeySlot) (k : Nat) (s' : KeySlot) : (c.repoint s k).inUse s' ↔ c.inUse s' := by
  cases s with
  | item i => exact Iff.rfl
  | rr r =>
    cases s' with
    | item i => exact Iff.rfl
    | rr r' =>
      by_cases here : r' = r
      · subst here
        simp [inUse, rrLive, repoint, setSlotKey]
      · simp [inUse, rrLive, repoint, setSlotKey, here]

theorem slotKey_repoint (c : DnsCache) (s : KeySlot) (k : Nat) (s' : KeySlot) :
    (c.repoint s k).slotKey s' = if s' = s then k else c.slotKey s' := by
  by_cases same : s' = s
  · subst same
    cases s' <;> simp [repoint, setSlotKey, slotKey, setItem]
  · cases s with
    | item i =>
      cases s' with
      | item i' =>
        have : i' ≠ i := fun h => same (by rw [h])
        simp [repoint, setSlotKey, slotKey, setItem, setKeyHolders, this]
      | rr r => rfl
    | rr r =>
      cases s' with
      | item i => rfl
      | rr r' =>
        have : r' ≠ r := fun h => same (by rw [h])
        simp [repoint, setSlotKey, slotKey, this]

theorem Rekeyed.repoint (held : Held c) (apart : c.slotKey s ≠ k) (alike : c.kind k = c.kind (c.slotKey s)) :
    Rekeyed c (c.repoint s k) where
  contents k' := by
    rw [repoint_keys]
    simp
  others k' n := by simp [mem_repoint held apart]
  calls k' := by simp [mem_repoint held apart]
  items i := by
    cases s with
    | item j =>
      by_cases here : i = j
      · subst here
        exact ⟨k, by simp [repoint, setSlotKey, setItem, setKeyHolders], alike⟩
      · exact ⟨(c.items i).key, by simp [repoint, setSlotKey, setItem, setKeyHolders, here], rfl⟩
    | rr r => exact ⟨_, rfl, rfl⟩
  rrs r := by
    cases s with
    | item j => exact ⟨_, rfl, rfl⟩
    | rr r' =>
      by_cases here : r = r'
      · subst here
        exact ⟨k, by simp [repoint, setSlotKey], alike⟩
      · exact ⟨(c.rrs r).key, by simp [repoint, setSlotKey, here], rfl⟩
  rest := by cases s <;> exact ⟨_, _, _, rfl⟩

theorem Held.rekey (held : Held c) (apart : c.slotKey s ≠ k) (used : c.inUse s) (live : c.keyLive k)
    (alike : c.kind k = c.kind (c.slotKey s)) : Held (c.repoint s k) := by
  have rekeyed := Rekeyed.repoint held apart alike
  obtain ⟨keys, items, rrs, rest⟩ := rekeyed.rest
  have allocated : (c.repoint s k).allocated = c.allocated := by rw [rest]
  have holders : ∀ r, ((c.repoint s k).rrs r).holders = (c.rrs r).holders := by
    intro r
    obtain ⟨key, rr, _⟩ := rekeyed.rrs r
    rw [rr]
  have records : ∀ i, ((c.repoint s k).items i).rr = (c.items i).rr := by
    intro i
    obtain ⟨key, item, _⟩ := rekeyed.items i
    rw [item]
  refine ⟨?_, ?_, ?_, ?_, ?_⟩
  · intro s' k'
    rw [mem_repoint held apart, inUse_repoint, slotKey_repoint]
    by_cases same : s' = s
    · subst same
      simp [used, eq_comm]
    · simp only [KeyHolder.slot.injEq, same]
      exact held.slots s' k'
  · intro i r
    rw [holders, records, allocated]
    exact held.records i r
  · rw [rest]
    exact held.freshItems
  · intro k' fresh
    have fresh : c.nextKey ≤ k' := by simpa [rest] using fresh
    have none := held.freshKeys k' fresh
    ext h
    rw [mem_repoint held apart]
    by_cases own : h = .slot s
    · have : k' ≠ k := by
        rintro rfl
        exact live none
      simp [own, this]
    · simp [own, none]
  · intro r fresh
    rw [holders]
    exact held.freshRrs r (by simpa [rest] using fresh)

theorem keyRef_ok (live : c.keyLive k) (missing : h ∉ (c.keys k).holders) :
    dnsResourceKeyRef h k c = .ok ⟨⟩ (c.setKeyHolders k (insert h)) := by
  rw [dnsResourceKeyRef, get_bind, require_of ⟨live, missing⟩]
  rfl

theorem keyUnref_ok (holds : h ∈ (c.keys k).holders) :
    dnsResourceKeyUnref h k c = .ok ⟨⟩ (c.setKeyHolders k fun holders => holders.erase h) := by
  rw [dnsResourceKeyUnref, get_bind, require_of holds]
  rfl

theorem keyReplace_ok (held : Held c) (used : c.inUse s) (live : c.keyLive k)
    (alike : c.kind k = c.kind (c.slotKey s)) : Goes (dnsResourceKeyReplace s k) (fun _ c' => Held c' ∧ Rekeyed c c' ∧
      ∀ s', c'.slotKey s' = if s' = s then k else c.slotKey s') c := by
  apply goes_get_bind
  split
  · rename_i same
    refine goes_pure ⟨held, Rekeyed.refl c, ?_⟩
    intro s'
    split
    · rename_i here
      rw [here, same]
    · rfl
  · rename_i apart
    have missing : .slot s ∉ (c.keys k).holders := fun mem => apart ((held.slots s k).mp mem).2
    have own : .slot s ∈ (c.keys (c.slotKey s)).holders := (held.slots s _).mpr ⟨used, rfl⟩
    have run : (do
        dnsResourceKeyRef (.slot s) k
        dnsResourceKeyUnref (.slot s) (c.slotKey s)
        modify fun c => c.setSlotKey k s : CacheM PUnit) c = .ok ⟨⟩ (c.repoint s k) := by
      have kept : .slot s ∈ ((c.setKeyHolders k (insert (.slot s))).keys (c.slotKey s)).holders := by
        simp [own]
      rw [bind_of_ok (keyRef_ok live missing), bind_of_ok (keyUnref_ok kept)]
      rfl
    exact goes_of_ok run ⟨held.rekey apart used live alike, Rekeyed.repoint held apart alike, slotKey_repoint c s k⟩

theorem keyReduce_ok {a b : KeySlot} (held : Held c) (usedA : c.inUse a) (usedB : c.inUse b) :
    Goes (dnsResourceKeyReduce a b) (fun _ c' => Held c' ∧ Rekeyed c c' ∧
      ∀ s, s ≠ a → s ≠ b → c'.slotKey s = c.slotKey s) c := by
  apply goes_get_bind
  split
  · exact goes_pure ⟨held, Rekeyed.refl c, fun _ _ _ => rfl⟩
  apply goes_require_bind ⟨held.slot_live usedA, held.slot_live usedB⟩
  split
  · exact goes_pure ⟨held, Rekeyed.refl c, fun _ _ _ => rfl⟩
  rename_i equal
  have alike : c.kind (c.slotKey a) = c.kind (c.slotKey b) := (keyEqual_iff _ _).mp (by simpa using equal)
  split
  · refine (keyReplace_ok held usedB (held.slot_live usedA) alike).imp ?_
    rintro _ c' ⟨held, rekeyed, slots⟩
    exact ⟨held, rekeyed, fun s _ apart => by rw [slots, if_neg apart]⟩
  · refine (keyReplace_ok held usedA (held.slot_live usedB) alike.symm).imp ?_
    rintro _ c' ⟨held, rekeyed, slots⟩
    exact ⟨held, rekeyed, fun s apart _ => by rw [slots, if_neg apart]⟩

/-! ## References taken and dropped one by one -/

/-- Keys and records are what they were, and others hold what they held. -/
structure RefsKept (c c' : DnsCache) : Prop where
  contents : ∀ k, (c'.keys k).key = (c.keys k).key
  others : ∀ k h, (∀ s, h ≠ .slot s) → (h ∈ (c'.keys k).holders ↔ h ∈ (c.keys k).holders)
  rrs : ∀ r, ∃ holders, c'.rrs r = { c.rrs r with holders }
  rrOthers : ∀ r n, .other n ∈ (c'.rrs r).holders ↔ .other n ∈ (c.rrs r).holders

theorem RefsKept.refl (c : DnsCache) : RefsKept c c where
  contents _ := rfl
  others _ _ _ := Iff.rfl
  rrs _ := ⟨_, rfl⟩
  rrOthers _ _ := Iff.rfl

theorem RefsKept.trans (first : RefsKept c c') (second : RefsKept c' c'') : RefsKept c c'' where
  contents k := (second.contents k).trans (first.contents k)
  others k h apart := (second.others k h apart).trans (first.others k h apart)
  rrs r := by
    obtain ⟨_, same⟩ := first.rrs r
    obtain ⟨holders, same'⟩ := second.rrs r
    exact ⟨holders, by rw [same', same]⟩
  rrOthers r n := (second.rrOthers r n).trans (first.rrOthers r n)

theorem RefsKept.kind (kept : RefsKept c c') (k : Nat) : c'.kind k = c.kind k := congrArg ValidKey.fold (kept.contents k)

theorem RefsKept.rrKind (kept : RefsKept c c') (r : Nat) : c'.rrKind r = c.rrKind r := by
  obtain ⟨holders, same⟩ := kept.rrs r
  rw [DnsCache.rrKind, DnsCache.rrKind, kept.kind, same]

/-- Only references of items have changed. -/
structure RefsOnly (c c' : DnsCache) : Prop extends RefsKept c c' where
  rest : ∃ keys rrs, c' = { c with keys, rrs }

theorem RefsOnly.refl (c : DnsCache) : RefsOnly c c := ⟨RefsKept.refl c, _, _, rfl⟩

theorem RefsOnly.trans (first : RefsOnly c c') (second : RefsOnly c' c'') : RefsOnly c c'' where
  toRefsKept := first.toRefsKept.trans second.toRefsKept
  rest := by
    obtain ⟨_, _, rfl⟩ := first.rest
    obtain ⟨_, _, rfl⟩ := second.rest
    exact ⟨_, _, rfl⟩

theorem ne_empty_of_mem {α : Type} {s : Finset α} {a : α} (mem : a ∈ s) : s ≠ ∅ := by
  rintro rfl
  cases mem

/-- The references of records to their keys are counted. -/
structure Counted (c : DnsCache) : Prop where
  recordKeys : ∀ r k, .slot (.rr r) ∈ (c.keys k).holders ↔ c.rrLive r ∧ (c.rrs r).key = k
  freshKeys : ∀ k, c.nextKey ≤ k → (c.keys k).holders = ∅
  freshRrs : ∀ r, c.nextRr ≤ r → (c.rrs r).holders = ∅

theorem Held.counted (held : Held c) : Counted c := ⟨fun r => held.slots (.rr r), held.freshKeys, held.freshRrs⟩

section Counted

variable (counted : Counted c)

include counted

theorem Counted.held (items : ∀ i k, .slot (.item i) ∈ (c.keys k).holders ↔ c.allocated i = true ∧ (c.items i).key = k)
    (records : ∀ i r, .item i ∈ (c.rrs r).holders ↔ c.allocated i = true ∧ (c.items i).rr = some r)
    (fresh : ∀ i, c.nextItem ≤ i → c.allocated i = false) : Held c where
  slots s k := by
    cases s with
    | item i => exact items i k
    | rr r => exact counted.recordKeys r k
  records := records
  freshItems := fresh
  freshKeys := counted.freshKeys
  freshRrs := counted.freshRrs

variable {g : RrHolder}

theorem Counted.rrRef (live : c.rrLive r) : Counted (c.setRrHolders r (insert g)) := by
  have same : ∀ s, (c.setRrHolders r (insert g)).rrLive s ↔ c.rrLive s := by
    intro s
    rw [rrLive, holders_setRrHolders]
    split
    · rename_i here
      subst here
      exact iff_of_true (ne_empty_of_mem (Finset.mem_insert_self _ _)) live
    · rfl
  refine ⟨?_, counted.freshKeys, ?_⟩
  · intro s k
    obtain ⟨_, key⟩ := rrs_setRrHolders c r s (insert g)
    rw [same, key]
    exact counted.recordKeys s k
  · intro s fresh
    rw [holders_setRrHolders, if_neg]
    · exact counted.freshRrs s fresh
    · rintro rfl
      exact live (counted.freshRrs s fresh)

/-- A holder drops a reference to a record; with the last one goes that of the record to its key. -/
theorem Counted.rrUnref (holds : g ∈ (c.rrs r).holders) : Goes (dnsResourceRecordUnref g r)
      (fun _ c' => Counted c' ∧ (∀ k, (c'.keys k).key = (c.keys k).key) ∧
        (∀ k h, (∀ s, h ≠ .slot (.rr s)) → (h ∈ (c'.keys k).holders ↔ h ∈ (c.keys k).holders)) ∧
        ∃ keys, c' = { c.setRrHolders r fun holders => holders.erase g with keys }) c := by
  have freshRrs : ∀ s, c.nextRr ≤ s → ((c.setRrHolders r fun holders => holders.erase g).rrs s).holders = ∅ := by
    intro s fresh
    simp [counted.freshRrs s fresh]
  have live : ∀ s, s ≠ r → ((c.setRrHolders r fun holders => holders.erase g).rrLive s ↔ c.rrLive s) := by
    intro s apart
    rw [rrLive, rrLive, holders_setRrHolders, if_neg apart]
  apply goes_require_bind holds
  apply goes_modify_bind
  split
  · rename_i last
    refine goes_of_ok (keyUnref_ok ((counted.recordKeys r _).mpr ⟨ne_empty_of_mem holds, rfl⟩))
      ⟨⟨?_, ?_, freshRrs⟩, by simp, ?_, _, rfl⟩
    · intro s k
      obtain ⟨_, key⟩ := rrs_setRrHolders c r s fun holders => holders.erase g
      have old := counted.recordKeys s k
      rw [rrLive_setKeyHolders, rrs_setKeyHolders, key, holders_setKeyHolders]
      by_cases here : s = r
      · subst here
        refine iff_of_false ?_ (by simp [rrLive, last])
        split
        · simp
        · rename_i apart
          exact fun mem => apart (old.mp mem).2.symm
      · rw [live s here]
        split
        · simpa [here] using old
        · exact old
    · intro k fresh
      rw [holders_setKeyHolders]
      have none := counted.freshKeys k fresh
      split
      · simp [none]
      · exact none
    · intro k h apart
      rw [holders_setKeyHolders]
      split
      · simp [apart]
      · rfl
  · rename_i more
    refine goes_pure ⟨⟨?_, counted.freshKeys, freshRrs⟩, fun _ => rfl, fun _ _ _ => Iff.rfl, _, rfl⟩
    intro s k
    obtain ⟨_, key⟩ := rrs_setRrHolders c r s fun holders => holders.erase g
    have sameLive : (c.setRrHolders r fun holders => holders.erase g).rrLive s ↔ c.rrLive s := by
      by_cases here : s = r
      · subst here
        refine iff_of_true ?_ (ne_empty_of_mem holds)
        simpa [rrLive] using more
      · exact live s here
    rw [sameLive, key]
    exact counted.recordKeys s k

end Counted

theorem rrRef_ok {g : RrHolder} (live : c.rrLive r) (missing : g ∉ (c.rrs r).holders) :
    dnsResourceRecordRef g r c = .ok ⟨⟩ (c.setRrHolders r (insert g)) := by
  rw [dnsResourceRecordRef, get_bind, require_of ⟨live, missing⟩]
  rfl

/-- The references of items, while the item `i` holds the keys `K` and the records `R`. -/
structure Refs (c₀ : DnsCache) (i : Nat) (K R : Set Nat) (c : DnsCache) : Prop extends Counted c, RefsOnly c₀ c where
  items : ∀ j k, .slot (.item j) ∈ (c.keys k).holders ↔
    if j = i then k ∈ K else c₀.allocated j = true ∧ (c₀.items j).key = k
  records : ∀ j r, .item j ∈ (c.rrs r).holders ↔
    if j = i then r ∈ R else c₀.allocated j = true ∧ (c₀.items j).rr = some r

theorem Held.refs (held : Held c) (i : Nat) :
    Refs c i {k | c.allocated i = true ∧ (c.items i).key = k} {r | c.allocated i = true ∧ (c.items i).rr = some r} c where
  toCounted := held.counted
  toRefsOnly := .refl c
  items j k := (held.slots (.item j) k).trans (by by_cases same : j = i <;> simp [same, inUse, slotKey])
  records j r := (held.records j r).trans (by by_cases same : j = i <;> simp [same])

section Refs

variable {c₀ : DnsCache} {K R K' : Set Nat} (refs : Refs c₀ i K R c)

include refs

/-- The item points to what it holds. -/
theorem Refs.held (counted : Counted c') (same : c'.keys = c.keys ∧ c'.rrs = c.rrs)
    (others : ∀ j, j ≠ i → c'.allocated j = c₀.allocated j ∧ c'.items j = c₀.items j)
    (keys : ∀ k, k ∈ K ↔ c'.allocated i = true ∧ (c'.items i).key = k)
    (rrs : ∀ r, r ∈ R ↔ c'.allocated i = true ∧ (c'.items i).rr = some r)
    (fresh : ∀ j, c'.nextItem ≤ j → c'.allocated j = false) : Held c' := by
  refine counted.held ?_ ?_ fresh
  · intro j k
    rw [same.1, refs.items]
    split
    · rename_i own
      rw [keys, own]
    · rename_i apart
      rw [(others j apart).1, (others j apart).2]
  · intro j r
    rw [same.2, refs.records]
    split
    · rename_i own
      rw [rrs, own]
    · rename_i apart
      rw [(others j apart).1, (others j apart).2]

/-- What the item holds of a key is changed. -/
theorem Refs.setKeyHolders {f : Finset KeyHolder → Finset KeyHolder}
    (others : ∀ h, h ≠ .slot (.item i) → (h ∈ f (c.keys k).holders ↔ h ∈ (c.keys k).holders))
    (own : ∀ l, .slot (.item i) ∈ ((c.setKeyHolders k f).keys l).holders ↔ l ∈ K')
    (fresh : c.nextKey ≤ k → f (c.keys k).holders = ∅) : Refs c₀ i K' R (c.setKeyHolders k f) := by
  have same : ∀ l h, h ≠ .slot (.item i) →
      (h ∈ ((c.setKeyHolders k f).keys l).holders ↔ h ∈ (c.keys l).holders) := by
    intro l h apart
    rw [holders_setKeyHolders]
    split
    · rename_i here
      exact here ▸ others h apart
    · rfl
  refine ⟨⟨?_, ?_, refs.freshRrs⟩, refs.toRefsOnly.trans ⟨⟨by simp, ?_, fun _ => ⟨_, rfl⟩, fun _ _ => Iff.rfl⟩, _, _, rfl⟩,
    ?_, refs.records⟩
  · exact fun r l => (same l _ (by simp)).trans (refs.recordKeys r l)
  · intro l isFresh
    rw [holders_setKeyHolders]
    split
    · rename_i here
      exact here ▸ fresh (here ▸ isFresh)
    · exact refs.freshKeys l isFresh
  · exact fun l h apart => same l h (apart _)
  · intro j l
    by_cases here : j = i
    · rw [if_pos here, here]
      exact own l
    · simpa [here] using (same l _ (by simp [here])).trans (refs.items j l)

theorem Refs.keyRef (live : c.keyLive k) : Refs c₀ i (insert k K) R (c.setKeyHolders k (insert (.slot (.item i)))) := by
  refine refs.setKeyHolders (fun h apart => by simp [apart]) ?_ fun fresh => absurd (refs.freshKeys k fresh) live
  intro l
  by_cases here : l = k
  · simp [here]
  · simp [here, refs.items]

theorem Refs.keyUnref : Refs c₀ i (K \ {k}) R (c.setKeyHolders k fun holders => holders.erase (.slot (.item i))) := by
  refine refs.setKeyHolders (fun h apart => by simp [apart]) ?_ fun fresh => by simp [refs.freshKeys k fresh]
  intro l
  by_cases here : l = k
  · simp [here]
  · simp [here, refs.items]

theorem Refs.rrRef (live : c.rrLive r) : Refs c₀ i K (insert r R) (c.setRrHolders r (insert (.item i))) := by
  refine ⟨refs.toCounted.rrRef live, refs.toRefsOnly.trans ⟨⟨fun _ => rfl, fun _ _ _ => Iff.rfl,
    fun s => rrs_setRrHolders c r s _, ?_⟩, _, _, rfl⟩, refs.items, ?_⟩
  · intro s n
    rw [holders_setRrHolders]
    split <;> simp
  · intro j s
    by_cases here : s = r <;> by_cases own : j = i <;> simp [here, own, refs.records]

theorem Refs.rrUnrefIf {rr : Option Nat} (holds : ∀ r, rr = some r → r ∈ R) :
    Goes (rrUnrefIf i rr) (fun _ c' => Refs c₀ i K (R \ {r | rr = some r}) c') c := by
  cases rr with
  | none => exact goes_pure (by simpa using refs)
  | some r =>
    refine (refs.toCounted.rrUnref ((refs.records i r).mpr (by simpa using holds r rfl))).imp ?_
    rintro _ c' ⟨counted, contents, others, keys, rfl⟩
    refine ⟨counted, refs.toRefsOnly.trans ⟨⟨contents, fun k h apart => others k h fun s => apart _,
      fun s => rrs_setRrHolders c r s fun holders => holders.erase (.item i), ?_⟩, _, _, rfl⟩, fun j k => (others k _ (by simp)).trans (refs.items j k), ?_⟩
    · intro s n
      rw [holders_setRrHolders]
      split <;> simp
    · intro j s
      by_cases here : s = r <;> by_cases own : j = i <;> simp [here, own, refs.records, eq_comm (a := r)]

theorem Refs.rrRefIf {rr : Option Nat} (live : ∀ r, rr = some r → c.rrLive r ∧ r ∉ R) :
    Goes (rrRefIf i rr) (fun _ c' => Refs c₀ i K ({r | rr = some r} ∪ R) c') c := by
  cases rr with
  | none => exact goes_pure (by simpa using refs)
  | some r =>
    obtain ⟨live, missing⟩ := live r rfl
    refine goes_of_ok (rrRef_ok live (mt (refs.records i r).mp (by simpa using missing))) ?_
    simpa using refs.rrRef live

end Refs

/-! ## Items -/

theorem itemFree_ok (held : Held c) (allocated : c.allocated i = true) :
    Goes (dnsCacheItemFree i) (fun _ c' => Held c' ∧
      ∃ c₁, RefsOnly c c₁ ∧ c' = { c₁ with allocated := update c.allocated i false }) c := by
  apply goes_require_bind allocated
  refine ((held.refs i).rrUnrefIf fun r record => ⟨allocated, record⟩).bind ?_
  intro _ c₁ refs
  apply goes_ok_bind (keyUnref_ok ((refs.items i _).mpr (by simp [allocated])))
  have refs := refs.keyUnref (k := (c.items i).key)
  obtain ⟨keys, rrs, rest⟩ := refs.rest
  generalize c₁.setKeyHolders _ _ = c₂ at refs rest ⊢
  subst rest
  refine goes_modify ⟨?_, _, refs.toRefsOnly, rfl⟩
  refine refs.held { refs.toCounted with } ⟨rfl, rfl⟩ (fun j apart => by simp [apart]) (by simp [eq_comm (a := (c.items i).key)]) (by simp) ?_
  intro j fresh
  by_cases same : j = i
  · simp [same]
  · simpa [same] using held.freshItems j fresh

/-- A new item holds its key and its record. -/
theorem newItem_ok (item : DnsCacheItem) (held : Held c) (live : c.keyLive item.key)
    (record : ∀ r, item.rr = some r → c.rrLive r) : Goes (newItem item) (fun i c' => i = c.nextItem ∧ Held c' ∧
      ∃ c₁, RefsOnly c c₁ ∧ c' = c₁.addItem item) c := by
  have unused : c.allocated c.nextItem = false := held.freshItems _ le_rfl
  have refs := held.refs c.nextItem
  apply goes_get_bind
  apply goes_ok_bind (keyRef_ok live (mt (refs.items _ _).mp (by simp [unused])))
  refine ((refs.keyRef live).rrRefIf fun r isRecord => ⟨record r isRecord, by simp [unused]⟩).bind ?_
  intro _ c₂ refs
  obtain ⟨keys, rrs, rfl⟩ := refs.rest
  apply goes_modify_bind
  refine goes_pure ⟨rfl, ?_, _, refs.toRefsOnly, rfl⟩
  refine refs.held { refs.toCounted with } ⟨rfl, rfl⟩ (fun j apart => by simp [apart, addItem]) (by simp [unused, addItem, eq_comm (a := item.key)])
    (by simp [unused, addItem]) ?_
  intro j fresh
  have fresh : c.nextItem + 1 ≤ j := fresh
  have same : j ≠ c.nextItem := by omega
  simpa [same, addItem] using held.freshItems j (by omega)

theorem itemRrReplace_ok (held : Held c) (allocated : c.allocated i = true) (live : c.rrLive r) :
    Goes (itemRrReplace i r) (fun _ c' => Held c' ∧
      ∃ c₁, RefsOnly c c₁ ∧ c' = c₁.setItem i fun item => { item with rr := some r }) c := by
  apply goes_get_bind
  split
  · rename_i same
    refine goes_pure ⟨held, c, RefsOnly.refl c, ?_⟩
    have : { c.items i with rr := some r } = c.items i := by rw [← same]
    simp [setItem, this]
  rename_i apart
  apply goes_ok_bind (rrRef_ok live (mt (held.records i r).mp (by simp [apart])))
  refine (((held.refs i).rrRef live).rrUnrefIf fun r record => .inr ⟨allocated, record⟩).bind ?_
  intro _ c₂ refs
  obtain ⟨keys, rrs, rfl⟩ := refs.rest
  refine goes_modify ⟨?_, _, refs.toRefsOnly, rfl⟩
  refine refs.held { refs.toCounted with } ⟨rfl, rfl⟩ (fun j apart => by simp [apart, setItem]) (by simp [setItem]) ?_ held.freshItems
  intro s
  by_cases here : s = r
  · simp [here, apart, allocated, setItem]
  · simp [here, setItem, allocated, Ne.symm here]

end SystemdPort.Resolve
