/-
# Resolve.DnsAnswer — sets of resource records

`dns_answer_add()` and `dns_answer_merge()` of `src/resolve/resolved-dns-answer.c`.  The items of an
answer are in an ordered hash set, which compares interface index and record, and hashes both.  How
the set chooses buckets is left open, as every set has its own hash key.

`answer_condenses` says that an answer has one item for each class of equal records that were added,
with the largest TTL and all flags, as long as the texts of HINFO records that are equal without
regard to case are spelled alike: these are hashed with their case.
-/
import SystemdPort.Lib.Condense
import SystemdPort.Lib.HashSet
import SystemdPort.Resolve.DnsRrEqual

namespace SystemdPort.Resolve

set_option autoImplicit false

open Basic Lib Lib.Exec List

structure DnsAnswerItem where
  rr : DnsResourceRecord
  ifindex : Int32
  flags : UInt32
  /-- A signature of the record that was validated. -/
  rrsig : Option DnsResourceRecord := none
  deriving DecidableEq

/-- `dns_answer_item_hash_func()` -/
def dnsAnswerItemHashFunc (a : DnsAnswerItem) : CString :=
  native32 a.ifindex.toUInt32 ++ dnsResourceRecordHashFunc a.rr

/-- Whether `dns_answer_item_compare_func()` returns 0. -/
def dnsAnswerItemCompareFunc (a b : DnsAnswerItem) : Bool :=
  a.ifindex = b.ifindex ∧ dnsResourceRecordCompareFunc a.rr b.rr

structure DnsAnswer where
  nRef : Nat := 1
  items : HashSet DnsAnswerItem

/-- How a call ends without success. -/
inductive AnswerStop where
  | errno (e : Errno)
  | assertion
  deriving DecidableEq

/-- `DNS_ANSWER_REFUSE_TTL_NO_MATCH` -/
def dnsAnswerRefuseTtlNoMatch : UInt32 := 0x100

/-- `DNS_TYPE_RRSIG` -/
def dnsTypeRrsig : UInt16 := 46

/-- `dns_answer_new()` -/
def dnsAnswerNew (hashing : Hashing) : DnsAnswer := { items := { hashing } }

/-- `ordered_set_get()` -/
def orderedSetGet (s : HashSet DnsAnswerItem) (p : DnsAnswerItem) : Option (Nat × DnsAnswerItem) :=
  s.find dnsAnswerItemHashFunc dnsAnswerItemCompareFunc p

/-- `ordered_set_put()` of an item that is not in the set itself -/
def orderedSetPut (s : HashSet DnsAnswerItem) (p : DnsAnswerItem) : Except Errno (HashSet DnsAnswerItem) :=
  match orderedSetGet s p with
  | some _ => .error .eexist
  | none => .ok (s.insert dnsAnswerItemHashFunc p)

/-- `dns_answer_add_raw()` -/
def dnsAnswerAddRaw (a : DnsAnswer) (item : DnsAnswerItem) : Except AnswerStop DnsAnswer :=
  if 0xFFFF ≤ a.items.items.length then .error (.errno .enospc)
  else
    match orderedSetPut a.items item with
    | .error e => .error (.errno e)
    | .ok items => .ok { a with items }

/-- The item with the higher TTL, and the flags of both. -/
def joinItems (exist item : DnsAnswerItem) : DnsAnswerItem :=
  let exist' := if exist.rr.ttl < item.rr.ttl then
      { exist with rr := item.rr, rrsig := if item.rrsig.isSome then item.rrsig else exist.rrsig }
    else exist
  { exist' with flags := exist.flags ||| item.flags }

/-- Move the item at `i` to the end. -/
def moveToEnd (s : HashSet DnsAnswerItem) (i : Nat) (exist : DnsAnswerItem) :
    Except AnswerStop (HashSet DnsAnswerItem) :=
  match orderedSetGet s exist with
  | none => .error .assertion
  | some (j, _) =>
    if j ≠ i then .error .assertion
    else
      match orderedSetPut (s.removeAt i) exist with
      | .error _ => .error .assertion
      | .ok s => .ok s

/-- `dns_answer_add()` -/
def dnsAnswerAdd (a : DnsAnswer) (item : DnsAnswerItem) : Except AnswerStop DnsAnswer :=
  if 1 < a.nRef then .error (.errno .ebusy)
  else
    match orderedSetGet a.items item with
    | none => dnsAnswerAddRaw a item
    | some (i, exist) =>
      if ((item.rr.ttl == 0) != (exist.rr.ttl == 0)) ∧
          (exist.flags ||| item.flags) &&& dnsAnswerRefuseTtlNoMatch ≠ 0 then .error (.errno .einval)
      else
        let items := a.items.replace i (joinItems exist item)
        if item.rr.key.type = dnsTypeRrsig then
          match moveToEnd items i (joinItems exist item) with
          | .error e => .error e
          | .ok items => .ok { a with items }
        else .ok { a with items }

/-- The items of an answer, which may be `NULL`. -/
def answerItems : Option DnsAnswer → List DnsAnswerItem
  | none => []
  | some a => a.items.items

/-- `dns_answer_ref()` -/
def dnsAnswerRef (a : Option DnsAnswer) : Option DnsAnswer := a.map fun a => { a with nRef := a.nRef + 1 }

/-- `dns_answer_merge()` of two answers -/
def dnsAnswerMerge (hashing : Hashing) (a b : Option DnsAnswer) : Except AnswerStop (Option DnsAnswer) :=
  if (answerItems a).length = 0 then .ok (dnsAnswerRef b)
  else if (answerItems b).length = 0 then .ok (dnsAnswerRef a)
  else do
    let k ← (answerItems a).foldlM dnsAnswerAddRaw (dnsAnswerNew hashing)
    let k ← (answerItems b).foldlM dnsAnswerAdd k
    return some k

/-! ## One item for each class -/

/-- What makes records belong together. -/
def itemClass (x : DnsAnswerItem) : Int32 × DnsResourceRecord := (x.ifindex, x.rr.essence)

def itemValue (x : DnsAnswerItem) : Nat × UInt32 := (x.rr.ttl.toNat, x.flags)

/-- The largest TTL and all flags. -/
def joinValues (x y : Nat × UInt32) : Nat × UInt32 := (max x.1 y.1, x.2 ||| y.2)

instance : Std.Associative joinValues where
  assoc x y z := by simp [joinValues, max_assoc, UInt32.or_assoc]

/-- What is known of the records that are added. -/
structure Sound (added : List DnsAnswerItem) : Prop where
  wellFormed : ∀ x ∈ added, WellFormed x.rr
  spelled : ∀ x ∈ added, ∀ y ∈ added, itemClass x = itemClass y → payloadKind x.rr = .hinfo → x.rr.hinfo = y.rr.hinfo

/-- The records of `items` are among those of `added`. -/
def Among (items added : List DnsAnswerItem) : Prop :=
  ∀ item ∈ items, ∃ x ∈ added, item.rr = x.rr ∧ item.ifindex = x.ifindex

/-- What holds of the items of an answer that was built. -/
structure Built (s : HashSet DnsAnswerItem) (added : List DnsAnswerItem) : Prop where
  placed : s.Placed dnsAnswerItemHashFunc
  condenses : Condenses itemClass itemValue joinValues s.items added
  among : Among s.items added

section Classes

variable {x y z : DnsAnswerItem} {added others items : List DnsAnswerItem}

theorem itemCompare_iff (goodX : WellFormed x.rr) (goodY : WellFormed y.rr) :
    dnsAnswerItemCompareFunc x y = true ↔ itemClass x = itemClass y := by
  simp [dnsAnswerItemCompareFunc, itemClass, recordCompare_iff goodX goodY]

theorem itemClass_of_among (rr : x.rr = y.rr) (ifindex : x.ifindex = y.ifindex) : itemClass x = itemClass y := by
  rw [itemClass, itemClass, rr, ifindex]

theorem Sound.among (sound : Sound added) (among : Among items added) : Sound items where
  wellFormed x mem := by
    obtain ⟨a, memA, rr, _⟩ := among x mem
    exact rr ▸ sound.wellFormed a memA
  spelled x memX y memY same hinfo := by
    obtain ⟨a, memA, rrA, ifindexA⟩ := among x memX
    obtain ⟨b, memB, rrB, ifindexB⟩ := among y memY
    have class_ : itemClass a = itemClass b := by
      rw [← itemClass_of_among rrA ifindexA, ← itemClass_of_among rrB ifindexB, same]
    rw [rrA] at hinfo ⊢
    rw [rrB]
    exact sound.spelled a memA b memB class_ hinfo

theorem Sound.hash_alike (sound : Sound added) (memX : x ∈ added) (memY : y ∈ added)
    (same : itemClass x = itemClass y) : dnsAnswerItemHashFunc x = dnsAnswerItemHashFunc y := by
  obtain ⟨ifindex, essence⟩ := Prod.mk.inj same
  rw [dnsAnswerItemHashFunc, dnsAnswerItemHashFunc, ifindex,
    hashFunc_alike (sound.wellFormed x memX) (sound.wellFormed y memY) essence (sound.spelled x memX y memY same)]

theorem Among.append_right (among : Among items added) (l : List DnsAnswerItem) : Among items (added ++ l) := by
  intro item mem
  obtain ⟨x, memX, facts⟩ := among item mem
  exact ⟨x, mem_append_left l memX, facts⟩

theorem among_refl (added : List DnsAnswerItem) : Among added added := fun x mem => ⟨x, mem, rfl, rfl⟩

theorem Among.append (first : Among items added) (second : Among others added) : Among (items ++ others) added := by
  intro item mem
  rcases mem_append.mp mem with mem | mem
  · exact first item mem
  · exact second item mem

theorem Among.trans (first : Among items others) (second : Among others added) : Among items added := by
  intro item mem
  obtain ⟨x, memX, rr, ifindex⟩ := first item mem
  obtain ⟨y, memY, rr', ifindex'⟩ := second x memX
  exact ⟨y, memY, rr.trans rr', ifindex.trans ifindex'⟩

end Classes

section Step

variable {s s' : HashSet DnsAnswerItem} {a a' : DnsAnswer} {x y : DnsAnswerItem} {added : List DnsAnswerItem} {i : Nat}

/-- The items of the set and the new one are sound together. -/
theorem Built.sound (built : Built s added) (sound : Sound (added ++ [x])) : Sound (s.items ++ [x]) :=
  sound.among ((built.among.append_right [x]).append (fun item mem => ⟨item, mem_append_right added mem, rfl, rfl⟩))

theorem Built.get_some (built : Built s added) (sound : Sound (added ++ [x])) (found : orderedSetGet s x = some (i, y)) :
    s.items[i]? = some y ∧ itemClass y = itemClass x := by
  obtain ⟨there, same⟩ := HashSet.find_eq_some found
  have sound := built.sound sound
  have good : WellFormed y.rr := sound.wellFormed y (mem_append_left _ (mem_of_getElem? there))
  exact ⟨there, (itemCompare_iff good (sound.wellFormed x (by simp))).mp same⟩

theorem Built.get_none (built : Built s added) (sound : Sound (added ++ [x])) (missing : orderedSetGet s x = none) :
    itemClass x ∉ s.items.map itemClass := by
  have sound := built.sound sound
  have goodX : WellFormed x.rr := sound.wellFormed x (by simp)
  have good : ∀ y ∈ s.items, WellFormed y.rr := fun y mem => sound.wellFormed y (mem_append_left _ mem)
  have apart := HashSet.find_eq_none built.placed (fun y mem same =>
    sound.hash_alike (mem_append_left _ mem) (by simp) ((itemCompare_iff (good y mem) goodX).mp same)) missing
  intro mem
  obtain ⟨y, there, same⟩ := mem_map.mp mem
  have := (itemCompare_iff (good y there) goodX).mpr same
  rw [apart y there] at this
  cases this

theorem Built.insert (built : Built s added) (sound : Sound (added ++ [x])) (missing : orderedSetGet s x = none) :
    Built (s.insert dnsAnswerItemHashFunc x) (added ++ [x]) where
  placed := built.placed.insert
  condenses := by
    rw [HashSet.items_insert]
    exact built.condenses.add (built.get_none sound missing)
  among := by
    rw [HashSet.items_insert]
    exact (built.among.append_right [x]).append (fun item mem => ⟨item, mem_append_right added mem, rfl, rfl⟩)

theorem joinItems_cases : ((joinItems y x).rr = x.rr ∨ (joinItems y x).rr = y.rr) ∧ (joinItems y x).ifindex = y.ifindex := by
  unfold joinItems
  split <;> simp

theorem itemValue_joinItems : itemValue (joinItems y x) = joinValues (itemValue y) (itemValue x) := by
  unfold joinItems itemValue joinValues
  split
  · rename_i larger
    have := UInt32.lt_iff_toNat_lt.mp larger
    simp [Nat.max_eq_right this.le]
  · rename_i smaller
    have := UInt32.le_iff_toNat_le.mp (UInt32.not_lt.mp smaller)
    simp [Nat.max_eq_left this]

theorem Built.join (built : Built s added) (sound : Sound (added ++ [x])) (found : orderedSetGet s x = some (i, y)) :
    Built (s.replace i (joinItems y x)) (added ++ [x]) := by
  obtain ⟨there, same⟩ := built.get_some sound found
  obtain ⟨ifindex, essence⟩ := Prod.mk.inj same
  obtain ⟨record, index⟩ := @joinItems_cases x y
  have memY : y ∈ s.items := mem_of_getElem? there
  have kept : itemClass (joinItems y x) = itemClass x := by
    rw [itemClass, itemClass, index, ifindex]
    rcases record with record | record
    · rw [record]
    · rw [record, essence]
  have among : Among (s.items ++ [joinItems y x]) (added ++ [x]) := by
    refine (built.among.append_right [x]).append ?_
    intro item mem
    rw [mem_singleton.mp mem]
    rcases record with record | record
    · exact ⟨x, by simp, record, index.trans ifindex⟩
    · obtain ⟨w, memW, rr, ifindexW⟩ := built.among y memY
      exact ⟨w, mem_append_left _ memW, record.trans rr, index.trans ifindexW⟩
  have alike : dnsAnswerItemHashFunc (joinItems y x) = dnsAnswerItemHashFunc y :=
    (sound.among among).hash_alike (by simp) (mem_append_left _ memY) (kept.trans same.symm)
  refine ⟨built.placed.replace there alike, ?_, ?_⟩
  · rw [HashSet.items_replace]
    exact built.condenses.join there same kept itemValue_joinItems
  · rw [HashSet.items_replace]
    intro item mem
    apply among
    rcases mem_or_eq_of_mem_set mem with mem | rfl
    · exact mem_append_left _ mem
    · simp

theorem Built.moveToEnd (built : Built s added) (there : s.items[i]? = some y) (moved : moveToEnd s i y = .ok s') :
    Built s' added := by
  unfold Resolve.moveToEnd at moved
  split at moved
  · cases moved
  · split at moved
    · cases moved
    · split at moved
      · cases moved
      · rename_i put
        cases moved
        unfold orderedSetPut at put
        split at put
        · cases put
        · cases put
          have perm : (s.items.eraseIdx i ++ [y]).Perm s.items := by
            obtain ⟨inside, rfl⟩ := List.getElem?_eq_some_iff.mp there
            exact (perm_append_singleton _ _).trans (getElem_cons_eraseIdx_perm inside)
          refine ⟨built.placed.removeAt.insert, ?_, ?_⟩
          · rw [HashSet.items_insert, HashSet.items_removeAt]
            exact built.condenses.perm perm
          · rw [HashSet.items_insert, HashSet.items_removeAt]
            intro item mem
            exact built.among item (perm.mem_iff.mp mem)

theorem Built.addRaw (built : Built a.items added) (sound : Sound (added ++ [x])) (run : dnsAnswerAddRaw a x = .ok a') :
    Built a'.items (added ++ [x]) := by
  unfold dnsAnswerAddRaw orderedSetPut at run
  split at run
  · cases run
  · cases found : orderedSetGet a.items x with
    | some place =>
      rw [found] at run
      cases run
    | none =>
      rw [found] at run
      cases run
      exact built.insert sound found

/-- One call of `dns_answer_add()`. -/
theorem Built.addItem (built : Built a.items added) (sound : Sound (added ++ [x])) (run : dnsAnswerAdd a x = .ok a') :
    Built a'.items (added ++ [x]) := by
  unfold dnsAnswerAdd at run
  split at run
  · cases run
  · cases found : orderedSetGet a.items x with
    | none =>
      rw [found] at run
      exact built.addRaw sound run
    | some place =>
      obtain ⟨i, y⟩ := place
      rw [found] at run
      simp only at run
      split at run
      · cases run
      · have joined := built.join sound found
        have inside : i < a.items.items.length := (List.getElem?_eq_some_iff.mp (built.get_some sound found).1).1
        split at run
        · split at run
          · cases run
          · rename_i moved
            cases run
            exact joined.moveToEnd (by simp [inside]) moved
        · cases run
          exact joined

/-- A step that is right is right over a list of items. -/
theorem built_fold {step : DnsAnswer → DnsAnswerItem → Except AnswerStop DnsAnswer}
    (right : ∀ {a a' : DnsAnswer} {x : DnsAnswerItem} {added : List DnsAnswerItem}, Built a.items added →
      Sound (added ++ [x]) → step a x = .ok a' → Built a'.items (added ++ [x]))
    {items : List DnsAnswerItem} (built : Built a.items added) (sound : Sound (added ++ items))
    (run : items.foldlM step a = .ok a') : Built a'.items (added ++ items) := by
  induction items generalizing a added with
  | nil =>
    cases run
    simpa using built
  | cons x items ih =>
    obtain ⟨next, first, run⟩ := except_bind_eq_ok.mp run
    have split : added ++ x :: items = added ++ [x] ++ items := by simp
    rw [split] at sound ⊢
    have part : Among (added ++ [x]) (added ++ [x] ++ items) := (among_refl _).append_right items
    exact ih (right built (sound.among part) first) sound run

end Step

/-! ## Answers that are built -/

/-- A record that was parsed. -/
def Parsed (rr : DnsResourceRecord) : Prop :=
  ∃ msg o cacheFlush r, dnsPacketReadRr msg o = .ok (rr, cacheFlush) r

/-- The answers that any calls build, with all that was added to them.  A call that fails leaves an
answer as it is. -/
inductive Builds : Option DnsAnswer → List DnsAnswerItem → Prop
  | null : Builds none []
  | new (hashing : Hashing) : Builds (some (dnsAnswerNew hashing)) []
  | ref {a : DnsAnswer} {added : List DnsAnswerItem} (nRef : Nat) : Builds (some a) added →
      Builds (some { a with nRef }) added
  | add {a a' : DnsAnswer} {added : List DnsAnswerItem} {item : DnsAnswerItem} : Builds (some a) added →
      Parsed item.rr → dnsAnswerAdd a item = .ok a' → Builds (some a') (added ++ [item])
  | merge {a b k : Option DnsAnswer} {added others : List DnsAnswerItem} (hashing : Hashing) : Builds a added →
      Builds b others → dnsAnswerMerge hashing a b = .ok k → Builds k (added ++ others)
  -- an answer is merged with itself
  | same {a : Option DnsAnswer} {added : List DnsAnswerItem} : Builds a added →
      Builds (dnsAnswerRef a) (added ++ added)

/-- Records that `dns_resource_record_equal()` takes for equal, with the same interface index. -/
def sameRecord (x y : DnsAnswerItem) : Bool := x.ifindex = y.ifindex ∧ dnsResourceRecordEqual x.rr y.rr = .ok true

/-- `DNS_TYPE_HINFO` -/
def dnsTypeHinfo : UInt16 := 13

/-- HINFO records that are equal are spelled alike. -/
def HinfoSpelledAlike (added : List DnsAnswerItem) : Prop :=
  ∀ x ∈ added, ∀ y ∈ added, sameRecord x y = true → x.rr.key.type = dnsTypeHinfo → x.rr.hinfo = y.rr.hinfo

/-- One item for each class of equal records, with the largest TTL and all flags. -/
structure OneForEach (items added : List DnsAnswerItem) : Prop where
  one : ∀ x ∈ added, ∃ item, items.filter (sameRecord x) = [item] ∧
    (∃ y ∈ added, sameRecord x y = true ∧ item.rr.ttl = y.rr.ttl) ∧
    (∀ y ∈ added, sameRecord x y = true → y.rr.ttl ≤ item.rr.ttl) ∧
    item.flags = (added.filter (sameRecord x)).foldr (fun y flags => y.flags ||| flags) 0
  only : ∀ item ∈ items, ∃ x ∈ added, sameRecord x item = true

theorem Builds.parsed {a : Option DnsAnswer} {added : List DnsAnswerItem} (builds : Builds a added) :
    ∀ x ∈ added, WellFormed x.rr := by
  induction builds with
  | null => simp
  | new hashing => simp
  | ref nRef _ ih => exact ih
  | add _ parsed _ ih =>
    intro x mem
    rcases mem_append.mp mem with mem | mem
    · exact ih x mem
    · obtain rfl := mem_singleton.mp mem
      obtain ⟨msg, o, cacheFlush, r, read⟩ := parsed
      exact wellFormed_of_read read
  | merge hashing _ _ _ ihA ihB =>
    intro x mem
    rcases mem_append.mp mem with mem | mem
    · exact ihA x mem
    · exact ihB x mem
  | same _ ih =>
    intro x mem
    rcases mem_append.mp mem with mem | mem <;> exact ih x mem

theorem sameRecord_iff {x y : DnsAnswerItem} (goodX : WellFormed x.rr) (goodY : WellFormed y.rr) :
    sameRecord x y = true ↔ itemClass x = itemClass y := by
  simp [sameRecord, itemClass, recordEqual_iff goodX goodY]

variable {rr : DnsResourceRecord} {added items : List DnsAnswerItem} (hashing : Hashing)

theorem type_of_hinfo (hinfo : payloadKind rr = .hinfo) : rr.key.type = dnsTypeHinfo := by
  unfold payloadKind at hinfo
  split at hinfo
  · cases hinfo
  · unfold rdataKind at hinfo
    split at hinfo <;> cases hinfo
    rename_i number
    exact UInt16.toNat_inj.mp number

theorem sound_of_spelled {a : Option DnsAnswer} (builds : Builds a added) (spelled : HinfoSpelledAlike added) :
    Sound added where
  wellFormed := builds.parsed
  spelled x memX y memY same hinfo :=
    spelled x memX y memY ((sameRecord_iff (builds.parsed x memX) (builds.parsed y memY)).mpr same) (type_of_hinfo hinfo)

theorem built_empty : Built (dnsAnswerNew hashing).items [] where
  placed e mem := by cases mem
  condenses := .nil
  among x mem := by cases mem

/-- `Built` for answers that may be `NULL`. -/
def BuiltAnswer : Option DnsAnswer → List DnsAnswerItem → Prop
  | none, added => added = []
  | some a, added => Built a.items added

section Merge

variable {a b k : Option DnsAnswer} {added others : List DnsAnswerItem}

theorem BuiltAnswer.ref (built : BuiltAnswer a added) : BuiltAnswer (dnsAnswerRef a) added := by
  cases a <;> exact built

theorem BuiltAnswer.condenses (built : BuiltAnswer a added) :
    Condenses itemClass itemValue joinValues (answerItems a) added := by
  cases a with
  | none =>
    obtain rfl : added = [] := built
    exact .nil
  | some a => exact Built.condenses built

theorem BuiltAnswer.among (built : BuiltAnswer a added) : Among (answerItems a) added := by
  cases a with
  | none =>
    intro x mem
    cases mem
  | some a => exact Built.among built

theorem BuiltAnswer.eq_nil (built : BuiltAnswer a added) (empty : (answerItems a).length = 0) : added = [] := by
  have holds := built.condenses
  rw [length_eq_zero_iff.mp empty] at holds
  cases added with
  | nil => rfl
  | cons x l =>
    obtain ⟨item, single, _⟩ := holds.only mem_cons_self
    cases single

/-- The merge of two answers holds what was added to both. -/
theorem BuiltAnswer.merge {hashing : Hashing} (builtA : BuiltAnswer a added) (builtB : BuiltAnswer b others)
    (sound : Sound (added ++ others)) (run : dnsAnswerMerge hashing a b = .ok k) : BuiltAnswer k (added ++ others) := by
  have amongA : Among added (added ++ others) := (among_refl added).append_right others
  have amongB : Among others (added ++ others) := fun x mem => ⟨x, mem_append_right added mem, rfl, rfl⟩
  unfold dnsAnswerMerge at run
  split at run
  · rename_i empty
    cases run
    obtain rfl := builtA.eq_nil empty
    exact builtB.ref
  · split at run
    · rename_i empty
      cases run
      obtain rfl := builtB.eq_nil empty
      rw [append_nil]
      exact builtA.ref
    · obtain ⟨copy, copied, run⟩ := except_bind_eq_ok.mp run
      obtain ⟨whole, rest, run⟩ := except_bind_eq_ok.mp run
      cases run
      have first : Built copy.items ([] ++ answerItems a) :=
        built_fold Built.addRaw (built_empty hashing) ((sound.among amongA).among builtA.among) copied
      have first : Built copy.items added :=
        ⟨first.placed, first.condenses.trans_right builtA.condenses, Among.trans first.among builtA.among⟩
      have items : Among (added ++ answerItems b) (added ++ others) := amongA.append (builtB.among.trans amongB)
      have second : Built whole.items (added ++ answerItems b) :=
        built_fold Built.addItem first (sound.among items) rest
      exact ⟨second.placed, second.condenses.trans_right builtB.condenses, second.among.trans items⟩

/-- Merging an answer with itself changes nothing. -/
theorem tally_twice (c : Int32 × DnsResourceRecord) (added : List DnsAnswerItem) :
    tally itemClass itemValue joinValues c (added ++ added) = tally itemClass itemValue joinValues c added := by
  rw [tally_append]
  cases tally itemClass itemValue joinValues c added with
  | none => rfl
  | some v => simp [joinValues]

theorem BuiltAnswer.same (built : BuiltAnswer a added) : BuiltAnswer (dnsAnswerRef a) (added ++ added) := by
  cases a with
  | none =>
    obtain rfl : added = [] := built
    rfl
  | some a =>
    refine ⟨built.placed, ⟨built.condenses.unique, fun c => ?_⟩, built.among.append_right added⟩
    exact (built.condenses.tallies c).trans (tally_twice c added).symm

theorem Builds.built (builds : Builds a added) (sound : Sound added) : BuiltAnswer a added := by
  induction builds with
  | null => rfl
  | new hashing => exact built_empty hashing
  | ref nRef _ ih => exact ih sound
  | @add a a' added item _ _ run ih =>
    have built : Built a.items added := ih (sound.among ((among_refl added).append_right [item]))
    exact built.addItem sound run
  | @merge a b k added others hashing _ _ run ihA ihB =>
    have builtA := ihA (sound.among ((among_refl added).append_right others))
    have builtB := ihB (sound.among fun x mem => ⟨x, mem_append_right added mem, rfl, rfl⟩)
    exact builtA.merge builtB sound run
  | @same a added _ ih => exact (ih (sound.among ((among_refl added).append_right added))).same

end Merge

/-- What the tally of a class says of the records in it. -/
theorem tally_eq_some {c : Int32 × DnsResourceRecord} {ttl : Nat} {flags : UInt32}
    (total : tally itemClass itemValue joinValues c added = some (ttl, flags)) :
    (∃ y ∈ added, itemClass y = c ∧ ttl = y.rr.ttl.toNat) ∧ (∀ y ∈ added, itemClass y = c → y.rr.ttl.toNat ≤ ttl) ∧
      flags = (added.filter (itemClass · = c)).foldr (fun y flags => y.flags ||| flags) 0 := by
  induction added generalizing ttl flags with
  | nil => cases total
  | cons x l ih =>
    rw [tally] at total
    by_cases here : itemClass x = c
    · rw [if_pos here] at total
      cases rest : tally itemClass itemValue joinValues c l with
      | none =>
        have missing : ∀ y ∈ l, itemClass y ≠ c := by
          intro y mem same
          exact tally_eq_none_iff.mp rest (same ▸ mem_map_of_mem mem)
        have none : l.filter (itemClass · = c) = [] := by simpa using missing
        rw [rest] at total
        cases total
        exact ⟨⟨x, mem_cons_self, here, rfl⟩,
          forall_mem_cons.mpr ⟨fun _ => le_rfl, fun y mem same => absurd same (missing y mem)⟩, by simp [here, none]⟩
      | some v =>
        obtain ⟨ttl', flags'⟩ := v
        obtain ⟨⟨y, memY, classY, ttlY⟩, most, all⟩ := ih rest
        rw [rest] at total
        cases total
        refine ⟨?_, ?_, by simp [here, all, itemValue]⟩
        · rcases le_total x.rr.ttl.toNat ttl' with le | le
          · exact ⟨y, mem_cons_of_mem x memY, classY, (max_eq_right le).trans ttlY⟩
          · exact ⟨x, mem_cons_self, here, max_eq_left le⟩
        · exact forall_mem_cons.mpr ⟨fun _ => le_max_left _ _,
            fun z mem same => (most z mem same).trans (le_max_right _ _)⟩
    · rw [if_neg here] at total
      obtain ⟨⟨y, memY, facts⟩, most, all⟩ := ih total
      refine ⟨⟨y, mem_cons_of_mem x memY, facts⟩, ?_, by simpa [here] using all⟩
      intro z mem same
      rcases mem_cons.mp mem with rfl | mem
      · exact absurd same here
      · exact most z mem same

/-- Whatever is added to answers, and however they are merged: the result has one item for each class
of equal records, with the largest TTL and all flags, if equal HINFO records are spelled alike. -/
theorem answer_condenses {a : Option DnsAnswer} {added : List DnsAnswerItem} (builds : Builds a added)
    (spelled : HinfoSpelledAlike added) : OneForEach (answerItems a) added := by
  have sound := sound_of_spelled builds spelled
  have built := builds.built sound
  have good : ∀ x ∈ answerItems a, WellFormed x.rr := (sound.among built.among).wellFormed
  constructor
  · intro x mem
    obtain ⟨item, single, total⟩ := built.condenses.only mem
    have classes : ∀ l : List DnsAnswerItem, (∀ y ∈ l, WellFormed y.rr) →
        l.filter (sameRecord x) = l.filter (itemClass · = itemClass x) := by
      intro l good
      apply filter_congr
      intro y memY
      rw [Bool.eq_iff_iff, sameRecord_iff (builds.parsed x mem) (good y memY), decide_eq_true_iff, eq_comm]
    obtain ⟨⟨y, memY, classY, ttl⟩, most, flags⟩ := tally_eq_some total
    refine ⟨item, (classes _ good).trans single, ?_, ?_, ?_⟩
    · exact ⟨y, memY, (sameRecord_iff (builds.parsed x mem) (builds.parsed y memY)).mpr classY.symm,
        UInt32.toNat_inj.mp ttl⟩
    · intro z memZ same
      have classZ := (sameRecord_iff (builds.parsed x mem) (builds.parsed z memZ)).mp same
      exact UInt32.le_iff_toNat_le.mpr (most z memZ classZ.symm)
    · rwa [classes added builds.parsed]
  · intro item mem
    obtain ⟨x, memX, same⟩ := built.condenses.origin mem
    exact ⟨x, memX, (sameRecord_iff (builds.parsed x memX) (good item mem)).mpr same⟩

theorem Builds.fold {start a : DnsAnswer} (builds : Builds (some start) added) (parsed : ∀ x ∈ items, Parsed x.rr)
    (run : items.foldlM dnsAnswerAdd start = .ok a) : Builds (some a) (added ++ items) := by
  induction items generalizing start added with
  | nil =>
    cases run
    simpa using builds
  | cons x items ih =>
    obtain ⟨next, first, run⟩ := except_bind_eq_ok.mp run
    have := ih (.add builds (parsed x mem_cons_self) first) (fun y mem => parsed y (mem_cons_of_mem x mem)) run
    simpa using this

theorem builds_of_fold (contents : List DnsAnswerItem) (parsed : ∀ x ∈ items, Parsed x.rr)
    (run : (do return (← items.foldlM dnsAnswerAdd (dnsAnswerNew hashing)).items.items) = Except.ok contents) :
    ∃ a, Builds (some a) items ∧ answerItems (some a) = contents := by
  obtain ⟨a, added, done⟩ := except_bind_eq_ok.mp run
  cases done
  exact ⟨a, by exact Builds.fold (.new hashing) parsed added, rfl⟩

/-- A set whose bucket is the sum of the bytes. -/
def sumHashing : Hashing where
  bucket _ bytes := (bytes.map UInt8.toNat).sum
  resizes _ _ := false

/-- HINFO records of the root domain in a packet: "a" or "A", and "b", with TTL 5 or 6. -/
def hinfoMessage (cpu ttl : UInt8) : DnsMessage where
  protocol := .dns
  bytes := List.replicate 12 0 ++ [0, 0, 13, 0, 1, 0, 0, 0, ttl, 0, 4, 1, cpu, 1, 98]

def hinfoItem (cpu ttl : UInt8) (flags : UInt32) : DnsAnswerItem where
  rr := { key := ⟨1, dnsTypeHinfo, []⟩, ttl := UInt32.ofNat ttl.toNat, hinfo := ⟨[cpu], [98]⟩ }
  ifindex := 1
  flags := flags

theorem parsed_of_returns (msg : DnsMessage) (o : Nat)
    (read : returns (dnsPacketReadRr msg o) (fun found _ => found.1 = rr) = true) : Parsed rr := by
  obtain ⟨⟨rr', cacheFlush⟩, r, run, same⟩ := returns_iff.mp read
  obtain rfl : rr' = rr := of_decide_eq_true same
  exact ⟨msg, o, cacheFlush, r, run⟩

theorem answer_condenses_twice : ∃ a, Builds (some a) [hinfoItem 97 5 1, hinfoItem 97 6 2] ∧
    answerItems (some a) = [hinfoItem 97 6 3] ∧
    OneForEach (answerItems (some a)) [hinfoItem 97 5 1, hinfoItem 97 6 2] := by
  have parsed : ∀ x ∈ [hinfoItem 97 5 1, hinfoItem 97 6 2], Parsed x.rr := by
    intro x mem
    rcases mem_cons.mp mem with rfl | mem
    · exact parsed_of_returns (hinfoMessage 97 5) 12 (by decide +kernel)
    · obtain rfl := mem_singleton.mp mem
      exact parsed_of_returns (hinfoMessage 97 6) 12 (by decide +kernel)
  obtain ⟨a, builds, contents⟩ := builds_of_fold sumHashing [hinfoItem 97 6 3] parsed (by decide +kernel)
  refine ⟨a, builds, contents, answer_condenses builds ?_⟩
  unfold HinfoSpelledAlike
  decide +kernel

/-- HINFO records that differ in case are equal, but both may be in an answer. -/
theorem hinfo_twice : ∃ a, Builds (some a) [hinfoItem 97 5 1, hinfoItem 65 5 1] ∧
    sameRecord (hinfoItem 97 5 1) (hinfoItem 65 5 1) = true ∧
    answerItems (some a) = [hinfoItem 97 5 1, hinfoItem 65 5 1] ∧
    ¬ OneForEach (answerItems (some a)) [hinfoItem 97 5 1, hinfoItem 65 5 1] := by
  have parsed : ∀ x ∈ [hinfoItem 97 5 1, hinfoItem 65 5 1], Parsed x.rr := by
    intro x mem
    rcases mem_cons.mp mem with rfl | mem
    · exact parsed_of_returns (hinfoMessage 97 5) 12 (by decide +kernel)
    · obtain rfl := mem_singleton.mp mem
      exact parsed_of_returns (hinfoMessage 65 5) 12 (by decide +kernel)
  obtain ⟨a, builds, contents⟩ := builds_of_fold sumHashing [hinfoItem 97 5 1, hinfoItem 65 5 1] parsed
    (by decide +kernel)
  refine ⟨a, builds, by decide +kernel, contents, ?_⟩
  intro holds
  obtain ⟨item, single, _⟩ := holds.one _ mem_cons_self
  rw [contents] at single
  have two : ([hinfoItem 97 5 1, hinfoItem 65 5 1].filter (sameRecord (hinfoItem 97 5 1))).length = 2 := by
    decide +kernel
  rw [single] at two
  cases two

end SystemdPort.Resolve
