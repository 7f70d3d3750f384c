/-
# Resolve.DnsNames — names that are appended are found again

The names that a packet records for compression are those of labels in it: where one is recorded,
a reader finds a name that is equal to it (`Tracked`).  Every call that appends to a packet keeps
this, so a pointer is written only to a label of an earlier name, and leads to equal labels.

The length of the data of a record is written again when the data is complete, and so is the
number of records in the header.  Those bytes are not part of what is known of the packet.

Names are compared by their labels.  Two texts that `dns_label_unescape()` refuses may be equal for
the hash table without being the same name, and then a name that cannot be read is written.
-/
import SystemdPort.Resolve.DnsNameAt
import SystemdPort.Resolve.DnsPacketRollback

namespace SystemdPort.Resolve

set_option autoImplicit false

open Basic Lib Lib.Cells Lib.Exec Shared.Dns List

variable {d name : CString} {p₁ : DnsPacket} {ls : List CString}

/-! ## Bytes that are appended -/

/-- `q` is `p` with the bytes `d` behind it. -/
structure Appended (d : CString) (p q : DnsPacket) : Prop where
  bytes : q.bytes = p.bytes ++ d
  size : q.size = p.size + d.length
  buffer : q.size ≤ q.data.length
  names : q.names = p.names
  refuseCompression : q.refuseCompression = p.refuseCompression

variable {p : DnsPacket}

theorem bytes_length (buffer : p.size ≤ p.data.length) : p.bytes.length = p.size := by
  unfold DnsPacket.bytes
  rw [length_take]
  omega

theorem Appended.refl (buffer : p.size ≤ p.data.length) : Appended [] p p :=
  ⟨by simp, rfl, buffer, rfl, rfl⟩

theorem Appended.trans {q r : DnsPacket} {e : CString} (first : Appended d p q) (second : Appended e q r) :
    Appended (d ++ e) p r where
  bytes := by rw [second.bytes, first.bytes, append_assoc]
  size := by rw [second.size, first.size, length_append, Nat.add_assoc]
  buffer := second.buffer
  names := second.names.trans first.names
  refuseCompression := second.refuseCompression.trans first.refuseCompression

section Append

variable (env : Env)

variable {p q : DnsPacket} {n : Nat} {m m' : Cells UInt8} {log log' : List (Nat × CString)} {l : CString}

theorem extend_appended (buffer : p.size ≤ p.data.length) (run : dnsPacketExtend env d p = .ok n q) :
    n = p.size ∧ Appended d p q := by
  obtain ⟨rfl, a, k, rfl, _⟩ := extend_ok env run
  have whole : (p.data.take p.size).length = p.size := bytes_length buffer
  refine ⟨rfl, ⟨?_, rfl, ?_, rfl, rfl⟩⟩
  · show (p.data.take p.size ++ d ++ p.data.drop (p.size + d.length)).take (p.size + d.length) = p.data.take p.size ++ d
    apply take_left'
    rw [length_append, whole]
  · show p.size + d.length ≤ (p.data.take p.size ++ d ++ p.data.drop (p.size + d.length)).length
    rw [length_append, length_append]
    omega

/-! ## Types -/

/-- What a window is written as. -/
def windowBytes (filled : Bool) (window entry : Nat) (bitmaps : CString) : CString :=
  if filled then UInt8.ofNat window :: UInt8.ofNat (entry / 8 + 1) :: bitmaps.take (entry / 8 + 1) else []

/-- What `dns_packet_append_types()` appends. -/
def typesBytes : Bitmap → (window entry : Nat) → (bitmaps : CString) → CString
  | [], window, entry, bitmaps => windowBytes (bitmaps.getD (entry / 8) 0 ≠ 0) window entry bitmaps
  | n :: types, window, entry, bitmaps =>
    let filled : Bool := n / 256 ≠ window ∧ bitmaps.getD (entry / 8) 0 ≠ 0
    let bitmaps' := if filled then List.replicate 32 0 else bitmaps
    windowBytes filled window entry bitmaps ++
      typesBytes types (n / 256) (n % 256)
        (bitmaps'.set (n % 256 / 8) (bitmaps'.getD (n % 256 / 8) 0 ||| UInt8.ofNat (2 ^ (7 - n % 8))))

theorem window_appended {filled : Bool} {window entry : Nat} {bitmaps : CString} (buffer : p.size ≤ p.data.length)
    (run : appendFilledWindow env filled window entry bitmaps p = .ok ⟨⟩ q) :
    Appended (windowBytes filled window entry bitmaps) p q := by
  cases filled with
  | false =>
    cases run
    exact .refl buffer
  | true =>
    replace run : dnsPacketAppendTypeWindow env window (entry / 8 + 1) bitmaps p = .ok ⟨⟩ q := run
    rw [dnsPacketAppendTypeWindow, get_bind, orTruncate_ok] at run
    obtain ⟨_, p₁, first, run⟩ := bind_eq_ok.mp run
    obtain ⟨_, p₂, second, run⟩ := bind_eq_ok.mp run
    obtain ⟨_, p₃, third, run⟩ := bind_eq_ok.mp run
    cases run
    have appended₁ := (extend_appended env buffer first).2
    have appended₂ := (extend_appended env appended₁.buffer second).2
    have appended₃ := (extend_appended env appended₂.buffer third).2
    exact (appended₁.trans appended₂).trans appended₃

theorem types_appended {types : Bitmap} (buffer : p.size ≤ p.data.length)
    (run : dnsPacketAppendTypes env types p = .ok ⟨⟩ q) :
    Appended (typesBytes types 0 0 (List.replicate 32 0)) p q := by
  rw [dnsPacketAppendTypes, get_bind, orTruncate_ok] at run
  -- the same from any state of the loop
  suffices loop : ∀ {types : Bitmap} {window entry : Nat} {bitmaps : CString} {p : DnsPacket},
      p.size ≤ p.data.length → appendTypesLoop env types window entry bitmaps p = .ok ⟨⟩ q →
      Appended (typesBytes types window entry bitmaps) p q from loop buffer run
  intro types
  induction types with
  | nil =>
    intro window entry bitmaps p buffer run
    exact window_appended env buffer run
  | cons n types ih =>
    intro window entry bitmaps p buffer run
    obtain ⟨_, p₁, first, run⟩ := bind_eq_ok.mp run
    have appended := window_appended env buffer first
    exact appended.trans (ih appended.buffer run)

/-! ## What is known of the names in a packet -/

/-- At `o` a reader finds a name that is equal to `name`. -/
def Spells (m : Cells UInt8) (b o : Nat) (name : CString) (offs : List Nat) (ptr : Option Nat) (e : Nat) : Prop :=
  ∃ ls ls', Labels name ls ∧ ls'.map lower = ls.map lower ∧ NameAt m b o ls' offs ptr e

theorem Spells.mono {b o e : Nat} {offs : List Nat} {ptr : Option Nat} (spells : Spells m b o name offs ptr e)
    (le : Le m m') : Spells m' b o name offs ptr e := by
  obtain ⟨ls, ls', labels, same, at_⟩ := spells
  exact ⟨ls, ls', labels, same, at_.mono le⟩

/-- One of the names in `log` that begin before `s` has a label at `n`. -/
def Boundary (m : Cells UInt8) (log : List (Nat × CString)) (s n : Nat) : Prop :=
  ∃ v ∈ log, v.1 < s ∧ ∃ ls offs ptr e, NameAt m v.1 v.1 ls offs ptr e ∧ n ∈ offs

theorem Boundary.mono {s s' : Nat} (boundary : Boundary m log s n) (le : Le m m') (more : log ⊆ log') (later : s ≤ s') :
    Boundary m' log' s' n := by
  obtain ⟨v, mem, before, ls, offs, ptr, e, at_, here⟩ := boundary
  exact ⟨v, more mem, by omega, ls, offs, ptr, e, at_.mono le, here⟩

/-- What is known of a name that was recorded. -/
structure Recorded (m : Cells UInt8) (log : List (Nat × CString)) (size : Nat) (entry : CString × Nat) : Prop where
  low : dnsPacketHeaderSize ≤ entry.2
  high : entry.2 < size
  spells : ∃ offs ptr e, Spells m entry.2 entry.2 entry.1 offs ptr e
  boundary : Boundary m log size entry.2

/-- What is known of a name that was appended. -/
structure Written (m : Cells UInt8) (log : List (Nat × CString)) (p : DnsPacket) (w : Nat × CString) : Prop where
  before : w.1 < p.size
  spells : ∃ offs ptr e, Spells m w.1 w.1 w.2 offs ptr e ∧ (p.refuseCompression = true → ptr = none) ∧
    ∀ t, ptr = some t → Boundary m log w.1 t

theorem Recorded.mono {size size' : Nat} {entry : CString × Nat} (recorded : Recorded m log size entry) (le : Le m m')
    (more : log ⊆ log') (later : size ≤ size') : Recorded m' log' size' entry := by
  obtain ⟨low, high, ⟨offs, ptr, e, spells⟩, boundary⟩ := recorded
  exact ⟨low, by omega, ⟨offs, ptr, e, spells.mono le⟩, boundary.mono le more later⟩

theorem Written.mono {w : Nat × CString} (written : Written m log p w) (le : Le m m') (more : log ⊆ log')
    (size : p.size ≤ q.size) (refuse : q.refuseCompression = p.refuseCompression) : Written m' log' q w := by
  obtain ⟨before, offs, ptr, e, spells, plain, back⟩ := written
  refine ⟨by omega, offs, ptr, e, spells.mono le, by rwa [refuse], ?_⟩
  intro t points
  exact (back t points).mono le more le_rfl

/-- The names `log` were appended to a packet, of which the bytes `m` are known. -/
structure Tracked (m : Cells UInt8) (log : List (Nat × CString)) (p : DnsPacket) : Prop where
  header : dnsPacketHeaderSize ≤ p.size
  buffer : p.size ≤ p.data.length
  shows : Shows m p.bytes
  clear : ∀ i, i < dnsPacketHeaderSize → m i = none
  recorded : ∀ entry ∈ p.names, Recorded m log p.size entry
  written : ∀ w ∈ log, Written m log p w

variable {m m' : Cells UInt8} {log : List (Nat × CString)} {p q : DnsPacket}

theorem Tracked.le (tracked : Tracked m log p) (agree : Agree p.size m m') : Le m m' :=
  agree.le tracked.shows (bytes_length tracked.buffer).le

theorem Tracked.more (tracked : Tracked m log p) (le : Le m m') (clear : ∀ i, i < dnsPacketHeaderSize → m' i = none)
    (shows : Shows m' q.bytes) (buffer : q.size ≤ q.data.length) (size : p.size ≤ q.size) (names : q.names = p.names)
    (refuse : q.refuseCompression = p.refuseCompression) : Tracked m' log q where
  header := tracked.header.trans size
  buffer := buffer
  shows := shows
  clear := clear
  recorded := by
    intro entry mem
    rw [names] at mem
    exact (tracked.recorded entry mem).mono le (List.Subset.refl log) size
  written := by
    intro w mem
    exact (tracked.written w mem).mono le (List.Subset.refl log) size refuse

theorem Tracked.clear_of_agree (tracked : Tracked m log p) (agree : Agree p.size m m') :
    ∀ i, i < dnsPacketHeaderSize → m' i = none :=
  fun i low => (agree i (lt_of_lt_of_le low tracked.header)).trans (tracked.clear i low)

theorem Appended.le_size (appended : Appended d p q) : p.size ≤ q.size := by
  rw [appended.size]
  exact Nat.le_add_right _ _

/-- Bytes that are appended are known from then on. -/
theorem Appended.shows (appended : Appended d p q) (buffer : p.size ≤ p.data.length) (shows : Shows m p.bytes) :
    Shows (m.put p.size d) q.bytes := by
  rw [appended.bytes]
  exact shows.put (bytes_length buffer).symm

theorem Tracked.appended (tracked : Tracked m log p) (appended : Appended d p q) :
    Tracked (m.put p.size d) log q := by
  have agree := put_agree m p.size d
  exact tracked.more (tracked.le agree) (tracked.clear_of_agree agree) (appended.shows tracked.buffer tracked.shows)
    appended.buffer appended.le_size appended.names appended.refuseCompression

/-- Bytes that will be written again are not part of what is known. -/
theorem Tracked.unknown (tracked : Tracked m log p) (appended : Appended d p q) : Tracked m log q :=
  tracked.more (.refl m) tracked.clear (by rw [appended.bytes]; exact tracked.shows.append d) appended.buffer
    appended.le_size appended.names appended.refuseCompression

/-! ## Appending a name -/

theorem hashmapGet_some {names : List (CString × Nat)} (found : hashmapGet env names name = some n) :
    ∃ k, (k, n) ∈ names ∧ dnsNameCompareFunc k name = 0 := by
  obtain ⟨⟨k, n'⟩, first, rfl⟩ := Option.map_eq_some_iff.mp found
  have matches_ := find?_some first
  exact ⟨k, mem_of_find?_eq_some first, (of_decide_eq_true matches_).2⟩

theorem pointer_written {t : Nat} (small : t < 0x4000) :
    be16 (0xC000 ||| UInt16.ofNat t).toNat = be16 (0xC000 + t) := by
  have value : (UInt16.ofNat t).toNat = t := UInt16.toNat_ofNat_of_lt' (by show t < 65536; omega)
  have sum : 0xC000 ||| t = 0xC000 + t := (Nat.two_pow_add_eq_or_of_lt (i := 14) small 3).symm
  rw [UInt16.toNat_or, value]
  show be16 (0xC000 ||| t) = _
  rw [sum]

/-- The end of a name was appended, from some label on; `s` is where the name begins, and `old`
are the names that were recorded before. -/
structure NameAdded (m m' : Cells UInt8) (s : Nat) (old : List (CString × Nat)) (allow : Bool) (ls : List CString)
    (p q : DnsPacket) (offs : List Nat) (ptr : Option Nat) : Prop where
  agree : Agree p.size m m'
  shows : Shows m' q.bytes
  buffer : q.size ≤ q.data.length
  refuse : q.refuseCompression = p.refuseCompression
  at_ : ∃ ls', ls'.map lower = ls.map lower ∧ NameAt m' s p.size ls' offs ptr q.size
  points : ∀ t, ptr = some t → allow = true ∧ ∃ k, (k, t) ∈ old
  names : ∃ added, q.names = p.names ++ added ∧
    ∀ entry ∈ added, entry.2 ∈ offs ∧ ∃ offs' ptr', Spells m' s entry.2 entry.1 offs' ptr' q.size

variable {s : Nat} {old pending : List (CString × Nat)} {allow canonicalCandidate ended : Bool}

theorem zero_added (labels : Labels name []) (buffer : p.size ≤ p.data.length) (shows : Shows m p.bytes)
    (run : appendLabels env name allow canonicalCandidate p = .ok ended p₁)
    (finish : if ended then q = p₁ else ∃ n, dnsPacketAppendUint8 env 0 p₁ = .ok n q) :
    NameAdded m (m.put p.size [0]) s old allow [] p q [] none := by
  rw [appendLabels_root (Labels.root_iff.mp labels)] at run
  cases run
  obtain ⟨n, zero⟩ := finish
  have appended := (extend_appended env buffer zero).2
  refine ⟨put_agree _ _ _, appended.shows buffer shows, appended.buffer, appended.refuseCompression,
    ⟨[], rfl, ?_⟩, by simp, [], by simp [appended.names], by simp⟩
  rw [appended.size]
  exact .root (put_hasAt _ _ _)

/-- A name that is recorded already ends with a pointer to it. -/
theorem pointer_added (labels : Labels name ls) (nonempty : ls ≠ []) (buffer : p.size ≤ p.data.length)
    (shows : Shows m p.bytes) (split : p.names = old ++ pending)
    (olds : ∀ entry ∈ old, dnsPacketHeaderSize ≤ entry.2 ∧ entry.2 < s ∧
      ∃ offs ptr e, Spells m entry.2 entry.2 entry.1 offs ptr e)
    (pendings : ∀ entry ∈ pending, ∃ lk, Labels entry.1 lk ∧ ls.length < lk.length)
    (found : 0 < recorded env p allow name ∧ recorded env p allow name < 0x4000)
    (run : appendLabels env name allow canonicalCandidate p = .ok ended p₁)
    (finish : if ended then q = p₁ else ∃ n, dnsPacketAppendUint8 env 0 p₁ = .ok n q) :
    ∃ m' offs ptr, NameAdded m m' s old allow ls p q offs ptr := by
  obtain ⟨l, ls, rfl⟩ := exists_cons_of_ne_nil nonempty
  rw [appendLabels_pointer (not_root_of_labels labels) found] at run
  obtain ⟨_, p₂, pointer, run⟩ := bind_eq_ok.mp run
  cases run
  obtain rfl : q = p₁ := finish
  generalize target : recorded env p allow name = t at found pointer
  have allowed : allow = true := by
    by_contra refused
    simp only [recorded, refused, if_false] at target
    omega
  have hit : hashmapGet env p.names name = some t := by
    simp only [recorded, allowed, if_true] at target
    cases got : hashmapGet env p.names name with
    | none =>
      rw [got] at target
      simp only [Option.getD_none] at target
      omega
    | some n => rw [← target, got, Option.getD_some]
  obtain ⟨k, mem, equal⟩ := hashmapGet_some env hit
  -- a name that was recorded for this one is longer than what is left of it
  have earlier : (k, t) ∈ old := by
    rw [split] at mem
    rcases mem_append.mp mem with mem | mem
    · exact mem
    · obtain ⟨lk, longer, more⟩ := pendings _ mem
      have same := congrArg List.length ((longer.compare_eq_zero labels).mp equal)
      simp only [length_map] at same
      omega
  obtain ⟨low, before, offs, ptr, e, lk, lk', recordedLabels, same, next⟩ := olds _ earlier
  have appended := (extend_appended env buffer pointer).2
  rw [pointer_written found.2] at appended
  have agree := put_agree m p.size (be16 (0xC000 + t))
  have le := agree.le shows (bytes_length buffer).le
  refine ⟨m.put p.size (be16 (0xC000 + t)), [], some t, agree, appended.shows buffer shows, appended.buffer,
    appended.refuseCompression, ⟨lk', ?_, ?_⟩, ?_, [], by simp [appended.names], by simp⟩
  · rw [same]
    exact (recordedLabels.compare_eq_zero labels).mp equal
  · rw [appended.size]
    exact .pointer low before found.2 (put_hasAt _ _ _) (next.mono le)
  · intro u points
    cases points
    exact ⟨allowed, k, earlier⟩

theorem lower_lower (l : CString) : lower (lower l) = lower l := by
  have byte := forall_byte (P := fun c => asciiTolower (asciiTolower c) = asciiTolower c) (by decide +kernel)
  simp only [lower, map_map]
  apply map_congr_left
  intro c _
  exact byte c

theorem label_appended (buffer : p.size ≤ p.data.length)
    (run : dnsPacketAppendLabel env l canonicalCandidate p = .ok n q) :
    n = p.size ∧ ∃ l', l'.length = l.length ∧ lower l' = lower l ∧ Appended (UInt8.ofNat l'.length :: l') p q := by
  rw [dnsPacketAppendLabel, require_bind_eq_ok] at run
  obtain ⟨_, run⟩ := run
  rw [get_bind] at run
  obtain ⟨place, appended⟩ := extend_appended env buffer run
  by_cases canonical : (p.canonicalForm && canonicalCandidate) = true
  · rw [if_pos canonical] at appended
    exact ⟨place, lower l, by simp [lower], lower_lower l, by simpa [lower] using appended⟩
  · rw [if_neg canonical] at appended
    exact ⟨place, l, rfl, rfl, appended⟩

/-- Recording a name changes the packet only in the names that it has. -/
theorem record_names (run : record env allow name n p = .ok ⟨⟩ q) :
    ∃ k added, q = { p with nAllocs := k, names := p.names ++ added } ∧ p.nAllocs ≤ k ∧
      (added = [] ∨ added = [(name, n)]) := by
  rcases record_cases env allow name n p with ⟨k, done, later, _⟩ | ⟨k, done, later, _⟩ | ⟨e, k, failed, _⟩
  · rw [done] at run
    cases run
    exact ⟨k, [], by simp, later, .inl rfl⟩
  · rw [done] at run
    cases run
    exact ⟨k, [(name, n)], rfl, later, .inr rfl⟩
  · rw [failed] at run
    cases run

/-- Appending what is left of a name, from any label on. -/
theorem labels_added (labels : Labels name ls) (buffer : p.size ≤ p.data.length) (shows : Shows m p.bytes)
    (split : p.names = old ++ pending) (olds : ∀ entry ∈ old, dnsPacketHeaderSize ≤ entry.2 ∧ entry.2 < s ∧
      ∃ offs ptr e, Spells m entry.2 entry.2 entry.1 offs ptr e)
    (pendings : ∀ entry ∈ pending, ∃ lk, Labels entry.1 lk ∧ ls.length < lk.length)
    (run : appendLabels env name allow canonicalCandidate p = .ok ended p₁)
    (finish : if ended then q = p₁ else ∃ n, dnsPacketAppendUint8 env 0 p₁ = .ok n q) :
    ∃ m' offs ptr, NameAdded m m' s old allow ls p q offs ptr := by
  induction labels generalizing m p pending with
  | root read => exact ⟨_, _, _, zero_added env (.root read) buffer shows run finish⟩
  | @cons name l rest ls read nonempty later ih =>
    have labels : Labels name (l :: ls) := .cons read nonempty later
    have root := not_root_of_labels labels
    by_cases found : 0 < recorded env p allow name ∧ recorded env p allow name < 0x4000
    · exact pointer_added env labels (by simp) buffer shows split olds pendings found run finish
    rw [appendLabels_label root found read] at run
    obtain ⟨n, p₂, label, run⟩ := bind_eq_ok.mp run
    obtain ⟨_, p₃, put, run⟩ := bind_eq_ok.mp run
    obtain ⟨rfl, l', length, same, appended⟩ := label_appended env buffer label
    obtain ⟨k, new, rfl, _, choice⟩ := record_names env put
    have agree := put_agree m p.size (UInt8.ofNat l'.length :: l')
    have le := agree.le shows (bytes_length buffer).le
    have shows₂ : Shows (m.put p.size (UInt8.ofNat l'.length :: l')) p₂.bytes := appended.shows buffer shows
    have split₂ : p₂.names ++ new = old ++ (pending ++ new) := by rw [appended.names, split, append_assoc]
    obtain ⟨m', offs, ptr, rest⟩ := ih (m := m.put p.size (UInt8.ofNat l'.length :: l'))
      (p := { p₂ with nAllocs := k, names := p₂.names ++ new }) appended.buffer shows₂ split₂
      (by
        intro entry mem
        obtain ⟨low, before, offs, ptr, e, spells⟩ := olds entry mem
        exact ⟨low, before, offs, ptr, e, spells.mono le⟩)
      (by
        intro entry mem
        rcases mem_append.mp mem with mem | mem
        · obtain ⟨lk, longer, more⟩ := pendings entry mem
          exact ⟨lk, longer, by simp only [length_cons] at more; omega⟩
        · rcases choice with rfl | rfl
          · cases mem
          · obtain rfl := mem_singleton.mp mem
            exact ⟨l :: ls, labels, Nat.lt_succ_self _⟩)
      run
    have size₂ : p₂.size = p.size + (1 + l'.length) := by
      rw [appended.size, length_cons, Nat.add_comm l'.length]
    have le' := rest.agree.le shows₂ (bytes_length appended.buffer).le
    obtain ⟨ls', sameRest, at_⟩ := rest.at_
    have here : NameAt m' s p.size (l' :: ls') (p.size :: offs) ptr q.size := by
      refine .label ?_ (length ▸ unescape_length read) ((put_hasAt m p.size _).mono le') (size₂ ▸ at_)
      rintro rfl
      exact nonempty (length_eq_zero_iff.mp length.symm)
    have sameLabels : (l' :: ls').map lower = (l :: ls).map lower := by
      rw [map_cons, map_cons, same, sameRest]
    refine ⟨m', p.size :: offs, ptr, agree.trans rest.agree appended.le_size, rest.shows, rest.buffer,
      rest.refuse.trans appended.refuseCompression, ⟨l' :: ls', sameLabels, here⟩, rest.points, ?_⟩
    obtain ⟨added, names, facts⟩ := rest.names
    refine ⟨new ++ added, ?_, ?_⟩
    · rw [names]
      rw [appended.names, append_assoc]
    · intro entry mem
      rcases mem_append.mp mem with mem | mem
      · rcases choice with rfl | rfl
        · cases mem
        · obtain rfl := mem_singleton.mp mem
          exact ⟨mem_cons_self, p.size :: offs, ptr, l :: ls, l' :: ls', labels, sameLabels, here⟩
      · obtain ⟨inside, spells⟩ := facts entry mem
        exact ⟨mem_cons_of_mem _ inside, spells⟩

/-- A name that is appended is found where it was appended. -/
theorem name_tracked {start : Nat} (tracked : Tracked m log p) (labels : Labels name ls)
    (run : dnsPacketAppendName env name allow canonicalCandidate p = .ok start q) :
    start = p.size ∧ ∃ m' offs ptr, Agree p.size m m' ∧ Tracked m' (log ++ [(p.size, name)]) q ∧
      Spells m' p.size p.size name offs ptr q.size ∧ (allow = false → ptr = none) := by
  rw [dnsPacketAppendName, get_bind] at run
  obtain ⟨ended, p₁, loop, run⟩ := bind_eq_ok.mp run
  rw [orTruncate_ok] at loop
  have finish : start = p.size ∧ if ended then q = p₁ else ∃ n, dnsPacketAppendUint8 env 0 p₁ = .ok n q := by
    cases ended with
    | true =>
      cases run
      exact ⟨rfl, rfl⟩
    | false =>
      obtain ⟨n, p₂, zero, run⟩ := bind_eq_ok.mp run
      cases run
      exact ⟨rfl, n, zero⟩
  refine ⟨finish.1, ?_⟩
  have olds : ∀ entry ∈ p.names, dnsPacketHeaderSize ≤ entry.2 ∧ entry.2 < p.size ∧
      ∃ offs ptr e, Spells m entry.2 entry.2 entry.1 offs ptr e := by
    intro entry mem
    have recorded := tracked.recorded entry mem
    exact ⟨recorded.low, recorded.high, recorded.spells⟩
  obtain ⟨m', offs, ptr, added⟩ := labels_added env labels tracked.buffer tracked.shows (append_nil _).symm olds
    (by simp) loop finish.2
  obtain ⟨ls', same, at_⟩ := added.at_
  have le := tracked.le added.agree
  have larger := at_.behind_gt
  have more : log ⊆ log ++ [(p.size, name)] := subset_append_left _ _
  have plain : (allow && !p.refuseCompression) = false → ptr = none := by
    intro refused
    cases points : ptr with
    | none => rfl
    | some t =>
      have := (added.points t points).1
      rw [refused] at this
      cases this
  refine ⟨m', offs, ptr, added.agree, ?_, ⟨ls, ls', labels, same, at_⟩, fun refused => plain (by simp [refused])⟩
  obtain ⟨new, names, facts⟩ := added.names
  refine ⟨tracked.header.trans larger.le, added.buffer, added.shows, tracked.clear_of_agree added.agree, ?_, ?_⟩
  · intro entry mem
    rw [names] at mem
    rcases mem_append.mp mem with mem | mem
    · exact (tracked.recorded entry mem).mono le more larger.le
    · obtain ⟨inside, offs', ptr', lk, lk', labels', same', at'⟩ := facts entry mem
      have later := at_.offset_ge _ inside
      refine ⟨tracked.header.trans later, at'.behind_gt, ⟨offs', ptr', q.size, lk, lk', labels', same', at'.raise later⟩, ?_⟩
      exact ⟨(p.size, name), by simp, larger, ls', offs, ptr, q.size, at_, inside⟩
  · intro w mem
    rcases mem_append.mp mem with mem | mem
    · exact (tracked.written w mem).mono le more larger.le added.refuse
    · obtain rfl := mem_singleton.mp mem
      refine ⟨larger, offs, ptr, q.size, ⟨ls, ls', labels, same, at_⟩, ?_, ?_⟩
      · intro refuse
        rw [added.refuse] at refuse
        exact plain (by simp [refuse])
      · intro t points
        obtain ⟨_, k, mem⟩ := added.points t points
        exact (tracked.recorded _ mem).boundary.mono le more le_rfl

end Append

end SystemdPort.Resolve
