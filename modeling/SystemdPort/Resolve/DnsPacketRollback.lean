/-
# Resolve.DnsPacketRollback — what a failed append leaves behind

An append only adds to a packet (`Grows`), also when it fails in the middle: the names that it
records are at offsets that were not in use before.  So cutting the packet back to its old size
takes back all of it, and the calls that go to `fail` leave size and names as they were.

`dns_packet_append_name()` does not go to `fail` for the zero byte behind the last label.  If just
that byte does not fit, the labels stay.
-/
import SystemdPort.Resolve.DnsRr
import SystemdPort.Shared.DnsDomainOrder

namespace SystemdPort.Resolve

set_option autoImplicit false

open Basic Lib.Exec Shared.Dns List

variable {allowCompression canonicalCandidate : Bool} {flags : DnsAnswerFlags} {p q : DnsPacket} {e : Errno}
  {n rdlengthOffset : Nat}

/-! ## Growing -/

/-- Recorded names are in the part of the packet that is in use. -/
def Bounded (p : DnsPacket) : Prop := ∀ entry ∈ p.names, entry.2 < p.size

/-- What no call changes, and the memory of the packet. -/
structure Keeps (p q : DnsPacket) : Prop where
  protocol : q.protocol = p.protocol
  maxSize : q.maxSize = p.maxSize
  allocated : q.allocated = p.allocated ∨ q.allocated ≤ dnsPacketSizeMax p
  nAllocs : p.nAllocs ≤ q.nAllocs

theorem Keeps.refl (p : DnsPacket) : Keeps p p := ⟨rfl, rfl, .inl rfl, le_rfl⟩

theorem Keeps.sizeMax (keeps : Keeps p q) : dnsPacketSizeMax q = dnsPacketSizeMax p := by
  unfold dnsPacketSizeMax
  rw [keeps.maxSize]

variable {r : DnsPacket}

theorem Keeps.trans (first : Keeps p q) (second : Keeps q r) : Keeps p r where
  protocol := second.protocol.trans first.protocol
  maxSize := second.maxSize.trans first.maxSize
  allocated := by
    have same := first.sizeMax
    have memory₁ := first.allocated
    have memory₂ := second.allocated
    omega
  nAllocs := first.nAllocs.trans second.nAllocs

/-- The size and the recorded names of two packets are the same. -/
structure Same (p q : DnsPacket) : Prop where
  size : q.size = p.size
  names : q.names = p.names

/-- `q` is `p` with something appended. -/
structure Grew (p q : DnsPacket) : Prop extends Keeps p q where
  size : p.size ≤ q.size
  names : ∃ added, q.names = p.names ++ added ∧ ∀ entry ∈ added, p.size ≤ entry.2 ∧ entry.2 < q.size

theorem Same.grew (same : Same p q) (keeps : Keeps p q) : Grew p q :=
  ⟨keeps, same.size.ge, [], by simp [same.names], by simp⟩

theorem Grew.refl (p : DnsPacket) : Grew p p := Same.grew ⟨rfl, rfl⟩ (.refl p)

/-- Allocations are the only trace of a call that does nothing else. -/
theorem Grew.allocs (p : DnsPacket) {k : Nat} (more : p.nAllocs ≤ k) : Grew p { p with nAllocs := k } :=
  Same.grew ⟨rfl, rfl⟩ ⟨rfl, rfl, .inl rfl, more⟩

theorem Grew.trans (first : Grew p q) (second : Grew q r) : Grew p r := by
  obtain ⟨keeps₁, size₁, added₁, names₁, fresh₁⟩ := first
  obtain ⟨keeps₂, size₂, added₂, names₂, fresh₂⟩ := second
  refine ⟨keeps₁.trans keeps₂, size₁.trans size₂, added₁ ++ added₂, by rw [names₂, names₁, append_assoc], ?_⟩
  intro entry mem
  rcases mem_append.mp mem with mem | mem
  · have := fresh₁ entry mem
    omega
  · have := fresh₂ entry mem
    omega

theorem Grew.bounded (grew : Grew p q) (bounded : Bounded p) : Bounded q := by
  obtain ⟨_, size, added, names, fresh⟩ := grew
  intro entry mem
  rw [names] at mem
  rcases mem_append.mp mem with mem | mem
  · have := bounded entry mem
    omega
  · exact (fresh entry mem).2

/-- Cutting a packet back takes back what was appended. -/
theorem truncate_same {added : List (CString × Nat)} (bounded : Bounded p) (size : p.size ≤ q.size)
    (names : q.names = p.names ++ added) (fresh : ∀ entry ∈ added, p.size ≤ entry.2)
    (inside : q.size = p.size → added = []) : Same p (dnsPacketTruncate p.size q) := by
  unfold dnsPacketTruncate
  split
  · have equal : q.size = p.size := by omega
    exact ⟨equal, by rw [names, inside equal, append_nil]⟩
  · refine ⟨rfl, ?_⟩
    have old : p.names.filter (·.2 < p.size) = p.names := by
      apply filter_eq_self.mpr
      intro entry mem
      simpa using bounded entry mem
    have new : added.filter (·.2 < p.size) = [] := by
      apply filter_eq_nil_iff.mpr
      intro entry mem
      have := fresh entry mem
      simpa using this
    rw [names, filter_append, old, new, append_nil]

theorem Grew.truncate (grew : Grew p q) (bounded : Bounded p) : Same p (dnsPacketTruncate p.size q) := by
  obtain ⟨_, size, added, names, fresh⟩ := grew
  apply truncate_same bounded size names
  · intro entry mem
    exact (fresh entry mem).1
  · intro equal
    apply eq_nil_iff_forall_not_mem.mpr
    intro entry mem
    have := fresh entry mem
    omega

theorem truncate_keeps (n : Nat) (p : DnsPacket) : Keeps p (dnsPacketTruncate n p) := by
  unfold dnsPacketTruncate
  split
  · exact .refl p
  · exact ⟨rfl, rfl, .inl rfl, le_rfl⟩

/-- The packet after a call, whether it succeeds or not. -/
def after {α : Type} : EStateM.Result Errno DnsPacket α → DnsPacket
  | .ok _ q => q
  | .error _ q => q

@[simp] theorem after_ok {α : Type} (a : α) (q : DnsPacket) : after (.ok a q) = q := rfl

/-- A call that only appends. -/
def Grows {α : Type} (x : PacketM α) : Prop := ∀ p, Bounded p → Grew p (after (x p))

section Grows

variable {α β : Type}

theorem grows_pure (a : α) : Grows (pure a) := fun p _ => .refl p

theorem grows_throw (e : Errno) : Grows (throw e : PacketM α) := fun p _ => .refl p

variable {x : PacketM α}

theorem Grew.step (grew : Grew p q) (bounded : Bounded p) (grows : Grows x) : Grew p (after (x q)) :=
  grew.trans (grows q (grew.bounded bounded))

/-- Whether the first part of a call fails or not, it has appended something. -/
theorem grew_bind {f : α → PacketM β} (first : Grew p (after (x q)))
    (second : ∀ a r, x q = .ok a r → Grew p r → Grew p (after (f a r))) : Grew p (after ((x >>= f) q)) := by
  rw [bind_apply]
  cases run : x q with
  | ok a r =>
    rw [run] at first
    exact second a r run first
  | error e r =>
    rwa [run] at first

theorem Grows.bind {f : α → PacketM β} (first : Grows x) (second : ∀ a, Grows (f a)) : Grows (x >>= f) :=
  fun p bounded => grew_bind (first p bounded) fun a _ _ grew => grew.step bounded (second a)

theorem Grows.map {f : α → β} (first : Grows x) : Grows (x >>= fun a => pure (f a)) :=
  first.bind fun a => grows_pure (f a)

theorem grows_get_bind {f : DnsPacket → PacketM β} (later : ∀ p, Bounded p → Grew p (after (f p p))) :
    Grows (get >>= f) := later

theorem grows_require (c : Prop) [Decidable c] (e : Errno) : Grows (require c e) := by
  unfold require
  split
  · exact grows_pure _
  · exact grows_throw e

theorem orTruncate_eq_error : orTruncate n x p = .error e q ↔ ∃ r, x p = .error e r ∧ q = dnsPacketTruncate n r := by
  unfold orTruncate
  cases x p with
  | ok a r => simp
  | error e' r => simp [eq_comm]

/-- After a failure that is taken back, the packet is as it was. -/
theorem orTruncate_error (grows : Grows x) (bounded : Bounded p) (failed : orTruncate p.size x p = .error e q) :
    Same p q := by
  obtain ⟨r, run, rfl⟩ := orTruncate_eq_error.mp failed
  have grew := grows p bounded
  rw [run] at grew
  exact grew.truncate bounded

theorem orTruncate_ok {a : α} : orTruncate n x p = .ok a q ↔ x p = .ok a q := by
  unfold orTruncate
  cases x p <;> simp

/-- A call may take back more than it did. -/
theorem grew_orTruncate_from (grows : Grows x) (bounded : Bounded p) (grew : Grew p q) :
    Grew p (after (orTruncate p.size x q)) := by
  have both := grew.step bounded grows
  unfold orTruncate
  cases run : x q with
  | ok a r =>
    rwa [run] at both
  | error e r =>
    rw [run] at both
    exact (both.truncate bounded).grew (both.toKeeps.trans (truncate_keeps _ _))

theorem grew_orTruncate (grows : Grows x) (bounded : Bounded p) :
    Grew p (after (orTruncate p.size x p)) := grew_orTruncate_from grows bounded (.refl p)

end Grows

section Append

variable (env : Env)

theorem push_grew (p : DnsPacket) (d : CString) {a k : Nat} (memory : a = p.allocated ∨ a ≤ dnsPacketSizeMax p)
    (more : p.nAllocs ≤ k) : Grew p { p.push d with allocated := a, nAllocs := k } :=
  ⟨⟨rfl, rfl, memory, more⟩, Nat.le_add_right _ _, [], by simp [DnsPacket.push, DnsPacket.store], by simp⟩

variable {rr : DnsResourceRecord} {name : CString} (maxUdpSize : UInt16) (edns0Do includeRfc6975 ed25519 : Bool)
  (nsid : Option CString) (rcode : UInt16) (k : DnsResourceKey) (d : CString)

/-- An extension that succeeds writes at the end of the packet. -/
theorem extend_ok {d : CString} (run : dnsPacketExtend env d p = .ok n q) :
    n = p.size ∧ ∃ a k, q = { p.push d with allocated := a, nAllocs := k } ∧ p.size + d.length ≤ a ∧
      (a = p.allocated ∨ a ≤ dnsPacketSizeMax p) ∧ p.nAllocs ≤ k := by
  rcases extend_cases env d p with ⟨a, k, done, facts⟩ | ⟨e, k, failed, _⟩
  · rw [done] at run
    cases run
    exact ⟨rfl, a, k, rfl, facts⟩
  · rw [failed] at run
    cases run

theorem extend_error {d : CString} (run : dnsPacketExtend env d p = .error e q) :
    ∃ k, q = { p with nAllocs := k } ∧ p.nAllocs ≤ k ∧ (OutOfMemory env p ∨ Overflows env d.length p) := by
  rcases extend_cases env d p with ⟨a, k, done, _⟩ | ⟨e', k, failed, facts⟩
  · rw [done] at run
    cases run
  · rw [failed] at run
    cases run
    exact ⟨k, rfl, facts⟩

theorem grows_extend : Grows (dnsPacketExtend env d) := by
  intro p _
  rcases extend_cases env d p with ⟨a, n, run, _, memory, more⟩ | ⟨e, n, run, more, _⟩
  · rw [run]
    exact push_grew p d memory more
  · rw [run]
    exact .allocs p more

theorem grows_label (canonicalCandidate : Bool) : Grows (dnsPacketAppendLabel env d canonicalCandidate) := by
  apply (grows_require _ _).bind
  intro _
  apply grows_get_bind
  intro p
  exact grows_extend env _ p

theorem grows_rawString (s : CString) : Grows (dnsPacketAppendRawString env s) := by
  apply (grows_require _ _).bind
  intro _
  exact grows_extend env _

/-- A name may be recorded at an offset in the part of the packet that was appended. -/
theorem record_grew (allowCompression : Bool) (name : CString) (grew : Grew p q) (fresh : p.size ≤ n)
    (inside : n < q.size) : Grew p (after (record env allowCompression name n q)) := by
  rcases record_cases env allowCompression name n q with ⟨k, run, more, _⟩ | ⟨k, run, more, _⟩ | ⟨e, k, run, more⟩
  · rw [run]
    exact grew.trans (.allocs q more)
  · rw [run]
    obtain ⟨keeps, size, added, names, bounds⟩ := grew
    refine ⟨keeps.trans ⟨rfl, rfl, .inl rfl, more⟩, size, added ++ [(name, n)], ?_, ?_⟩
    · show q.names ++ [(name, n)] = _
      rw [names, append_assoc]
    · intro entry mem
      rcases mem_append.mp mem with mem | mem
      · exact bounds entry mem
      · obtain rfl := mem_singleton.mp mem
        exact ⟨fresh, inside⟩
  · rw [run]
    exact grew.trans (.allocs q more)

theorem labelBytes_length (lowered : Bool) (l : CString) :
    (UInt8.ofNat l.length :: if lowered then l.map asciiTolower else l).length = 1 + l.length := by
  split <;> simp [Nat.add_comm]

theorem label_ok {d : CString} (run : dnsPacketAppendLabel env d canonicalCandidate p = .ok n q) :
    n = p.size ∧ q.size = p.size + (1 + d.length) ∧ q.size ≤ q.allocated ∧ Keeps p q ∧ q.names = p.names := by
  rw [dnsPacketAppendLabel, require_bind_eq_ok] at run
  obtain ⟨_, run⟩ := run
  rw [get_bind] at run
  obtain ⟨rfl, a, k, rfl, fits, memory, more⟩ := extend_ok env run
  exact ⟨rfl, congrArg (p.size + ·) (labelBytes_length _ d), fits, ⟨rfl, rfl, memory, more⟩, rfl⟩

theorem grows_labels (name : CString) (allowCompression canonicalCandidate : Bool) :
    Grows (appendLabels env name allowCompression canonicalCandidate) := by
  induction size : name.length using Nat.strongRecOn generalizing name with
  | ind k ih =>
    intro p bounded
    by_cases root : dnsNameIsRoot name = true
    · rw [appendLabels_root root]
      exact .refl p
    by_cases found : 0 < recorded env p allowCompression name ∧ recorded env p allowCompression name < 0x4000
    · rw [appendLabels_pointer root found]
      exact ((grows_extend env _).map) p bounded
    cases read : dnsLabelUnescape name dnsLabelMax {} with
    | error e =>
      rw [appendLabels_invalid root found read]
      exact .refl p
    | ok parts =>
      obtain ⟨label, rest⟩ := parts
      rw [appendLabels_label root found read]
      refine grew_bind (grows_label env label canonicalCandidate p bounded) fun n q run grew => ?_
      obtain ⟨rfl, larger, _⟩ := label_ok env run
      refine grew_bind (record_grew env allowCompression name grew le_rfl (by omega)) fun _ r _ grew => ?_
      have shorter := unescape_shorter_of_not_root root read
      exact grew.step bounded (ih rest.length (size ▸ shorter) rest rfl)

theorem grows_name (name : CString) (allowCompression canonicalCandidate : Bool) :
    Grows (dnsPacketAppendName env name allowCompression canonicalCandidate) := by
  apply grows_get_bind
  intro p bounded
  refine grew_bind (grew_orTruncate (grows_labels env name _ canonicalCandidate) bounded) fun ended q _ grew => ?_
  cases ended with
  | true => exact grew
  | false => exact grew.step bounded (grows_extend env _).map

/-! ## Calls that take back what they did -/

/-- A failed call leaves the size and the names as they were. -/
def TakesBack {α : Type} (x : PacketM α) : Prop := ∀ p e q, Bounded p → x p = .error e q → Same p q

theorem grows_key_body (flags : DnsAnswerFlags) :
    Grows (do
      let _ ← dnsPacketAppendName env (dnsResourceKeyName k) true true
      let _ ← dnsPacketAppendUint16 env k.type
      let _ ← dnsPacketAppendUint16 env (if flags.cacheFlush then k.class ||| mdnsRrCacheFlushOrQu else k.class)) := by
  apply (grows_name env _ _ _).bind
  intro _
  apply (grows_extend env _).bind
  intro _
  exact (grows_extend env _).map

theorem takesBack_key (flags : DnsAnswerFlags) : TakesBack (dnsPacketAppendKey env k flags) := by
  intro p e q bounded failed
  rw [dnsPacketAppendKey, get_bind, bind_apply] at failed
  split at failed
  · cases failed
  · rename_i e' r run
    cases failed
    exact orTruncate_error (grows_key_body env k flags) bounded run

theorem grows_key (flags : DnsAnswerFlags) : Grows (dnsPacketAppendKey env k flags) := by
  apply grows_get_bind
  intro p bounded
  exact grew_bind (grew_orTruncate (grows_key_body env k flags) bounded) fun _ _ _ grew => grew

theorem grows_typeWindow (window length : Nat) (types : CString) : Grows (dnsPacketAppendTypeWindow env window length types) := by
  intro p bounded
  apply grew_orTruncate _ bounded
  apply (grows_extend env _).bind
  intro _
  apply (grows_extend env _).bind
  intro _
  exact (grows_extend env _).map

theorem grows_filledWindow (filled : Bool) (window entry : Nat) (bitmaps : CString) :
    Grows (appendFilledWindow env filled window entry bitmaps) := by
  unfold appendFilledWindow
  split
  · exact grows_typeWindow env _ _ _
  · exact grows_pure _

theorem grows_typesLoop (types : Bitmap) (window entry : Nat) (bitmaps : CString) :
    Grows (appendTypesLoop env types window entry bitmaps) := by
  induction types generalizing window entry bitmaps with
  | nil => exact grows_filledWindow env _ _ _ _
  | cons n types ih =>
    apply (grows_filledWindow env _ _ _ _).bind
    intro _
    exact ih _ _ _

theorem grows_piece (piece : Piece) : Grows (piece.append env) := by
  cases piece with
  | uint8 _ | uint16 _ | uint32 _ | blob _ => exact (grows_extend env _).map
  | string s => exact (grows_rawString env _).map
  | name n allowCompression canonicalCandidate => exact (grows_name env _ _ _).map
  | types b =>
    apply Grows.map
    intro p bounded
    exact grew_orTruncate (grows_typesLoop env b 0 0 _) bounded

theorem grows_pieces (pieces : List Piece) : Grows (appendPieces env pieces) := by
  induction pieces with
  | nil => exact grows_pure _
  | cons piece pieces ih =>
    apply (grows_piece env piece).bind
    intro names
    exact ih.map

theorem grows_rrHead (rr : DnsResourceRecord) (flags : DnsAnswerFlags) : Grows (appendRrHead env rr flags) := by
  apply (grows_key env _ _).bind
  intro start
  apply (grows_extend env _).bind
  intro _
  exact (grows_extend env _).map

/-- The length of the data is behind the key and the TTL. -/
theorem rrHead_ok {start : Nat} (bounded : Bounded p)
    (run : appendRrHead env rr flags p = .ok (start, rdlengthOffset) q) :
    p.size < rdlengthOffset ∧ rdlengthOffset + 2 = q.size := by
  obtain ⟨start', p₁, key, run⟩ := bind_eq_ok.mp run
  obtain ⟨_, p₂, ttl, run⟩ := bind_eq_ok.mp run
  obtain ⟨off, p₃, rdlength, run⟩ := bind_eq_ok.mp run
  cases run
  have grew := grows_key env rr.key flags p bounded
  rw [key] at grew
  obtain ⟨_, a, k, rfl, _⟩ := extend_ok env ttl
  obtain ⟨rfl, a', k', rfl, _⟩ := extend_ok env rdlength
  have larger : p.size ≤ p₁.size := grew.size
  have four : (be32 (UInt32.toNat (if flags.goodbye then 0 else rr.ttl))).length = 4 := rfl
  constructor
  · show p.size < p₁.size + _
    omega
  · rfl

/-- A failure while the length is filled in leaves the packet longer than before the record. -/
theorem patchRdlength_error (run : patchRdlength env rdlengthOffset p = .error e q) :
    Keeps p q ∧ q.names = p.names ∧ (q.size = p.size ∨ q.size = rdlengthOffset) := by
  rw [patchRdlength, get_bind] at run
  by_cases fits : p.size - rdlengthOffset - 2 ≤ 0xFFFF
  · rw [require_of fits, modify_bind] at run
    rcases bind_eq_error.mp run with failed | ⟨_, _, _, run⟩
    · obtain ⟨k, rfl, more, _⟩ := extend_error env failed
      exact ⟨⟨rfl, rfl, .inl rfl, more⟩, rfl, .inr rfl⟩
    · cases run
  · rw [require_not fits] at run
    cases run
    exact ⟨.refl p, rfl, .inl rfl⟩

/-- Filling in the length changes two bytes. -/
theorem patchRdlength_ok (run : patchRdlength env rdlengthOffset p = .ok ⟨⟩ q) :
    p.size - rdlengthOffset - 2 ≤ 0xFFFF ∧
    ∃ a k, q = { p.store rdlengthOffset (be16 (p.size - rdlengthOffset - 2)) with allocated := a, nAllocs := k } ∧
      (a = p.allocated ∨ a ≤ dnsPacketSizeMax p) ∧ p.nAllocs ≤ k := by
  rw [patchRdlength, get_bind, require_bind_eq_ok] at run
  obtain ⟨fits, run⟩ := run
  refine ⟨fits, ?_⟩
  rw [modify_bind] at run
  obtain ⟨_, r, written, run⟩ := bind_eq_ok.mp run
  have value : (UInt16.ofNat (p.size - rdlengthOffset - 2)).toNat = p.size - rdlengthOffset - 2 := by
    rw [UInt16.toNat_ofNat_of_lt' (Nat.lt_succ_of_le fits)]
  rw [dnsPacketAppendUint16, value] at written
  obtain ⟨_, a, k, rfl, _, memory, more⟩ := extend_ok env written
  cases run
  exact ⟨a, k, rfl, memory, more⟩

/-- The steps of a record that is appended. -/
theorem rr_ok {appended : AppendedRr} (run : dnsPacketAppendRr env rr flags p = .ok appended q) :
    ∃ start rdlengthOffset p₁ names p₂, appendRrHead env rr flags p = .ok (start, rdlengthOffset) p₁ ∧
      appendPieces env (rdataPieces rr) p₁ = .ok names p₂ ∧ patchRdlength env rdlengthOffset p₂ = .ok ⟨⟩ q ∧
      appended = ⟨p.size, p₁.size - p.size, (start, dnsResourceKeyName rr.key) :: names⟩ := by
  rw [dnsPacketAppendRr, get_bind, orTruncate_ok] at run
  obtain ⟨⟨start, rdlengthOffset⟩, p₁, head, run⟩ := bind_eq_ok.mp run
  replace run : (appendPieces env (rdataPieces rr) >>= fun names => patchRdlength env rdlengthOffset >>= fun _ =>
      pure (AppendedRr.mk p.size (p₁.size - p.size) ((start, dnsResourceKeyName rr.key) :: names))) p₁ =
        .ok appended q := run
  obtain ⟨names, p₂, pieces, run⟩ := bind_eq_ok.mp run
  obtain ⟨_, p₃, patch, run⟩ := bind_eq_ok.mp run
  cases run
  exact ⟨start, rdlengthOffset, p₁, names, p₂, head, pieces, patch, rfl⟩

theorem rr_error (bounded : Bounded p) (failed : dnsPacketAppendRr env rr flags p = .error e q) :
    Same p q ∧ Keeps p q := by
  obtain ⟨r, run, rfl⟩ := orTruncate_eq_error.mp failed
  have grewHead := grows_rrHead env rr flags p bounded
  rcases bind_eq_error.mp run with head | ⟨⟨start, rdlengthOffset⟩, p₁, head, run⟩
  · rw [head] at grewHead
    exact ⟨grewHead.truncate bounded, grewHead.toKeeps.trans (truncate_keeps _ _)⟩
  rw [head] at grewHead
  obtain ⟨behind, before⟩ := rrHead_ok env bounded head
  replace run : (appendPieces env (rdataPieces rr) >>= fun names => patchRdlength env rdlengthOffset >>= fun _ =>
      pure (AppendedRr.mk p.size (p₁.size - p.size) ((start, dnsResourceKeyName rr.key) :: names))) p₁ = .error e r := run
  have grewPieces := grows_pieces env (rdataPieces rr) p₁ (grewHead.bounded bounded)
  rcases bind_eq_error.mp run with pieces | ⟨names, p₂, pieces, run⟩
  · rw [pieces] at grewPieces
    have grew := grewHead.trans grewPieces
    exact ⟨grew.truncate bounded, grew.toKeeps.trans (truncate_keeps _ _)⟩
  rw [pieces, after_ok] at grewPieces
  have grew := grewHead.trans grewPieces
  rcases bind_eq_error.mp run with patch | ⟨_, p₃, _, run⟩
  · obtain ⟨keeps, names, size⟩ := patchRdlength_error env patch
    obtain ⟨_, _, added, all, fresh⟩ := grew
    have longer : p.size < r.size := by
      have := grewPieces.size
      rcases size with size | size
      · omega
      · omega
    refine ⟨truncate_same bounded longer.le (names.trans all) ?_ ?_, ?_⟩
    · intro entry mem
      exact (fresh entry mem).1
    · omega
    · exact ((grewHead.trans grewPieces).toKeeps.trans keeps).trans (truncate_keeps _ _)
  · cases run

theorem grows_rr (rr : DnsResourceRecord) (flags : DnsAnswerFlags) : Grows (dnsPacketAppendRr env rr flags) := by
  intro p bounded
  cases run : dnsPacketAppendRr env rr flags p with
  | error e q =>
    obtain ⟨same, keeps⟩ := rr_error env bounded run
    exact same.grew keeps
  | ok appended q =>
    obtain ⟨start, rdlengthOffset, p₁, names, p₂, head, pieces, patch, _⟩ := rr_ok env run
    have grewHead := grows_rrHead env rr flags p bounded
    rw [head] at grewHead
    have grewPieces := grows_pieces env (rdataPieces rr) p₁ (grewHead.bounded bounded)
    rw [pieces] at grewPieces
    obtain ⟨_, a, k, rfl, memory, more⟩ := patchRdlength_ok env patch
    exact (grewHead.trans grewPieces).trans (Same.grew ⟨rfl, rfl⟩ ⟨rfl, rfl, memory, more⟩)

theorem grows_optBody : Grows (appendOptBody env maxUdpSize edns0Do includeRfc6975 ed25519 nsid rcode) := by
  apply (grows_pieces env _).bind
  intro _
  split
  · exact grows_pieces env _
  · split
    · exact (grows_require _ _).bind (fun _ => grows_pieces env _)
    · exact grows_pieces env _

theorem grows_opt : Grows (dnsPacketAppendOpt env maxUdpSize edns0Do includeRfc6975 ed25519 nsid rcode) := by
  apply grows_get_bind
  intro p bounded
  by_cases single : p.optStart = none
  · rw [require_of single]
    refine grew_bind (grows_extend env [0] p bounded) fun _ q _ grewRoot => ?_
    have grewBody := grew_orTruncate_from
      (grows_optBody env maxUdpSize edns0Do includeRfc6975 ed25519 nsid rcode) bounded grewRoot
    refine grew_bind grewBody fun _ r _ grew => ?_
    exact grew.trans (Same.grew ⟨rfl, rfl⟩ ⟨rfl, rfl, .inl rfl, le_rfl⟩)
  · rw [require_not single]
    exact .refl p

theorem grows_question (keys : List DnsResourceKey) : Grows (dnsPacketAppendQuestion env keys) := by
  induction keys with
  | nil => exact grows_pure _
  | cons key keys ih =>
    apply (grows_key env _ _).bind
    intro start
    exact ih.map

theorem grows_answer (answer : List (DnsResourceRecord × DnsAnswerFlags)) : Grows (dnsPacketAppendAnswer env answer) := by
  induction answer with
  | nil => exact grows_pure _
  | cons item answer ih =>
    apply (grows_rr env _ _).bind
    intro appended
    exact ih.map

theorem grows_call (call : AppendCall) : Grows (call.run env) := by
  cases call with
  | blob d => exact grows_piece env (.blob d)
  | uint8 v => exact grows_piece env (.uint8 v)
  | uint16 v => exact grows_piece env (.uint16 v)
  | uint32 v => exact grows_piece env (.uint32 v)
  | string s => exact grows_piece env (.string s)
  | rawString s => exact (grows_rawString env _).map
  | label d canonicalCandidate => exact (grows_label env _ _).map
  | name n allowCompression canonicalCandidate => exact grows_piece env (.name n allowCompression canonicalCandidate)
  | key k flags => exact (grows_key env _ _).map
  | rr rr flags => exact (grows_rr env _ _).map
  | opt maxUdpSize edns0Do includeRfc6975 ed25519 nsid rcode => exact (grows_opt env _ _ _ _ _ _).map
  | question keys => exact grows_question env _
  | answer rrs => exact grows_answer env _

/-! ## The zero byte behind a name -/

theorem overflows_iff {add : Nat} :
    Overflows env add p ↔ p.allocated < p.size + add ∧ dnsPacketSizeMax p < p.size + add := by
  have page := le_pageAlign env.pageSize_pos ((p.size + add) * 2)
  unfold Overflows
  omega

theorem outOfMemory_of_keeps (keeps : Keeps p q) (out : OutOfMemory env q) : OutOfMemory env p := by
  obtain ⟨k, later, fails⟩ := out
  exact ⟨k, keeps.nAllocs.trans later, fails⟩

theorem extend_fits {d : CString} (enough : ¬ OutOfMemory env p) (fits : p.size + d.length ≤ dnsPacketSizeMax p) :
    ∃ n q, dnsPacketExtend env d p = .ok n q := by
  cases run : dnsPacketExtend env d p with
  | ok n q => exact ⟨n, q, rfl⟩
  | error e q =>
    obtain ⟨k, _, _, out | overflow⟩ := extend_error env run
    · exact absurd out enough
    · have := (overflows_iff env).mp overflow
      omega

theorem label_fits {l : CString} (canonicalCandidate : Bool) (short : l.length ≤ dnsLabelMax)
    (enough : ¬ OutOfMemory env p) (fits : p.size + (1 + l.length) ≤ dnsPacketSizeMax p) :
    ∃ q, dnsPacketAppendLabel env l canonicalCandidate p = .ok p.size q ∧ q.size = p.size + (1 + l.length) ∧
      Keeps p q ∧ q.names = p.names := by
  obtain ⟨n, q, run⟩ := extend_fits env enough ((labelBytes_length (p.canonicalForm && canonicalCandidate) l).symm ▸ fits)
  have run : dnsPacketAppendLabel env l canonicalCandidate p = .ok n q := by
    rw [dnsPacketAppendLabel, require_of short, get_bind, run]
  obtain ⟨rfl, larger, _, facts⟩ := label_ok env run
  exact ⟨q, run, larger, facts⟩

/-- The loop wrote labels and ended without a pointer, and then the memory is full and cannot
be extended for the zero byte. -/
def LeavesLabels (name : CString) (allowCompression canonicalCandidate : Bool) (p : DnsPacket) : Prop :=
  ∃ q, appendLabels env name (allowCompression && !p.refuseCompression) canonicalCandidate p = .ok false q ∧
    p.size < q.size ∧ q.allocated ≤ q.size ∧ (dnsPacketSizeMax q ≤ q.size ∨ env.alloc q.nAllocs = false)

/-- When one more byte cannot be appended. -/
theorem uint8_fails_iff (v : UInt8) : (∃ e q, dnsPacketAppendUint8 env v p = .error e q) ↔
    p.allocated ≤ p.size ∧ (dnsPacketSizeMax p ≤ p.size ∨ env.alloc p.nAllocs = false) := by
  have page := le_pageAlign env.pageSize_pos ((p.size + 1) * 2)
  rw [dnsPacketAppendUint8, dnsPacketExtend, get_bind, reserve, length_singleton, bind_apply, get_bind]
  by_cases full : p.allocated < p.size + 1
  · rw [if_pos full]
    by_cases fits : p.size + 1 ≤ min (pageAlign env.pageSize ((p.size + 1) * 2)) (dnsPacketSizeMax p)
    · have room : ¬ dnsPacketSizeMax p ≤ p.size := by omega
      rw [require_of fits, bind_apply, allocate_eq]
      cases enough : env.alloc p.nAllocs <;> simp [Nat.lt_succ_iff.mp full, room]
    · have overflow : dnsPacketSizeMax p ≤ p.size := by omega
      rw [require_not fits]
      simp [Nat.lt_succ_iff.mp full, overflow]
  · rw [if_neg full]
    have room : ¬ p.allocated ≤ p.size := by omega
    simp [room]

/-- The only failures that are not taken back are those behind the last label. -/
theorem name_left_behind_iff (bounded : Bounded p) :
    (∃ e q, dnsPacketAppendName env name allowCompression canonicalCandidate p = .error e q ∧ ¬ Same p q) ↔
      LeavesLabels env name allowCompression canonicalCandidate p := by
  constructor
  · rintro ⟨e, q, failed, changed⟩
    rw [dnsPacketAppendName, get_bind] at failed
    rcases bind_eq_error.mp failed with failed | ⟨ended, r, run, failed⟩
    · exact absurd (orTruncate_error (grows_labels env name _ canonicalCandidate) bounded failed) changed
    rw [orTruncate_ok] at run
    cases ended with
    | true => cases failed
    | false =>
      rcases bind_eq_error.mp failed with last | ⟨_, _, _, last⟩
      · obtain ⟨k, rfl, -⟩ := extend_error env last
        have grew := grows_labels env name (allowCompression && !p.refuseCompression) canonicalCandidate p bounded
        rw [run, after_ok] at grew
        refine ⟨r, run, grew.size.lt_of_ne fun equal => changed ⟨equal.symm, ?_⟩, (uint8_fails_iff env 0).mp ⟨e, _, last⟩⟩
        -- without labels there are no names of them
        obtain ⟨added, names, fresh⟩ := grew.names
        cases added with
        | nil => simpa using names
        | cons entry added =>
          have := fresh entry (by simp)
          omega
      · cases last
  · rintro ⟨q, run, longer, full⟩
    obtain ⟨e, r, last⟩ := (uint8_fails_iff env 0).mpr full
    obtain ⟨k, left, -⟩ := extend_error env last
    refine ⟨e, r, ?_, fun same => longer.ne' ?_⟩
    · rw [dnsPacketAppendName, get_bind, bind_of_ok (orTruncate_ok.mpr run)]
      exact bind_eq_error.mpr (.inl last)
    · rw [← same.size, left]

/-! ## Packets that calls make -/

/-- The packets that calls make of a packet without recorded names. -/
inductive Reachable : DnsPacket → Prop
  | start {p : DnsPacket} : p.names = [] → p.allocated ≤ dnsPacketSizeMax p → Reachable p
  | append {p : DnsPacket} (call : AppendCall) : Reachable p → Reachable (after (call.run env p))
  | truncate {p : DnsPacket} (n : Nat) : Reachable p → Reachable (dnsPacketTruncate n p)

theorem Reachable.bounded (reachable : Reachable env p) : Bounded p ∧ p.allocated ≤ dnsPacketSizeMax p := by
  induction reachable with
  | start empty memory =>
    refine ⟨?_, memory⟩
    intro entry mem
    rw [empty] at mem
    cases mem
  | @append p call _ ih =>
    have grew := grows_call env call p ih.1
    refine ⟨grew.bounded ih.1, ?_⟩
    have := grew.toKeeps.allocated
    rw [grew.toKeeps.sizeMax]
    omega
  | @truncate p n _ ih =>
    have keeps := truncate_keeps n p
    constructor
    · unfold dnsPacketTruncate
      split
      · exact ih.1
      · intro entry mem
        simpa using (mem_filter.mp mem).2
    · have := keeps.allocated
      rw [keeps.sizeMax]
      omega

/-- Pages of 4 KiB, enough memory, and all names in one bucket. -/
def roomyEnv : Env where
  pageSize := 4096
  pageSize_pos := by decide
  structSize := 256
  alloc := fun _ => true
  bucket := fun _ _ => 0

/-- A packet of at most 512 bytes with two bytes left. -/
def almostFull : DnsPacket :=
  { protocol := .dns, data := List.replicate 512 0, size := 510, allocated := 512, maxSize := 512, nAllocs := 1 }

end Append

end SystemdPort.Resolve
