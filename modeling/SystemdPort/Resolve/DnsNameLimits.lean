/-
# Resolve.DnsNameLimits — when a name can be appended, and how long a name is that is read

`dns_packet_append_name()` looks for a recorded name to point to.  A pointer has 14 bits; a name that
is recorded further behind is written out once more, and then it cannot be recorded again, which makes
the call fail (`append_name_fits_iff`).

`dns_packet_read_name()` follows pointers backwards only, but it does not limit the length of what it
puts together (`read_name_valid_iff`).
-/
import SystemdPort.Resolve.DnsRoundTrip
import SystemdPort.Shared.DnsWire

namespace SystemdPort.Resolve

set_option autoImplicit false

open Basic Lib Lib.Cells Lib.Exec Shared.Dns List

/-! ## Appending -/

section Append

variable (env : Env) {p q : DnsPacket} {name d : CString} {n : Nat} {ls : List CString} {allow canonicalCandidate : Bool}
  {names old pending : List (CString × Nat)}

/-- What holds of the names that are recorded in a packet. -/
structure NamesKnown (p : DnsPacket) : Prop where
  isName : ∀ entry ∈ p.names, IsName entry.1
  offset : ∀ entry ∈ p.names, 0 < entry.2 ∧ entry.2 < p.size

theorem Tracked.namesKnown {m : Cells UInt8} {log : List (Nat × CString)} (tracked : Tracked m log p) : NamesKnown p where
  isName entry mem := by
    obtain ⟨_, _, _, ls, _, labels, _⟩ := (tracked.recorded entry mem).spells
    exact ⟨ls, labels⟩
  offset entry mem := ⟨Nat.lt_of_lt_of_le (by decide) (tracked.recorded entry mem).low, (tracked.recorded entry mem).high⟩

/-- Of what is left of a name while labels are appended, the first part that is recorded is too far
behind to be pointed to. -/
inductive TooFar (names : List (CString × Nat)) : CString → Prop
  | here {name : CString} {n : Nat} : ¬ dnsNameIsRoot name = true → hashmapGet env names name = some n → 0x4000 ≤ n →
      TooFar names name
  | later {name l rest : CString} : ¬ dnsNameIsRoot name = true → hashmapGet env names name = none →
      dnsLabelUnescape name dnsLabelMax {} = .ok (l, rest) → TooFar names rest → TooFar names name

/-- Names that are equal are in one bucket. -/
theorem hashmapGet_eq (known : ∀ entry ∈ names, IsName entry.1) (labels : Labels name ls) :
    hashmapGet env names name = (names.find? fun entry => dnsNameCompareFunc entry.1 name = 0).map (·.2) := by
  unfold hashmapGet
  congr 1
  apply find?_congr
  intro entry mem
  obtain ⟨lk, others⟩ := known entry mem
  rw [decide_eq_decide, others.hash, labels.hash]
  refine ⟨And.right, fun same => ⟨?_, same⟩⟩
  rw [hashFeed_congr ((others.compare_eq_zero labels).mp same)]

/-- Longer names do not hide one. -/
theorem hashmapGet_append (known : ∀ entry ∈ old, IsName entry.1)
    (longer : ∀ entry ∈ pending, ∃ lk, Labels entry.1 lk ∧ ls.length < lk.length) (labels : Labels name ls) :
    hashmapGet env (old ++ pending) name = hashmapGet env old name := by
  have none : pending.find? (fun entry => dnsNameCompareFunc entry.1 name = 0) = none := by
    rw [find?_eq_none]
    intro entry mem same
    obtain ⟨lk, others, more⟩ := longer entry mem
    have lengths := congrArg List.length ((others.compare_eq_zero labels).mp (of_decide_eq_true same))
    simp only [length_map] at lengths
    omega
  rw [hashmapGet_eq env known labels, hashmapGet_eq env _ labels, find?_append, none, Option.or_none]
  intro entry mem
  rcases mem_append.mp mem with mem | mem
  · exact known entry mem
  · obtain ⟨lk, others, _⟩ := longer entry mem
    exact ⟨lk, others⟩

variable {env} (enough : ¬ OutOfMemory env p)

include enough

theorem record_returns : (∃ q, record env allow name n p = .ok ⟨⟩ q) ↔
    (allow = true → ∀ k, hashmapGet env p.names name = some k → k = n) := by
  have memory : ∀ k, p.nAllocs ≤ k → env.alloc k = true := by
    intro k later
    by_contra fails
    exact enough ⟨k, later, by simpa using fails⟩
  cases allow with
  | false => exact ⟨by simp, fun _ => ⟨p, rfl⟩⟩
  | true =>
    have run : record env true name n p = (allocate env >>= fun _ => hashmapEnsurePut env name n) p := rfl
    have first := (allocate_eq env p).trans (if_pos (memory _ le_rfl))
    have second := (allocate_eq env { p with nAllocs := p.nAllocs + 1 }).trans (if_pos (memory _ (Nat.le_succ _)))
    rw [run, bind_of_ok first, hashmapEnsurePut, bind_of_ok second, get_bind]
    dsimp only
    cases hashmapGet env p.names name with
    | none => exact ⟨by simp, fun _ => ⟨_, rfl⟩⟩
    | some k => by_cases same : k = n <;> simp [require, same]

/-- Appending what is left of a name, from any label on; `old` are the names that were recorded before. -/
theorem appendLabels_returns (canonicalCandidate : Bool) (labels : Labels name ls) (known : ∀ entry ∈ old, IsName entry.1)
    (split : p.names = old ++ pending) (offset : ∀ entry ∈ old, 0 < entry.2 ∧ entry.2 < p.size)
    (longer : ∀ entry ∈ pending, ∃ lk, Labels entry.1 lk ∧ ls.length < lk.length)
    (fits : p.size + (wire false ls).length ≤ dnsPacketSizeMax p) :
    (¬ (allow = true ∧ TooFar env old name) ∧ ∃ ended q, appendLabels env name allow canonicalCandidate p = .ok ended q ∧
        (ended = false → q.size + 1 ≤ dnsPacketSizeMax q ∧ ¬ OutOfMemory env q)) ∨
      (allow = true ∧ TooFar env old name) ∧ ∃ e q, appendLabels env name allow canonicalCandidate p = .error e q := by
  induction labels generalizing p pending with
  | @root name _ read =>
    have root := Labels.root_iff.mp (.root read)
    refine .inl ⟨?_, false, p, appendLabels_root root, fun _ => ⟨fits, enough⟩⟩
    rintro ⟨_, ⟨notRoot, _⟩ | ⟨notRoot, _⟩⟩ <;> exact notRoot root
  | @cons name l rest ls read nonempty later ih =>
    have labels : Labels name (l :: ls) := .cons read nonempty later
    have root := not_root_of_labels labels
    have get : hashmapGet env p.names name = hashmapGet env old name :=
      split ▸ hashmapGet_append env known longer labels
    have some_ := wire_pos false ls
    rw [wire_length] at fits
    by_cases found : 0 < recorded env p allow name ∧ recorded env p allow name < 0x4000
    · rw [appendLabels_pointer root found]
      obtain ⟨a, k, done⟩ := extend_fits env enough
        (show p.size + (be16 (0xC000 ||| UInt16.ofNat (recorded env p allow name)).toNat).length ≤ dnsPacketSizeMax p by
          show p.size + 2 ≤ _
          omega)
      refine .inl ⟨?_, true, _, by rw [dnsPacketAppendUint16, bind_of_ok done]; rfl, by simp⟩
      rintro ⟨rfl, ⟨_, hit, far⟩ | ⟨_, miss, _⟩⟩
      · simp [recorded, get, hit] at found
        omega
      · simp [recorded, get, miss] at found
    rw [appendLabels_label root found read]
    obtain ⟨p₁, label, size, keeps, names⟩ := label_fits env canonicalCandidate (unescape_length read) enough (by omega)
    have enough₁ : ¬ OutOfMemory env p₁ := fun out => enough (outOfMemory_of_keeps env keeps out)
    have returns := @record_returns env p₁ name p.size allow enough₁
    rw [names, get] at returns
    rw [bind_of_ok label]
    by_cases there : allow = true ∧ ∃ n, hashmapGet env old name = some n
    · obtain ⟨rfl, n, hit⟩ := there
      obtain ⟨name', mem, _⟩ := hashmapGet_some env hit
      obtain ⟨low, high⟩ := offset _ mem
      have far : 0x4000 ≤ n := by
        simp [recorded, get, hit] at found
        omega
      refine .inr ⟨⟨rfl, .here root hit far⟩, ?_⟩
      cases run : record env true name p.size p₁ with
      | ok _ q =>
        have := returns.mp ⟨q, run⟩ rfl n hit
        omega
      | error e q => exact ⟨e, q, bind_eq_error.mpr (.inl run)⟩
    · obtain ⟨p₂, run⟩ := returns.mpr (by simp_all)
      obtain ⟨k, new, rfl, later, choice⟩ := record_names env run
      rw [bind_of_ok run]
      have next := @ih { p₁ with nAllocs := k, names := p₁.names ++ new } (pending ++ new)
        (by rintro ⟨k, later', fails⟩; exact enough₁ ⟨k, later.trans later', fails⟩) (by simp [names, split])
        (fun entry mem => ⟨(offset entry mem).1, by show _ < p₁.size; have := (offset entry mem).2; omega⟩)
        (by
          intro entry mem
          rcases mem_append.mp mem with mem | mem
          · obtain ⟨lk, others, more⟩ := longer entry mem
            exact ⟨lk, others, Nat.lt_of_succ_lt more⟩
          · rcases choice with rfl | rfl
            · cases mem
            · obtain rfl := mem_singleton.mp mem
              exact ⟨l :: ls, labels, Nat.lt_succ_self _⟩)
        (by
          show p₁.size + _ ≤ dnsPacketSizeMax p₁
          rw [keeps.sizeMax]
          omega)
      have same : (allow = true ∧ TooFar env old name) ↔ (allow = true ∧ TooFar env old rest) := by
        refine and_congr_right fun allowed => ⟨?_, fun far => ?_⟩
        · rintro (⟨_, hit, _⟩ | ⟨_, _, read', far⟩)
          · exact absurd ⟨allowed, _, hit⟩ there
          · cases read.symm.trans read'
            exact far
        · refine .later root ?_ read far
          cases miss : hashmapGet env old name with
          | none => rfl
          | some n => exact absurd ⟨allowed, n, miss⟩ there
      rwa [same]

/-- A name that fits in a packet without pointers is appended, unless one of its suffixes is recorded too far
behind before any other. -/
theorem append_name_fits_iff (known : NamesKnown p) (labels : Labels name ls)
    (fits : p.size + (wire false ls).length ≤ dnsPacketSizeMax p) :
    (∃ start q, dnsPacketAppendName env name allow canonicalCandidate p = .ok start q) ↔
      ¬ ((allow && !p.refuseCompression) = true ∧ TooFar env p.names name) := by
  rw [dnsPacketAppendName]
  rcases appendLabels_returns enough canonicalCandidate labels known.isName (append_nil _).symm known.offset (by simp) fits with
    ⟨near, ended, q, run, room⟩ | ⟨far, e, q, run⟩
  · refine iff_of_true ?_ near
    rw [get_bind, bind_of_ok (orTruncate_ok.mpr run)]
    cases ended with
    | true => exact ⟨_, _, rfl⟩
    | false =>
      obtain ⟨left, enough⟩ := room rfl
      obtain ⟨n, r, done⟩ := extend_fits env (d := [0]) enough left
      refine ⟨p.size, r, ?_⟩
      show (dnsPacketExtend env [0] >>= fun _ => pure p.size) q = _
      rw [bind_of_ok done]
      rfl
  · refine iff_of_false ?_ (not_not.mpr far)
    rintro ⟨start, r, done⟩
    rw [get_bind] at done
    obtain ⟨_, _, again, _⟩ := bind_eq_ok.mp done
    cases run.symm.trans (orTruncate_ok.mp again)

omit enough

/-- The name "b.a" is appended behind "a", with a pointer to it. -/
theorem append_name_fits_iff_suffix : ∃ start q,
    dnsPacketAppendName roomyEnv (cstr "b.a") true true (after (dnsPacketAppendName roomyEnv (cstr "a") true true newPacket)) =
      .ok start q := by
  have readA : dnsLabelUnescape (cstr "a") dnsLabelMax {} = .ok (cstr "a", []) := by decide +kernel
  have readB : dnsLabelUnescape (cstr "b.a") dnsLabelMax {} = .ok (cstr "b", cstr "a") := by decide +kernel
  have labelsA : Labels (cstr "a") [cstr "a"] := .cons readA (by decide) (Labels.nil_iff.mpr (.inl rfl))
  have fresh : Fresh newPacket := ⟨by decide, by decide +kernel, rfl⟩
  have ran : succeeds (dnsPacketAppendName roomyEnv (cstr "a") true true newPacket) = true := by decide +kernel
  obtain ⟨start, p, first⟩ := succeeds_iff.mp ran
  have enough : ¬ OutOfMemory roomyEnv p := by
    rintro ⟨_, _, fails⟩
    cases fails
  obtain ⟨-, _, _, _, -, tracked, -⟩ := name_tracked _ fresh.tracked labelsA first
  have facts : returns (dnsPacketAppendName roomyEnv (cstr "a") true true newPacket) (fun _ p =>
      decide (p.size + 5 ≤ dnsPacketSizeMax p ∧ hashmapGet roomyEnv p.names (cstr "b.a") = none ∧
        hashmapGet roomyEnv p.names (cstr "a") = some 12)) = true := by decide +kernel
  rw [first] at facts ⊢
  obtain ⟨room, noB, isA⟩ := of_decide_eq_true facts
  refine (append_name_fits_iff enough tracked.namesKnown (.cons readB (by decide) labelsA) room).mpr ?_
  rintro ⟨-, ⟨-, hit, -⟩ | ⟨-, -, again, ⟨-, hit, far⟩ | ⟨-, miss, -⟩⟩⟩
  · cases noB.symm.trans hit
  · cases readB.symm.trans again
    cases isA.symm.trans hit
    omega
  · cases readB.symm.trans again
    cases isA.symm.trans miss

/-- The name "a" is appended at offset 0x4000, and cannot be appended again. -/
theorem append_name_twice : ∃ p, dnsPacketNew roomyEnv .dns 0 65535 = .ok p ∧
    let q := after ((AppendCall.blob (List.replicate 16372 0)).run roomyEnv p)
    let r := after (dnsPacketAppendName roomyEnv [97] true true q)
    succeeds (dnsPacketAppendName roomyEnv [97] true true q) = true ∧ r.size = 16387 ∧ dnsPacketSizeMax r = 65535 ∧
      succeeds (dnsPacketAppendName roomyEnv [97] true true r) = false :=
  ⟨_, rfl, by decide +kernel⟩

end Append

/-! ## Reading -/

theorem NameAt.behind_le {m : Cells UInt8} {b o e : Nat} {ls : List CString} {offs : List Nat} {ptr : Option Nat}
    {msg : DnsMessage} (at_ : NameAt m b o ls offs ptr e) (shows : Shows m msg.bytes) : e ≤ msg.bytes.length := by
  induction at_ with
  | root zero => exact zero.inside shows (by simp)
  | label _ _ _ _ ih => exact ih
  | pointer _ _ _ bytes _ _ => exact bytes.inside shows (by simp [be16])

/-- Reading a name stays inside the packet, and does not move if it fails.  The name that it returns can be
sent just if the labels at that place, with those that pointers lead to, take at most 255 bytes. -/
theorem read_name_valid_iff (msg : DnsMessage) (allow : Bool) (o : Nat) :
    (∀ e r, dnsPacketReadName msg allow o = .error e r → r = o) ∧
    ∀ name r, dnsPacketReadName msg allow o = .ok name r → o < r ∧ r ≤ msg.bytes.length ∧
      ∃ ls offs ptr, NameAt (fun i => msg.bytes[i]?) o o ls offs ptr r ∧ Labels name ls ∧
        ∀ len canonical, name.length + 2 ≤ len →
          ((∃ out, dnsNameToWireFormat name len canonical = .ok out) ↔ (wire canonical ls).length ≤ 255) := by
  constructor
  · intro e r failed
    unfold dnsPacketReadName rewinding at failed
    split at failed <;> simp_all
  · intro name r read
    obtain ⟨s, ls, offs, ptr, e, rfl, labels, at_, rfl⟩ := readNameLoop_at (rewinding_eq_ok.mp read)
    refine ⟨at_.behind_gt, at_.behind_le (fun _ _ cell => cell), ls, offs, ptr, at_, labels, ?_⟩
    intro len canonical large
    rw [toWireFormat_iff large]
    constructor
    · rintro ⟨ls', labels', short⟩
      rwa [← Labels.eq labels, labels'.eq]
    · exact fun short => ⟨ls, labels, short⟩

/-- Five labels of 63 bytes. -/
theorem read_name_too_long : returns
    (dnsPacketReadName ⟨.dns, false, List.replicate 12 0 ++ (List.replicate 5 (63 :: List.replicate 63 97)).flatten ++ [0]⟩
      true 12) (fun name _ => dnsNameToWireFormat name 1000 false = .error .einval) = true := by
  decide +kernel

end SystemdPort.Resolve
