/-
# Resolve.DnsRuns — any sequence of appends

Each call that appends to a packet keeps what is known of the names in it, so after any sequence of
calls every name is found where it was appended.
-/
import SystemdPort.Resolve.DnsNames

namespace SystemdPort.Resolve

set_option autoImplicit false

open Basic Lib Lib.Cells Lib.Exec Shared.Dns List

variable {d : CString} {pieces : List Piece} {e pos : Nat} {piece : Piece}

/-- A text whose labels `dns_label_unescape()` accepts. -/
def IsName (name : CString) : Prop := ∃ ls, Labels name ls

/-! ## The parts of a record -/

/-- The names that a call appends. -/
def Piece.names : Piece → List CString
  | .name n _ _ => [n]
  | _ => []

/-- A part of a record is in the packet, from `o` to `e`. -/
def PieceAt (m : Cells UInt8) (o e : Nat) : Piece → Prop
  | .uint8 v => HasAt m o [v] ∧ e = o + 1
  | .uint16 v => HasAt m o (be16 v.toNat) ∧ e = o + 2
  | .uint32 v => HasAt m o (be32 v.toNat) ∧ e = o + 4
  | .blob d => HasAt m o d ∧ e = o + d.length
  | .string s => s.length ≤ 255 ∧ HasAt m o (UInt8.ofNat s.length :: s) ∧ e = o + (s.length + 1)
  | .name n allowCompression _ => ∃ offs ptr, Spells m o o n offs ptr e ∧ (allowCompression = false → ptr = none)
  | .types b => HasAt m o (typesBytes b 0 0 (List.replicate 32 0)) ∧ e = o + (typesBytes b 0 0 (List.replicate 32 0)).length

/-- The parts of a record are in the packet one after the other. -/
def PiecesAt (m : Cells UInt8) : (o e : Nat) → List Piece → Prop
  | o, e, [] => e = o
  | o, e, piece :: pieces => ∃ next, PieceAt m o next piece ∧ PiecesAt m next e pieces

variable {m m' : Cells UInt8} {o : Nat}

theorem PieceAt.mono (at_ : PieceAt m o e piece) (le : Le m m') : PieceAt m' o e piece := by
  cases piece with
  | uint8 | uint16 | uint32 | blob | types => exact ⟨at_.1.mono le, at_.2⟩
  | string => exact ⟨at_.1, at_.2.1.mono le, at_.2.2⟩
  | name =>
    obtain ⟨offs, ptr, spells, plain⟩ := at_
    exact ⟨offs, ptr, spells.mono le, plain⟩

theorem PiecesAt.mono (at_ : PiecesAt m o e pieces) (le : Le m m') : PiecesAt m' o e pieces := by
  induction pieces generalizing o with
  | nil => exact at_
  | cons piece pieces ih =>
    obtain ⟨next, first, rest⟩ := at_
    exact ⟨next, first.mono le, ih rest⟩

theorem PieceAt.le (at_ : PieceAt m o e piece) : o ≤ e := by
  cases piece with
  | uint8 | uint16 | uint32 | blob | types =>
    rw [at_.2]
    exact Nat.le_add_right _ _
  | string =>
    rw [at_.2.2]
    exact Nat.le_add_right _ _
  | name =>
    obtain ⟨_, _, ⟨_, _, _, _, name⟩, _⟩ := at_
    exact name.behind_gt.le

theorem PiecesAt.le (at_ : PiecesAt m o e pieces) : o ≤ e := by
  induction pieces generalizing o with
  | nil => exact Nat.le_of_eq at_.symm
  | cons piece pieces ih =>
    obtain ⟨next, first, rest⟩ := at_
    exact first.le.trans (ih rest)

section Append

variable (env : Env) {m : Cells UInt8} {log more : List (Nat × CString)} {p q : DnsPacket}

/-- What is known after a call that appended the names `more`. -/
structure Extends (m m' : Cells UInt8) (log : List (Nat × CString)) (p q : DnsPacket) : Prop where
  agree : Agree p.size m m'
  size : p.size ≤ q.size
  tracked : Tracked m' log q

variable {m' : Cells UInt8} {log' : List (Nat × CString)} {flags : DnsAnswerFlags} (maxUdpSize : UInt16)
  (edns0Do includeRfc6975 ed25519 : Bool) (nsid : Option CString) (rcode : UInt16)

theorem Extends.trans {m'' : Cells UInt8} {r : DnsPacket} (first : Extends m m' log p q)
    (second : Extends m' m'' log' q r) : Extends m m'' log' p r :=
  ⟨first.agree.trans second.agree first.size, first.size.trans second.size, second.tracked⟩

theorem Extends.le (extends_ : Extends m m' log' p q) (tracked : Tracked m log p) :
    Le m m' := tracked.le extends_.agree

theorem bytes_tracked {n : Nat} (tracked : Tracked m log p) (run : dnsPacketExtend env d p = .ok n q) :
    n = p.size ∧ Extends m (m.put p.size d) log p q ∧ q.size = p.size + d.length := by
  obtain ⟨place, appended⟩ := extend_appended env tracked.buffer run
  exact ⟨place, ⟨put_agree _ _ _, appended.le_size, tracked.appended appended⟩, appended.size⟩

theorem piece_tracked (valid : ∀ n ∈ piece.names, IsName n) (tracked : Tracked m log p)
    (run : piece.append env p = .ok more q) :
    more.map (·.2) = piece.names ∧ ∃ m', Extends m m' (log ++ more) p q ∧ PieceAt m' p.size q.size piece := by
  -- all but the names are appended as bytes
  have plain : ∀ {d : CString} {n : Nat}, dnsPacketExtend env d p = .ok n q →
      ∃ m', Extends m m' (log ++ []) p q ∧ HasAt m' p.size d ∧ q.size = p.size + d.length := by
    intro d n run
    rw [append_nil]
    obtain ⟨_, extends_, size⟩ := bytes_tracked env tracked run
    exact ⟨_, extends_, put_hasAt _ _ _, size⟩
  cases piece with
  | uint8 _ | uint16 _ | uint32 _ | blob _ =>
    obtain ⟨_, _, run, done⟩ := bind_eq_ok.mp run
    cases done
    exact ⟨rfl, plain run⟩
  | string s =>
    obtain ⟨_, _, run, done⟩ := bind_eq_ok.mp run
    cases done
    obtain ⟨short, run⟩ := require_bind_eq_ok.mp run
    obtain ⟨m', extends_, bytes, size⟩ := plain run
    exact ⟨rfl, m', extends_, short, bytes, size⟩
  | name n allow canonicalCandidate =>
    obtain ⟨start, _, run, done⟩ := bind_eq_ok.mp run
    cases done
    obtain ⟨ls, labels⟩ := valid n (mem_singleton_self n)
    obtain ⟨rfl, m', offs, ptr, agree, tracked', spells, plain⟩ := name_tracked env tracked labels run
    have larger : p.size ≤ q.size := by
      obtain ⟨_, _, _, _, at_⟩ := spells
      exact at_.behind_gt.le
    exact ⟨rfl, m', ⟨agree, larger, tracked'⟩, offs, ptr, spells, plain⟩
  | types b =>
    obtain ⟨_, _, run, done⟩ := bind_eq_ok.mp run
    cases done
    have appended := types_appended env tracked.buffer run
    rw [append_nil]
    exact ⟨rfl, _, ⟨put_agree _ _ _, appended.le_size, tracked.appended appended⟩, put_hasAt _ _ _, appended.size⟩

theorem pieces_tracked (valid : ∀ n ∈ pieces.flatMap Piece.names, IsName n) (tracked : Tracked m log p)
    (run : appendPieces env pieces p = .ok more q) : more.map (·.2) = pieces.flatMap Piece.names ∧
      ∃ m', Extends m m' (log ++ more) p q ∧ PiecesAt m' p.size q.size pieces := by
  induction pieces generalizing m log p more with
  | nil =>
    cases run
    rw [append_nil]
    exact ⟨rfl, m, ⟨.refl _ m, le_rfl, tracked⟩, rfl⟩
  | cons piece pieces ih =>
    obtain ⟨names, p₁, first, run⟩ := bind_eq_ok.mp run
    obtain ⟨names', p₂, rest, run⟩ := bind_eq_ok.mp run
    cases run
    obtain ⟨same₁, m₁, extends₁, at₁⟩ := piece_tracked env (fun n mem => valid n (mem_append_left _ mem)) tracked first
    obtain ⟨same₂, m₂, extends₂, at₂⟩ := ih (fun n mem => valid n (mem_append_right _ mem)) extends₁.tracked rest
    rw [← append_assoc]
    refine ⟨by rw [map_append, same₁, same₂, flatMap_cons], ?_⟩
    exact ⟨m₂, extends₁.trans extends₂, p₁.size, at₁.mono (extends₂.le extends₁.tracked), at₂⟩

/-! ## Keys and records -/

/-- The class that is written for a key. -/
def writtenClass (k : DnsResourceKey) (flags : DnsAnswerFlags) : UInt16 :=
  if flags.cacheFlush then k.class ||| mdnsRrCacheFlushOrQu else k.class

/-- A key is in the packet, from `o` to `e`. -/
def KeyAt (m : Cells UInt8) (o e : Nat) (k : DnsResourceKey) (flags : DnsAnswerFlags) : Prop :=
  ∃ offs ptr next, Spells m o o (dnsResourceKeyName k) offs ptr next ∧
    HasAt m next (be16 k.type.toNat) ∧ HasAt m (next + 2) (be16 (writtenClass k flags).toNat) ∧ e = next + 4

theorem key_tracked {k : DnsResourceKey} {start : Nat} (valid : IsName (dnsResourceKeyName k))
    (tracked : Tracked m log p) (run : dnsPacketAppendKey env k flags p = .ok start q) :
    start = p.size ∧ ∃ m', Extends m m' (log ++ [(p.size, dnsResourceKeyName k)]) p q ∧ KeyAt m' p.size q.size k flags := by
  rw [dnsPacketAppendKey, get_bind] at run
  obtain ⟨_, p₁, run, done⟩ := bind_eq_ok.mp run
  cases done
  rw [orTruncate_ok] at run
  obtain ⟨start, p₁, name, run⟩ := bind_eq_ok.mp run
  obtain ⟨_, p₂, type, run⟩ := bind_eq_ok.mp run
  obtain ⟨_, p₃, klass, done⟩ := bind_eq_ok.mp run
  cases done
  obtain ⟨ls, labels⟩ := valid
  obtain ⟨rfl, m₁, offs, ptr, agree, tracked₁, spells, _⟩ := name_tracked env tracked labels name
  have larger : p.size ≤ p₁.size := by
    obtain ⟨_, _, _, _, at_⟩ := spells
    exact at_.behind_gt.le
  obtain ⟨_, extends₂, size₂⟩ := bytes_tracked env tracked₁ type
  obtain ⟨_, extends₃, size₃⟩ := bytes_tracked env extends₂.tracked klass
  have size₂ : p₂.size = p₁.size + 2 := size₂
  have size₃ : q.size = p₂.size + 2 := size₃
  have le₂ := extends₂.le tracked₁
  have le₃ := extends₃.le extends₂.tracked
  have extends₁ : Extends m m₁ (log ++ [(p.size, dnsResourceKeyName k)]) p p₁ := ⟨agree, larger, tracked₁⟩
  refine ⟨rfl, _, (extends₁.trans extends₂).trans extends₃, offs, ptr, p₁.size,
    spells.mono (le₂.trans le₃), (put_hasAt _ _ _).mono le₃, ?_, by omega⟩
  rw [← size₂]
  exact put_hasAt _ _ _

theorem store_shows (buffer : p.size ≤ p.data.length) (inside : pos + d.length ≤ p.size) (shows : Shows m p.bytes) :
    Shows (m.put pos d) (p.store pos d).bytes := by
  have start : (p.data.take pos).length = pos := by
    rw [length_take]
    omega
  intro i a cell
  show ((p.data.take pos ++ d ++ p.data.drop (pos + d.length)).take p.size)[i]? = some a
  unfold Cells.put at cell
  split at cell
  · rw [getElem?_take_of_lt (by omega), getElem?_append_left (by rw [length_append, start]; omega),
      getElem?_append_right (by omega), start]
    exact cell
  · have old := shows i a cell
    have used : i < p.size := by
      have := (List.getElem?_eq_some_iff.mp old).1
      rwa [bytes_length buffer] at this
    unfold DnsPacket.bytes at old
    rw [getElem?_take_of_lt used] at old ⊢
    by_cases before : i < pos
    · rwa [append_assoc, getElem?_append_left (by omega), getElem?_take_of_lt before]
    · rw [getElem?_append_right (by rw [length_append, start]; omega), length_append, start, getElem?_drop]
      rw [← old]
      congr 1
      omega

theorem store_size (buffer : p.size ≤ p.data.length) (inside : pos + d.length ≤ p.size) :
    (p.store pos d).size ≤ (p.store pos d).data.length := by
  show p.size ≤ (p.data.take pos ++ d ++ p.data.drop (pos + d.length)).length
  rw [length_append, length_append, length_take, length_drop]
  omega

theorem put_le (free : ∀ i, pos ≤ i → i < pos + d.length → m i = none) : Le m (m.put pos d) := by
  intro i a cell
  unfold Cells.put
  rw [if_neg]
  · exact cell
  · rintro ⟨low, high⟩
    rw [free i low high] at cell
    cases cell

/-- A record is in the packet, from `o` to `e`. -/
def RrAt (m : Cells UInt8) (o e : Nat) (rr : DnsResourceRecord) (flags : DnsAnswerFlags) : Prop :=
  ∃ next, KeyAt m o next rr.key flags ∧ HasAt m next (be32 (if flags.goodbye then 0 else rr.ttl).toNat) ∧
    HasAt m (next + 4) (be16 (e - (next + 6))) ∧ next + 6 ≤ e ∧ e - (next + 6) ≤ 0xFFFF ∧
    PiecesAt m (next + 6) e (rdataPieces rr)

/-- The names of a record. -/
def rrNames (rr : DnsResourceRecord) : List CString :=
  dnsResourceKeyName rr.key :: (rdataPieces rr).flatMap Piece.names

theorem rr_tracked {rr : DnsResourceRecord} {appended : AppendedRr} (valid : ∀ n ∈ rrNames rr, IsName n)
    (tracked : Tracked m log p) (run : dnsPacketAppendRr env rr flags p = .ok appended q) :
    appended.start = p.size ∧ appended.names.map (·.2) = rrNames rr ∧
      ∃ m', Extends m m' (log ++ appended.names) p q ∧ RrAt m' p.size q.size rr flags := by
  obtain ⟨start, rdlengthOffset, p₁, names, p₂, head, pieces, patch, rfl⟩ := rr_ok env run
  refine ⟨rfl, ?_⟩
  obtain ⟨start', p₃, key, head⟩ := bind_eq_ok.mp head
  obtain ⟨_, p₄, ttl, head⟩ := bind_eq_ok.mp head
  obtain ⟨offset, p₅, rdlength, head⟩ := bind_eq_ok.mp head
  cases head
  obtain ⟨rfl, m₁, extends₁, keyAt⟩ := key_tracked env (valid _ mem_cons_self) tracked key
  obtain ⟨_, extends₂, size₂⟩ := bytes_tracked env extends₁.tracked ttl
  -- the length is not known yet
  obtain ⟨rfl, unknown⟩ := extend_appended env extends₂.tracked.buffer rdlength
  have size₂ : p₄.size = p₃.size + 4 := size₂
  have size₃ : p₁.size = p₄.size + 2 := unknown.size
  have extends₃ : Extends (m₁.put p₃.size _) (m₁.put p₃.size _) _ p₄ p₁ :=
    ⟨.refl _ _, unknown.le_size, extends₂.tracked.unknown unknown⟩
  obtain ⟨same, m₂, extends₄, piecesAt⟩ :=
    pieces_tracked env (fun n mem => valid n (mem_cons_of_mem _ mem)) extends₃.tracked pieces
  refine ⟨by rw [map_cons, same, rrNames], ?_⟩
  obtain ⟨fits, a, k, rfl, _, _⟩ := patchRdlength_ok env patch
  have extends₅ := ((extends₁.trans extends₂).trans extends₃).trans extends₄
  have length : (be16 (p₂.size - p₄.size - 2)).length = 2 := rfl
  have larger := extends₄.size
  have inside : p₄.size + (be16 (p₂.size - p₄.size - 2)).length ≤ p₂.size := by omega
  have free : ∀ i, p₄.size ≤ i → i < p₄.size + (be16 (p₂.size - p₄.size - 2)).length → m₂ i = none := by
    intro i low high
    rw [extends₄.agree i (by omega)]
    cases known : (m₁.put p₃.size (be32 (if flags.goodbye then 0 else rr.ttl).toNat)) i with
    | none => rfl
    | some b =>
      have := (List.getElem?_eq_some_iff.mp (extends₂.tracked.shows i b known)).1
      rw [bytes_length extends₂.tracked.buffer] at this
      omega
  have le := put_le free
  have tracked₅ := extends₅.tracked
  refine ⟨m₂.put p₄.size (be16 (p₂.size - p₄.size - 2)), ⟨?_, extends₅.size, ?_⟩, ?_⟩
  · intro i before
    have low := extends₁.size
    rw [put_agree m₂ p₄.size _ i (by omega)]
    exact extends₅.agree i before
  · have whole : log ++ ((p.size, dnsResourceKeyName rr.key) :: names) =
        log ++ [(p.size, dnsResourceKeyName rr.key)] ++ names := by simp
    rw [whole]
    refine tracked₅.more le ?_ (store_shows tracked₅.buffer inside tracked₅.shows) (store_size tracked₅.buffer inside)
      le_rfl rfl rfl
    intro i low
    have header := tracked.header
    have low₁ := extends₁.size
    rw [put_agree m₂ p₄.size _ i (by omega)]
    exact tracked₅.clear i low
  · have lift₂ : Le m₁ (m₂.put p₄.size (be16 (p₂.size - p₄.size - 2))) :=
      ((extends₂.le extends₁.tracked).trans (extends₄.le extends₃.tracked)).trans le
    refine ⟨p₃.size, ?_, ?_, ?_, ?_, ?_, ?_⟩
    · obtain ⟨offs, ptr, next, spells, type, klass, behind⟩ := keyAt
      exact ⟨offs, ptr, next, spells.mono lift₂, type.mono lift₂, klass.mono lift₂, behind⟩
    · exact (put_hasAt _ _ _).mono ((extends₄.le extends₃.tracked).trans le)
    · show HasAt _ (p₃.size + 4) (be16 (p₂.size - (p₃.size + 6)))
      rw [show p₂.size - (p₃.size + 6) = p₂.size - p₄.size - 2 by omega, ← size₂]
      exact put_hasAt _ _ _
    · show p₃.size + 6 ≤ p₂.size
      omega
    · show p₂.size - (p₃.size + 6) ≤ _
      omega
    · rw [show p₃.size + 6 = p₁.size by omega]
      exact piecesAt.mono le

/-! ## Calls -/

/-- A call that appends names keeps what is known, if they are names. -/
def Tracks (x : PacketM (List (Nat × CString))) (names : List CString) : Prop :=
  (∀ n ∈ names, IsName n) → ∀ {m : Cells UInt8} {log more : List (Nat × CString)} {p q : DnsPacket},
    Tracked m log p → x p = .ok more q → more.map (·.2) = names ∧ ∃ m', Extends m m' (log ++ more) p q

theorem tracks_nil : Tracks (pure []) [] := by
  intro _ m log more p q tracked run
  cases run
  rw [append_nil]
  exact ⟨rfl, m, .refl _ m, le_rfl, tracked⟩

/-- One call and then others. -/
theorem Tracks.append {x y : PacketM (List (Nat × CString))} {names names' : List CString} (first : Tracks x names)
    (second : Tracks y names') : Tracks (do let a ← x; let b ← y; return a ++ b) (names ++ names') := by
  intro valid m log more p q tracked run
  obtain ⟨a, p₁, runX, run⟩ := bind_eq_ok.mp run
  obtain ⟨b, p₂, runY, run⟩ := bind_eq_ok.mp run
  cases run
  obtain ⟨same₁, m₁, extends₁⟩ := first (fun n mem => valid n (mem_append_left _ mem)) tracked runX
  obtain ⟨same₂, m₂, extends₂⟩ := second (fun n mem => valid n (mem_append_right _ mem)) extends₁.tracked runY
  rw [append_assoc] at extends₂
  exact ⟨by rw [map_append, same₁, same₂], m₂, extends₁.trans extends₂⟩

theorem tracks_bytes {α : Type} {x : PacketM α}
    (bytes : ∀ {p q : DnsPacket} {a : α}, p.size ≤ p.data.length → x p = .ok a q → ∃ d, Appended d p q) :
    Tracks (do let _ ← x; return []) [] := by
  intro _ m log more p q tracked run
  obtain ⟨_, _, run, done⟩ := bind_eq_ok.mp run
  cases done
  obtain ⟨d, appended⟩ := bytes tracked.buffer run
  rw [append_nil]
  exact ⟨rfl, _, put_agree m p.size d, appended.le_size, tracked.appended appended⟩

theorem tracks_piece (piece : Piece) : Tracks (piece.append env) piece.names := by
  intro valid m log more p q tracked run
  obtain ⟨same, m', extends_, _⟩ := piece_tracked env valid tracked run
  exact ⟨same, m', extends_⟩

theorem tracks_pieces (pieces : List Piece) : Tracks (appendPieces env pieces) (pieces.flatMap Piece.names) := by
  intro valid m log more p q tracked run
  obtain ⟨same, m', extends_, _⟩ := pieces_tracked env valid tracked run
  exact ⟨same, m', extends_⟩

theorem tracks_key (k : DnsResourceKey) (flags : DnsAnswerFlags) :
    Tracks (do let start ← dnsPacketAppendKey env k flags; return [(start, dnsResourceKeyName k)])
      [dnsResourceKeyName k] := by
  intro valid m log more p q tracked run
  obtain ⟨start, _, run, done⟩ := bind_eq_ok.mp run
  cases done
  obtain ⟨rfl, m', extends_, _⟩ := key_tracked env (valid _ (mem_singleton_self _)) tracked run
  exact ⟨rfl, m', extends_⟩

theorem tracks_rr (rr : DnsResourceRecord) (flags : DnsAnswerFlags) :
    Tracks (do let appended ← dnsPacketAppendRr env rr flags; return appended.names) (rrNames rr) := by
  intro valid m log more p q tracked run
  obtain ⟨appended, _, run, done⟩ := bind_eq_ok.mp run
  cases done
  obtain ⟨_, same, m', extends_, _⟩ := rr_tracked env valid tracked run
  exact ⟨same, m', extends_⟩

theorem tracks_question (keys : List DnsResourceKey) :
    Tracks (dnsPacketAppendQuestion env keys) (keys.map dnsResourceKeyName) := by
  induction keys with
  | nil => exact tracks_nil
  | cons key keys ih =>
    have tracks := (tracks_key env key {}).append ih
    simp only [bind_assoc] at tracks
    exact tracks

theorem tracks_answer (answer : List (DnsResourceRecord × DnsAnswerFlags)) :
    Tracks (dnsPacketAppendAnswer env answer) (answer.flatMap (rrNames ·.1)) := by
  induction answer with
  | nil => exact tracks_nil
  | cons item answer ih =>
    have tracks := (tracks_rr env item.1 item.2).append ih
    simp only [bind_assoc] at tracks
    exact tracks

theorem tracks_optBody : Tracks (appendOptBody env maxUdpSize edns0Do includeRfc6975 ed25519 nsid rcode) [] := by
  intro valid m log more p q tracked run
  obtain ⟨names, p₁, first, run⟩ := bind_eq_ok.mp run
  obtain ⟨same, m₁, extends₁⟩ := tracks_pieces env _ (by simp [Piece.names]) tracked first
  obtain rfl : names = [] := map_eq_nil_iff.mp same
  rw [append_nil] at extends₁
  have rest : more.map (·.2) = [] ∧ ∃ m', Extends m₁ m' (log ++ more) p₁ q := by
    split at run
    · exact tracks_pieces env _ (by simp [Piece.names]) extends₁.tracked run
    · split at run
      · obtain ⟨_, run⟩ := require_bind_eq_ok.mp run
        exact tracks_pieces env _ (by simp [Piece.names]) extends₁.tracked run
      · exact tracks_pieces env _ (by simp [Piece.names]) extends₁.tracked run
  obtain ⟨same', m₂, extends₂⟩ := rest
  exact ⟨same', m₂, extends₁.trans extends₂⟩

theorem tracks_opt :
    Tracks (do let _ ← dnsPacketAppendOpt env maxUdpSize edns0Do includeRfc6975 ed25519 nsid rcode; return []) [] := by
  intro valid m log more p q tracked run
  obtain ⟨_, _, run, done⟩ := bind_eq_ok.mp run
  cases done
  obtain ⟨_, run⟩ := require_bind_eq_ok.mp run
  obtain ⟨_, p₁, root, run⟩ := bind_eq_ok.mp run
  obtain ⟨names, p₂, body, run⟩ := bind_eq_ok.mp run
  rw [orTruncate_ok] at body
  cases run
  obtain ⟨_, extends₁, _⟩ := bytes_tracked env tracked root
  obtain ⟨same, m₂, extends₂⟩ := tracks_optBody env _ _ _ _ _ _ valid extends₁.tracked body
  obtain rfl : names = [] := map_eq_nil_iff.mp same
  have tracked₂ := extends₂.tracked
  -- the number of records is in the header, of which nothing is known
  have inside : 10 + (be16 (p₂.arcount + 1)).length ≤ p₂.size := tracked₂.header
  have free : ∀ i, 10 ≤ i → i < 10 + (be16 (p₂.arcount + 1)).length → m₂ i = none :=
    fun i _ high => tracked₂.clear i high
  have shows : Shows m₂ (p₂.store 10 (be16 (p₂.arcount + 1))).bytes :=
    fun i a cell => store_shows tracked₂.buffer inside tracked₂.shows i a (put_le free i a cell)
  have whole := extends₁.trans extends₂
  exact ⟨rfl, m₂, whole.agree, whole.size,
    tracked₂.more (.refl m₂) tracked₂.clear shows (store_size tracked₂.buffer inside) le_rfl rfl rfl⟩

/-- The names that a call appends. -/
def AppendCall.names : AppendCall → List CString
  | .name n _ _ => [n]
  | .key k _ => [dnsResourceKeyName k]
  | .rr record _ => rrNames record
  | .question keys => keys.map dnsResourceKeyName
  | .answer rrs => rrs.flatMap (rrNames ·.1)
  | _ => []

theorem tracks_call (call : AppendCall) : Tracks (call.run env) call.names := by
  cases call with
  | blob d => exact tracks_piece env (.blob d)
  | uint8 v => exact tracks_piece env (.uint8 v)
  | uint16 v => exact tracks_piece env (.uint16 v)
  | uint32 v => exact tracks_piece env (.uint32 v)
  | string s => exact tracks_piece env (.string s)
  | rawString s =>
    apply tracks_bytes
    intro p q a buffer run
    obtain ⟨_, run⟩ := require_bind_eq_ok.mp run
    exact ⟨_, (extend_appended env buffer run).2⟩
  | label d canonicalCandidate =>
    apply tracks_bytes
    intro p q a buffer run
    obtain ⟨_, l, _, _, appended⟩ := label_appended env buffer run
    exact ⟨_, appended⟩
  | name n allowCompression canonicalCandidate => exact tracks_piece env (.name n allowCompression canonicalCandidate)
  | key k flags => exact tracks_key env k flags
  | rr rr flags => exact tracks_rr env rr flags
  | opt maxUdpSize edns0Do includeRfc6975 ed25519 nsid rcode => exact tracks_opt env _ _ _ _ _ _
  | question keys => exact tracks_question env keys
  | answer rrs => exact tracks_answer env rrs

/-- A sequence of calls; the names that they append are returned with their offsets. -/
def appendAll : List AppendCall → PacketM (List (Nat × CString))
  | [] => return []
  | call :: calls => do
      let names ← call.run env
      let more ← appendAll calls
      return names ++ more

theorem tracks_all (calls : List AppendCall) : Tracks (appendAll env calls) (calls.flatMap AppendCall.names) := by
  induction calls with
  | nil => exact tracks_nil
  | cons call calls ih =>
    exact (tracks_call env call).append ih

/-- A packet with a header that no names are recorded for. -/
structure Fresh (p : DnsPacket) : Prop where
  header : dnsPacketHeaderSize ≤ p.size
  buffer : p.size ≤ p.data.length
  names : p.names = []

theorem Fresh.tracked (fresh : Fresh p) : Tracked Cells.empty [] p where
  header := fresh.header
  buffer := fresh.buffer
  shows := by
    intro i a cell
    cases cell
  clear := fun _ _ => rfl
  recorded := by simp [fresh.names]
  written := by simp

theorem fresh_of_new {protocol : DnsProtocol} {minAllocDsize maxSize : Nat} (large : dnsPacketHeaderSize ≤ maxSize)
    (new : dnsPacketNew env protocol minAllocDsize maxSize = .ok p) : Fresh p := by
  unfold dnsPacketNew at new
  have page := le_pageAlign env.pageSize_pos
    (env.structSize + if minAllocDsize < dnsPacketHeaderSize then dnsPacketSizeStart else minAllocDsize)
  have enough : dnsPacketHeaderSize ≤ if minAllocDsize < dnsPacketHeaderSize then dnsPacketSizeStart else minAllocDsize := by
    split
    · decide
    · omega
  have limit : dnsPacketHeaderSize ≤ dnsPacketSizeMaximum := by decide
  split at new
  · cases new
  · dsimp only at new
    split at new
    · cases new
      refine ⟨le_rfl, ?_, rfl⟩
      rw [length_replicate]
      show dnsPacketHeaderSize ≤ _
      omega
    · cases new

/-- After any sequence of calls whose names have labels, every name is found where it was appended,
and every pointer leads to a label of an earlier name. -/
theorem append_read_back {calls : List AppendCall} (fresh : Fresh p)
    (valid : ∀ call ∈ calls, ∀ n ∈ call.names, IsName n) (run : appendAll env calls p = .ok log q) :
    log.map (·.2) = calls.flatMap AppendCall.names ∧ ∀ w ∈ log,
      (∃ name e, dnsPacketReadName q.message true w.1 = .ok name e ∧ dnsNameEqual name w.2 = .ok true) ∧
      ∀ t, (nameLayout q.message w.1).2 = some t →
        t < w.1 ∧ ∃ v ∈ log, v.1 < w.1 ∧ t ∈ (nameLayout q.message v.1).1 := by
  obtain ⟨names, m, extends_⟩ := tracks_all env calls
    (fun n mem => by
      obtain ⟨call, here, mem⟩ := mem_flatMap.mp mem
      exact valid call here n mem)
    fresh.tracked run
  refine ⟨names, ?_⟩
  have tracked := extends_.tracked
  have shows : Shows m q.message.bytes := tracked.shows
  intro w mem
  obtain ⟨_, offs, ptr, e, ⟨ls, ls', labels, same, at_⟩, plain, back⟩ := tracked.written w mem
  constructor
  · have allowed : (true && !q.message.refuseCompression) = true ∨ ptr = none := by
      cases refuse : q.refuseCompression with
      | true => exact .inr (plain refuse)
      | false => exact .inl (by simp [DnsPacket.message, refuse])
    obtain ⟨name, read, found⟩ := at_.read shows allowed
    refine ⟨name, e, read, ?_⟩
    rw [found.equal labels, same]
    simp
  · intro t points
    rw [at_.layout shows] at points
    refine ⟨at_.pointer_lt points, ?_⟩
    obtain ⟨v, earlier, before, lv, offsets, pv, ev, there, inside⟩ := back t points
    refine ⟨v, earlier, before, ?_⟩
    rwa [there.layout shows]

/-- What `dns_packet_new()` makes, for packets of at most 512 bytes. -/
def newPacket : DnsPacket :=
  { protocol := .dns, data := List.replicate 512 0, size := 12, allocated := 512, maxSize := 512, nAllocs := 1 }

/-- "b.c", and then "a.B.c", of which only the first label is written out. -/
theorem append_read_back_suffix : dnsPacketNew roomyEnv .dns 0 512 = .ok newPacket ∧
    ∃ q, appendAll roomyEnv [.name [98, 46, 99] true true, .name [97, 46, 66, 46, 99] true true] newPacket =
        .ok [(12, [98, 46, 99]), (17, [97, 46, 66, 46, 99])] q ∧
      (∃ name e, dnsPacketReadName q.message true 17 = .ok name e ∧ dnsNameEqual name [97, 46, 66, 46, 99] = .ok true) ∧
      (nameLayout q.message 17).2 = some 12 := by
  have new : dnsPacketNew roomyEnv .dns 0 512 = .ok newPacket := by decide +kernel
  refine ⟨new, ?_⟩
  obtain ⟨log, q, run, facts⟩ := returns_iff.mp (by decide +kernel :
    returns (appendAll roomyEnv [.name [98, 46, 99] true true, .name [97, 46, 66, 46, 99] true true] newPacket)
      (fun log q => log = [(12, [98, 46, 99]), (17, [97, 46, 66, 46, 99])] ∧ (nameLayout q.message 17).2 = some 12) = true)
  obtain ⟨rfl, pointer⟩ := of_decide_eq_true facts
  have last : Labels [99] [[99]] :=
    .cons (by decide +kernel : dnsLabelUnescape [99] dnsLabelMax {} = .ok ([99], [])) (by decide)
      (Labels.nil_iff.mpr (.inl rfl))
  have first : Labels [98, 46, 99] [[98], [99]] :=
    .cons (by decide +kernel : dnsLabelUnescape [98, 46, 99] dnsLabelMax {} = .ok ([98], [99])) (by decide) last
  have second : Labels [97, 46, 66, 46, 99] [[97], [66], [99]] :=
    .cons (by decide +kernel : dnsLabelUnescape [97, 46, 66, 46, 99] dnsLabelMax {} = .ok ([97], [66, 46, 99])) (by decide)
      (.cons (by decide +kernel : dnsLabelUnescape [66, 46, 99] dnsLabelMax {} = .ok ([66], [99])) (by decide) last)
  have found := (append_read_back roomyEnv (fresh_of_new roomyEnv (by decide) new)
    (by
      intro call mem n name
      simp only [mem_cons, not_mem_nil, or_false] at mem
      rcases mem with rfl | rfl
      · obtain rfl := mem_singleton.mp name
        exact ⟨_, first⟩
      · obtain rfl := mem_singleton.mp name
        exact ⟨_, second⟩)
    run).2 (17, [97, 46, 66, 46, 99]) (by decide)
  exact ⟨q, run, found.1, pointer⟩

/-- "a.b\\", whose second label is not valid: the hash table takes that label for the name that was
just recorded, so the name ends with a pointer to its own beginning and cannot be read. -/
theorem append_points_to_itself : dnsPacketNew roomyEnv .dns 0 512 = .ok newPacket ∧
    ∃ q, appendAll roomyEnv [.name [97, 46, 98, 92] true true] newPacket = .ok [(12, [97, 46, 98, 92])] q ∧
      succeeds (dnsPacketReadName q.message true 12) = false ∧ (nameLayout q.message 12).2 = some 12 := by
  refine ⟨by decide +kernel, ?_⟩
  obtain ⟨log, q, run, facts⟩ := returns_iff.mp (by decide +kernel :
    returns (appendAll roomyEnv [.name [97, 46, 98, 92] true true] newPacket)
      (fun log q => log = [(12, [97, 46, 98, 92])] ∧ succeeds (dnsPacketReadName q.message true 12) = false ∧
        (nameLayout q.message 12).2 = some 12) = true)
  obtain ⟨rfl, unreadable, pointer⟩ := of_decide_eq_true facts
  exact ⟨q, run, unreadable, pointer⟩

end Append

end SystemdPort.Resolve
