/-
# Resolve.DnsTypes — type bitmaps are read as they were written

NSEC and NSEC3 records have a set of types, which is written in windows of 256 types each, up to the
last byte of each window that has a bit.  `dns_packet_append_types()` goes through the types and
writes a window when it comes to the first type of another one; what is left to be read at that
point are the types in the window and those behind them.
-/
import SystemdPort.Resolve.DnsReads

namespace SystemdPort.Resolve

set_option autoImplicit false

open Basic Lib Lib.Cells Lib.Exec List UInt8

variable {types : Bitmap} {bitmap : CString} {bit n r saved window : Nat}

/-! ## Sets of types -/

/-- The bitmaps that are read: in order, and without pseudo types. -/
structure GoodTypes (types : Bitmap) : Prop where
  sorted : types.Pairwise (· < ·)
  proper : ∀ n ∈ types, n < 65536 ∧ dnsTypeIsPseudo n = false

theorem GoodTypes.nil : GoodTypes [] := ⟨.nil, by simp⟩

variable {k e size o : Nat} {msg : DnsMessage} {P : Option Bitmap → Prop} {m : Cells UInt8} (b : UInt8)

@[simp] theorem mem_bitmapSet : k ∈ bitmapSet n types ↔ k = n ∨ k ∈ types := by
  induction types with
  | nil => simp [bitmapSet]
  | cons a types ih =>
    unfold bitmapSet
    split
    · simp
    · split
      · rename_i same
        simp [same]
      · rw [mem_cons, mem_cons]
        tauto

theorem bitmapSet_sorted (n : Nat) (sorted : types.Pairwise (· < ·)) : (bitmapSet n types).Pairwise (· < ·) := by
  induction types with
  | nil => simp [bitmapSet]
  | cons a types ih =>
    obtain ⟨first, rest⟩ := pairwise_cons.mp sorted
    unfold bitmapSet
    split
    · rename_i before
      exact pairwise_cons.mpr ⟨forall_mem_cons.mpr ⟨before, fun k mem => before.trans (first k mem)⟩, sorted⟩
    · split
      · exact sorted
      · refine pairwise_cons.mpr ⟨?_, ih rest⟩
        intro k mem
        rcases mem_bitmapSet.mp mem with rfl | mem
        · omega
        · exact first k mem

theorem GoodTypes.set (good : GoodTypes types) (small : n < 65536) (proper : dnsTypeIsPseudo n = false) :
    GoodTypes (bitmapSet n types) := by
  refine ⟨bitmapSet_sorted n good.sorted, ?_⟩
  intro k mem
  rcases mem_bitmapSet.mp mem with rfl | mem
  · exact ⟨small, proper⟩
  · exact good.proper k mem

/-! ## Bits -/

/-- The bit for `j` in a bitmap. -/
def bitAt (bitmap : CString) (j : Nat) : Prop := bitmap.getD (j / 8) 0 &&& ofNat (2 ^ (7 - j % 8)) ≠ 0

theorem byte_bit_or (k k' : Fin 8) : (b ||| ofNat (2 ^ (7 - k.val))) &&& ofNat (2 ^ (7 - k'.val)) ≠ 0 ↔
      b &&& ofNat (2 ^ (7 - k'.val)) ≠ 0 ∨ k' = k :=
  forall_byte (P := fun b => ∀ k k' : Fin 8,
    (b ||| ofNat (2 ^ (7 - k.val))) &&& ofNat (2 ^ (7 - k'.val)) ≠ 0 ↔
      b &&& ofNat (2 ^ (7 - k'.val)) ≠ 0 ∨ k' = k) (by decide +kernel) b k k'

theorem bitAt_zeros (j : Nat) : ¬ bitAt (List.replicate 32 0) j := by
  have zero : (List.replicate 32 (0 : UInt8)).getD (j / 8) 0 = 0 := by
    rw [getD_eq_getElem?_getD, getElem?_replicate]
    split <;> rfl
  unfold bitAt
  rw [zero]
  simp

theorem bitAt_set (length : bitmap.length = 32) (small : e < 256) (j : Nat) :
    bitAt (bitmap.set (e / 8) (bitmap.getD (e / 8) 0 ||| ofNat (2 ^ (7 - e % 8)))) j ↔ bitAt bitmap j ∨ j = e := by
  unfold bitAt
  rw [getD_eq_getElem?_getD, getElem?_set]
  by_cases here : e / 8 = j / 8
  · rw [if_pos here, if_pos (by omega), here]
    have bits := byte_bit_or (bitmap.getD (j / 8) 0) ⟨e % 8, by omega⟩ ⟨j % 8, by omega⟩
    have same : (⟨j % 8, by omega⟩ : Fin 8) = ⟨e % 8, by omega⟩ ↔ j = e := by
      rw [Fin.mk.injEq]
      omega
    rwa [same] at bits
  · rw [if_neg here]
    have other : j ≠ e := by
      rintro rfl
      exact here rfl
    simp [other]

theorem bitAt_cons (bitmap : CString) (j : Nat) :
    bitAt (b :: bitmap) j ↔ if j < 8 then b &&& ofNat (2 ^ (7 - j)) ≠ 0 else bitAt bitmap (j - 8) := by
  unfold bitAt
  split
  · rw [show j / 8 = 0 by omega, show j % 8 = j by omega]
    rfl
  · rw [show j / 8 = (j - 8) / 8 + 1 by omega, show j % 8 = (j - 8) % 8 by omega]
    rfl

theorem bitAt_take {j : Nat} (inside : j / 8 < k) : bitAt (bitmap.take k) j ↔ bitAt bitmap j := by
  unfold bitAt
  rw [getD_eq_getElem?_getD, getElem?_take_of_lt inside, ← getD_eq_getElem?_getD]

/-! ## Reading one window -/

/-- The type of a bit is put into the set, unless it is a pseudo type. -/
theorem mem_readTypeBits {b : UInt8} : n ∈ readTypeBits window bit b types ↔
      n ∈ types ∨ ∃ k < 8, b &&& ofNat (2 ^ (7 - k)) ≠ 0 ∧ dnsTypeIsPseudo n = false ∧ n = window * 256 + bit + k := by
  have step : ∀ (k : Nat) (types : Bitmap),
      (n ∈ if b &&& ofNat (2 ^ (7 - k)) ≠ 0 then
          if dnsTypeIsPseudo (window * 256 + bit + k) then types else bitmapSet (window * 256 + bit + k) types
        else types) ↔
      n ∈ types ∨ b &&& ofNat (2 ^ (7 - k)) ≠ 0 ∧ dnsTypeIsPseudo n = false ∧ n = window * 256 + bit + k := by
    intro k types
    split_ifs with set pseudo
    · constructor
      · exact .inl
      · rintro (old | ⟨_, proper, rfl⟩)
        · exact old
        · rw [pseudo] at proper
          cases proper
    · rw [mem_bitmapSet]
      constructor
      · rintro (rfl | old)
        · exact .inr ⟨set, by simpa using pseudo, rfl⟩
        · exact .inl old
      · rintro (old | ⟨_, _, rfl⟩)
        · exact .inr old
        · exact .inl rfl
    · simp [set]
  have fold : ∀ (ks : List Nat) (types : Bitmap),
      n ∈ ks.foldl (fun types k =>
        if b &&& ofNat (2 ^ (7 - k)) ≠ 0 then
          if dnsTypeIsPseudo (window * 256 + bit + k) then types else bitmapSet (window * 256 + bit + k) types
        else types) types ↔
      n ∈ types ∨ ∃ k ∈ ks, b &&& ofNat (2 ^ (7 - k)) ≠ 0 ∧ dnsTypeIsPseudo n = false ∧ n = window * 256 + bit + k := by
    intro ks
    induction ks with
    | nil => simp
    | cons k ks ih =>
      intro types
      rw [foldl_cons, ih, step, exists_mem_cons_iff, or_assoc]
  unfold readTypeBits
  rw [fold]
  simp

theorem mem_readTypeBytes {found : Bool} : n ∈ (readTypeBytes window bitmap bit found types).2 ↔
      n ∈ types ∨ ∃ j < 8 * bitmap.length, bitAt bitmap j ∧ dnsTypeIsPseudo n = false ∧ n = window * 256 + bit + j := by
  induction bitmap generalizing bit found types with
  | nil => simp [readTypeBytes]
  | cons b bitmap ih =>
    have rest : (∃ j < 8 * (b :: bitmap).length, bitAt (b :: bitmap) j ∧ dnsTypeIsPseudo n = false ∧ n = window * 256 + bit + j) ↔
        (∃ k < 8, b &&& ofNat (2 ^ (7 - k)) ≠ 0 ∧ dnsTypeIsPseudo n = false ∧ n = window * 256 + bit + k) ∨
        ∃ j < 8 * bitmap.length, bitAt bitmap j ∧ dnsTypeIsPseudo n = false ∧ n = window * 256 + (bit + 8) + j := by
      constructor
      · rintro ⟨j, inside, set, proper, rfl⟩
        rw [bitAt_cons] at set
        rw [length_cons] at inside
        by_cases first : j < 8
        · rw [if_pos first] at set
          exact .inl ⟨j, first, set, proper, rfl⟩
        · rw [if_neg first] at set
          exact .inr ⟨j - 8, by omega, set, proper, by omega⟩
      · rintro (⟨k, first, set, proper, rfl⟩ | ⟨j, inside, set, proper, rfl⟩)
        · refine ⟨k, by rw [length_cons]; omega, ?_, proper, rfl⟩
          rwa [bitAt_cons, if_pos first]
        · refine ⟨j + 8, by rw [length_cons]; omega, ?_, proper, by omega⟩
          rwa [bitAt_cons, if_neg (by omega), Nat.add_sub_cancel]
    rw [rest, readTypeBytes]
    split
    · rename_i zero
      rw [ih]
      simp [zero]
    · rw [ih, mem_readTypeBits]
      exact or_assoc

section Good

theorem readTypeBits_good {b : UInt8} (good : GoodTypes types) (small : window * 256 + (bit + 8) ≤ 65536) :
    GoodTypes (readTypeBits window bit b types) := by
  apply List.foldlRecOn (motive := GoodTypes) _ _ good
  intro types good k mem
  have := mem_range.mp mem
  split
  · split
    · exact good
    · rename_i proper
      exact good.set (by omega) (by simpa using proper)
  · exact good

theorem readTypeBytes_good {found : Bool} (good : GoodTypes types)
    (small : window * 256 + (bit + 8 * bitmap.length) ≤ 65536) :
    GoodTypes (readTypeBytes window bitmap bit found types).2 := by
  induction bitmap generalizing bit found types with
  | nil => exact good
  | cons b bitmap ih =>
    rw [length_cons] at small
    rw [readTypeBytes]
    split
    · exact ih good (by omega)
    · exact ih (readTypeBits_good good (by omega)) (by omega)

variable {msg : DnsMessage}

variable {types' : Option Bitmap} {o : Nat}

theorem window_good {types : Option Bitmap} (good : GoodTypes (types.getD []))
    (read : dnsPacketReadTypeWindow msg types o = .ok types' r) : GoodTypes (types'.getD []) := by
  rw [dnsPacketReadTypeWindow, rewinding_eq_ok] at read
  obtain ⟨window, o₁, _, read⟩ := bind_eq_ok.mp read
  obtain ⟨length, o₂, _, read⟩ := bind_eq_ok.mp read
  obtain ⟨⟨_, short⟩, read⟩ := require_bind_eq_ok.mp read
  obtain ⟨bitmap, o₃, bytes, read⟩ := bind_eq_ok.mp read
  obtain ⟨_, read⟩ := require_bind_eq_ok.mp read
  cases read
  apply readTypeBytes_good good
  have size := (read_eq_ok bytes).2
  have limit : length.toNat ≤ 32 := le_iff_toNat_le.mp short
  have high := window.toNat_lt
  omega

theorem windowsLoop_good {size : Nat} {types : Option Bitmap} (good : GoodTypes (types.getD []))
    (read : readTypeWindowsLoop msg saved size types o = .ok types' r) : GoodTypes (types'.getD []) := by
  induction left : saved + size - o using Nat.strongRecOn generalizing types o with
  | ind k ih =>
    rw [readTypeWindowsLoop] at read
    split at read
    · split at read
      · cases read
      · rename_i types₁ o₁ window
        split at read
        · cases read
        · have := readTypeWindow_advances window
          exact ih _ (by omega) (window_good good window) read rfl
    · split at read
      · cases read
      · cases read
        exact good

end Good

/-! ## Reading what was written -/

theorem readTypeBytes_found {found : Bool} (nonempty : bitmap ≠ []) :
    (readTypeBytes window bitmap bit found types).1 = decide (bitmap.getLast nonempty ≠ 0) := by
  induction bitmap generalizing bit found types with
  | nil => exact absurd rfl nonempty
  | cons b bitmap ih =>
    rw [readTypeBytes]
    cases bitmap with
    | nil => split <;> simp_all [readTypeBytes]
    | cons => split <;> exact ih (cons_ne_nil _ _)

section At

variable {m : Cells UInt8} {msg : DnsMessage} {o e entry : Nat} {before : Option Bitmap} (shows : Shows m msg.bytes)

include shows

/-- A window that is read adds its types. -/
theorem readTypeWindow_at (small : window < 256) (low : entry < 256) (length : bitmap.length = 32)
    (filled : bitmap.getD (entry / 8) 0 ≠ 0) (bytes : HasAt m o (windowBytes true window entry bitmap)) :
    ∃ found, dnsPacketReadTypeWindow msg before o = .ok found (o + (entry / 8 + 3)) ∧
      ∀ n, n ∈ found.getD [] ↔ n ∈ before.getD [] ∨
        ∃ j < 8 * (entry / 8 + 1), bitAt bitmap j ∧ dnsTypeIsPseudo n = false ∧ n = window * 256 + j := by
  obtain ⟨first, rest⟩ := hasAt_cons.mp bytes
  obtain ⟨second, tail⟩ := hasAt_cons.mp rest
  have taken : (bitmap.take (entry / 8 + 1)).length = entry / 8 + 1 := by
    rw [length_take]
    omega
  have value : (ofNat window).toNat = window := by
    rw [byte_toNat]
    omega
  have count : (ofNat (entry / 8 + 1)).toNat = entry / 8 + 1 := by
    rw [byte_toNat]
    omega
  have nonempty : bitmap.take (entry / 8 + 1) ≠ [] := by simp [← length_pos_iff, length]
  have last : (bitmap.take (entry / 8 + 1)).getLast nonempty ≠ 0 := by
    rw [getLast_eq_getElem]
    simpa [show entry / 8 < bitmap.length by omega] using filled
  have data := read_at tail shows
  rw [taken] at data
  refine ⟨some (readTypeBytes window (bitmap.take (entry / 8 + 1)) 0 false (before.getD [])).2, ?_, ?_⟩
  · apply rewinding_eq_ok.mpr
    rw [bind_of_ok (readUint8_at (hasAt_cons.mpr ⟨first, .nil⟩) shows),
      bind_of_ok (readUint8_at (hasAt_cons.mpr ⟨second, .nil⟩) shows)]
    refine require_bind_eq_ok.mpr ⟨?_, ?_⟩
    · rw [ne_eq, ← UInt8.toNat_inj, le_iff_toNat_le, count]
      exact ⟨Nat.succ_ne_zero _, by show _ ≤ 32; omega⟩
    · rw [count, bind_of_ok data, value]
      refine require_bind_eq_ok.mpr ⟨?_, by rw [show o + (entry / 8 + 3) = o + 1 + 1 + (entry / 8 + 1) by omega]; rfl⟩
      rw [readTypeBytes_found nonempty]
      exact decide_eq_true last
  · intro n
    show n ∈ (readTypeBytes window (bitmap.take (entry / 8 + 1)) 0 false (before.getD [])).2 ↔ _
    rw [mem_readTypeBytes, taken]
    apply or_congr_right
    constructor
    · rintro ⟨j, inside, set, proper, rfl⟩
      exact ⟨j, inside, (bitAt_take (by omega)).mp set, proper, by omega⟩
    · rintro ⟨j, inside, set, proper, rfl⟩
      exact ⟨j, inside, (bitAt_take (by omega)).mpr set, proper, by omega⟩

end At

theorem windowsLoop_step {types' : Option Bitmap} {before : Option Bitmap} {o₁ : Nat} (inside : o - saved < size)
    (first : dnsPacketReadTypeWindow msg before o = .ok types' o₁) (fits : o₁ - saved ≤ size) :
    readTypeWindowsLoop msg saved size before o = readTypeWindowsLoop msg saved size types' o₁ := by
  rw [readTypeWindowsLoop, if_pos inside]
  split
  · simp_all
  · rename_i window
    cases first.symm.trans window
    rw [if_neg (by omega)]

/-- The loop of `dns_packet_append_types()` has bits up to `entry` in a window, and goes on with `types`. -/
structure Window (window entry : Nat) (bitmap : CString) (types : Bitmap) : Prop where
  length : bitmap.length = 32
  small : window < 256
  low : entry < 256
  upTo : ∀ j, bitAt bitmap j → j ≤ entry
  filled : bitmap.getD (entry / 8) 0 = 0 → ∀ j, ¬ bitAt bitmap j
  later : ∀ n ∈ types, window * 256 + entry ≤ n
  sorted : types.Pairwise (· < ·)
  high : ∀ n ∈ types, n < 65536

theorem getD_ne_zero_of_bitAt {j : Nat} (set : bitAt bitmap j) : bitmap.getD (j / 8) 0 ≠ 0 := by
  intro zero
  unfold bitAt at set
  rw [zero] at set
  simp at set

section Windows

variable {entry : Nat} (before : Option Bitmap)

/-- The window is written, or there is nothing in it, and what is behind it is read next. -/
theorem Window.flush {filled : Bool} (state : Window window entry bitmap types) (shows : Shows m msg.bytes)
    (some_ : filled = true → bitmap.getD (entry / 8) 0 ≠ 0) (bytes : HasAt m o (windowBytes filled window entry bitmap))
    (start : saved ≤ o) (fits : o + (windowBytes filled window entry bitmap).length ≤ saved + size) :
    ∃ found, readTypeWindowsLoop msg saved size before o =
        readTypeWindowsLoop msg saved size found (o + (windowBytes filled window entry bitmap).length) ∧
      ∀ n, n ∈ found.getD [] ↔ n ∈ before.getD [] ∨
        filled = true ∧ dnsTypeIsPseudo n = false ∧ ∃ j, bitAt bitmap j ∧ n = window * 256 + j := by
  cases filled with
  | false => exact ⟨before, rfl, by simp⟩
  | true =>
    have length : (windowBytes true window entry bitmap).length = entry / 8 + 3 := by
      have := state.length
      have := state.low
      simp [windowBytes]
      omega
    obtain ⟨found, read, all⟩ := readTypeWindow_at shows state.small state.low state.length (some_ rfl) bytes
    rw [length] at fits ⊢
    refine ⟨found, windowsLoop_step (by omega) read (by omega), ?_⟩
    intro n
    rw [all]
    apply or_congr_right
    constructor
    · rintro ⟨j, _, set, proper, rfl⟩
      exact ⟨rfl, proper, j, set, rfl⟩
    · rintro ⟨_, proper, j, set, rfl⟩
      have := state.upTo j set
      exact ⟨j, by omega, set, proper, rfl⟩

/-- The next type is in the same window, or in one that is still empty. -/
theorem Window.next {bitmap' : CString} (state : Window window entry bitmap (n :: types))
    (length : bitmap'.length = 32) (kept : ∀ j, bitAt bitmap' j → n / 256 = window ∧ bitAt bitmap j) :
    Window (n / 256) (n % 256)
        (bitmap'.set (n % 256 / 8) (bitmap'.getD (n % 256 / 8) 0 ||| ofNat (2 ^ (7 - n % 8)))) types ∧
      ∀ j, bitAt (bitmap'.set (n % 256 / 8) (bitmap'.getD (n % 256 / 8) 0 ||| ofNat (2 ^ (7 - n % 8)))) j ↔
        bitAt bitmap' j ∨ j = n % 256 := by
  have limit := state.high n mem_cons_self
  have after := state.later n mem_cons_self
  have low : n % 256 < 256 := Nat.mod_lt _ (by decide)
  obtain ⟨behind, sorted⟩ := pairwise_cons.mp state.sorted
  have bits : ∀ j, bitAt (bitmap'.set (n % 256 / 8) (bitmap'.getD (n % 256 / 8) 0 ||| ofNat (2 ^ (7 - n % 8)))) j ↔
      bitAt bitmap' j ∨ j = n % 256 := by
    intro j
    rw [show n % 8 = n % 256 % 8 by omega]
    exact bitAt_set length low j
  refine ⟨⟨by rw [length_set, length], by omega, low, ?_, ?_, ?_, sorted, ?_⟩, bits⟩
  · intro j set
    rcases (bits j).mp set with old | rfl
    · obtain ⟨same, old⟩ := kept j old
      have := state.upTo j old
      omega
    · exact le_rfl
  · intro zero
    exact absurd zero (getD_ne_zero_of_bitAt ((bits (n % 256)).mpr (.inr rfl)))
  · intro k mem
    rw [Nat.div_add_mod']
    exact (behind k mem).le
  · exact fun k mem => state.high k (mem_cons_of_mem _ mem)

/-- What is left to be read are the types of the window and those behind them. -/
theorem Window.reads (state : Window window entry bitmap types) (shows : Shows m msg.bytes)
    (bytes : HasAt m o (typesBytes types window entry bitmap)) (start : saved ≤ o)
    (total : o + (typesBytes types window entry bitmap).length = saved + size) :
    ∃ found, readTypeWindowsLoop msg saved size before o = .ok found (saved + size) ∧
      ∀ n, n ∈ found.getD [] ↔ n ∈ before.getD [] ∨
        dnsTypeIsPseudo n = false ∧ ((∃ j, bitAt bitmap j ∧ n = window * 256 + j) ∨ n ∈ types) := by
  induction types generalizing o window entry bitmap before with
  | nil =>
    rw [typesBytes] at bytes total
    obtain ⟨found, read, all⟩ := state.flush before shows (by simp) bytes start total.le
    refine ⟨found, ?_, ?_⟩
    · rw [read, total, readTypeWindowsLoop, if_neg (by omega), if_neg (by omega)]
    · have := state.filled
      by_cases empty : bitmap.getD (entry / 8) 0 = 0 <;> simp_all
  | cons n types ih =>
    rw [typesBytes] at bytes total
    obtain ⟨here, behind⟩ := hasAt_append.mp bytes
    rw [length_append] at total
    generalize written : decide (n / 256 ≠ window ∧ bitmap.getD (entry / 8) 0 ≠ 0) = filled at *
    obtain ⟨found, read, all⟩ := state.flush before shows (by simp [← written]) here start (show _ ≤ saved + size by omega)
    -- what was not written is in the window that goes on
    have kept : ∀ j, bitAt (if filled then List.replicate 32 0 else bitmap) j ↔ filled = false ∧ bitAt bitmap j := by
      intro j
      cases filled with
      | true => exact iff_of_false (bitAt_zeros j) (by simp)
      | false => simp
    have inWindow : ∀ j, filled = false → bitAt bitmap j → n / 256 = window := by
      rintro j rfl set
      by_contra other
      have zero : bitmap.getD (entry / 8) 0 = 0 := by
        by_contra nonzero
        exact of_decide_eq_false written ⟨other, nonzero⟩
      exact state.filled zero j set
    obtain ⟨next, bits⟩ := state.next
      (show (if filled then List.replicate 32 0 else bitmap).length = 32 by split <;> simp [state.length])
      fun j set => ⟨inWindow j ((kept j).mp set).1 ((kept j).mp set).2, ((kept j).mp set).2⟩
    obtain ⟨result, rest, every⟩ := ih found next behind (by omega) (by omega)
    refine ⟨result, read.trans rest, ?_⟩
    intro k
    have same : ∀ j, (filled = false ∧ bitAt bitmap j) ∧ k = n / 256 * 256 + j ↔
        filled = false ∧ bitAt bitmap j ∧ k = window * 256 + j := by
      intro j
      rw [and_assoc]
      exact and_congr_right fun stays => and_congr_right fun set => by rw [inWindow j stays set]
    simp only [every, all, bits, kept, or_and_right, exists_or, same, exists_eq_left, Nat.div_add_mod']
    cases filled <;> simp [or_assoc, and_or_left]

end Windows

/-- The types that are read are those that were written, without pseudo types. -/
theorem types_at (shows : Shows m msg.bytes) (sorted : types.Pairwise (· < ·)) (high : ∀ n ∈ types, n < 65536)
    (bytes : HasAt m o (typesBytes types 0 0 (List.replicate 32 0))) :
    ∃ found, dnsPacketReadTypeWindows msg (typesBytes types 0 0 (List.replicate 32 0)).length o =
        .ok found (o + (typesBytes types 0 0 (List.replicate 32 0)).length) ∧
      ∀ n, n ∈ found.getD [] ↔ dnsTypeIsPseudo n = false ∧ n ∈ types := by
  have state : Window 0 0 (List.replicate 32 0) types :=
    ⟨rfl, by decide, by decide, fun j set => absurd set (bitAt_zeros j), fun _ => bitAt_zeros, by simp, sorted, high⟩
  obtain ⟨found, read, all⟩ := state.reads none shows bytes le_rfl rfl
  refine ⟨found, rewinding_eq_ok.mpr read, ?_⟩
  simp [-List.reduceReplicate, all, bitAt_zeros]

theorem reads_types (shows : Shows m msg.bytes) (good : GoodTypes types)
    (bytes : HasAt m o (typesBytes types 0 0 (List.replicate 32 0))) :
    Reads (dnsPacketReadTypeWindows msg (typesBytes types 0 0 (List.replicate 32 0)).length) o
      (fun found => ∀ n, n ∈ found.getD [] ↔ n ∈ types) (o + (typesBytes types 0 0 (List.replicate 32 0)).length) := by
  obtain ⟨found, read, all⟩ := types_at shows good.sorted (fun n mem => (good.proper n mem).1) bytes
  apply (reads_of_ok read).imp
  rintro _ rfl n
  rw [all]
  exact and_iff_right_of_imp fun mem => (good.proper n mem).2

theorem readTypeWindows_good {types : Option Bitmap} (read : dnsPacketReadTypeWindows msg size o = .ok types r) :
    GoodTypes (types.getD []) := by
  have good : GoodTypes ((none : Option Bitmap).getD []) := .nil
  exact windowsLoop_good good (rewinding_eq_ok.mp read)

/-- Any set of types is read back where it was appended, without the pseudo types. -/
theorem types_read_back (env : Env) {p q : DnsPacket} (sorted : types.Pairwise (· < ·)) (high : ∀ n ∈ types, n < 65536)
    (buffer : p.size ≤ p.data.length) (append : dnsPacketAppendTypes env types p = .ok ⟨⟩ q) :
    ∃ found, dnsPacketReadTypeWindows q.message (q.size - p.size) p.size = .ok found q.size ∧
      ∀ n, n ∈ found.getD [] ↔ dnsTypeIsPseudo n = false ∧ n ∈ types := by
  have appended := types_appended env buffer append
  have nothing : Shows Cells.empty p.bytes := by
    intro i a cell
    cases cell
  have size := appended.size
  rw [size, Nat.add_sub_cancel_left]
  exact types_at (appended.shows buffer nothing) sorted high (put_hasAt _ _ _)

/-- A window with the pseudo type OPT in it, and another one. -/
theorem types_read_back_opt : ∃ q found, dnsPacketAppendTypes roomyEnv [1, 41, 300] newPacket = .ok ⟨⟩ q ∧
    dnsPacketReadTypeWindows q.message (q.size - 12) 12 = .ok found q.size ∧ ∀ n, n ∈ found.getD [] ↔ n = 1 ∨ n = 300 := by
  obtain ⟨_, q, append⟩ := succeeds_iff.mp
    (by decide +kernel : succeeds (dnsPacketAppendTypes roomyEnv [1, 41, 300] newPacket) = true)
  obtain ⟨found, read, all⟩ := types_read_back roomyEnv (by decide) (by decide) (by decide +kernel) append
  refine ⟨q, found, append, read, ?_⟩
  intro n
  rw [all]
  constructor
  · simp only [mem_cons, not_mem_nil, or_false]
    rintro ⟨proper, rfl | rfl | rfl⟩ <;> simp [dnsTypeIsPseudo] at proper ⊢
  · rintro (rfl | rfl) <;> decide

end SystemdPort.Resolve
