/-
# Basic.InAddrUtil — the prefixes behind an address

`in_addr_prefix_nth()` of `src/basic/in-addr-util.c`.  An IPv6 address is changed byte by byte, from the last one.
`nthLoop_value` says what becomes of the number it stands for, where bits of `nth` that do not belong into the byte in
which the prefix ends may be taken for a carry; `prefixNth_exact` says when the outcome is the right one.
-/
import SystemdPort.Basic.Errno
import SystemdPort.Lib.Bytes

namespace SystemdPort.Basic

set_option autoImplicit false

open Lib List

/-- `union in_addr_union` with its family; an IPv4 address in host order -/
inductive InAddrUnion where
  | inet (sAddr : UInt32)
  | inet6 (s6Addr : {bytes : List UInt8 // bytes.length = 16})
  deriving DecidableEq

/-- The sum for a byte in which `k` bits of the prefix begin, and what is left of `nth` -/
def nthByte (k : Nat) (b : UInt8) (nth : Nat) (overflow : Bool) : Nat × Nat :=
  if k < 8 then (b.toNat / 2 ^ (8 - k) * 2 ^ (8 - k) + nth % 256 * 2 ^ (8 - k), nth / 2 ^ k)
  else (b.toNat + nth % 256 + overflow.toNat, nth / 256)

/-- The loop over the bytes of an IPv6 address, the last one first; with what is left of `nth`, and `overflow` -/
def nthLoop (prefixlen : Nat) : List UInt8 → (nth : Nat) → (overflow : Bool) → List UInt8 × Nat × Bool
  | [], nth, overflow => ([], nth, overflow)
  | b :: bytes, nth, overflow =>
    if prefixlen ≤ 8 * bytes.length then
      let r := nthLoop prefixlen bytes nth overflow
      (0 :: r.1, r.2)
    else
      let t := nthByte (prefixlen - 8 * bytes.length) b nth overflow
      let r := nthLoop prefixlen bytes t.2 (255 < t.1)
      (UInt8.ofNat t.1 :: r.1, r.2)

theorem length_nthLoop (prefixlen : Nat) (bytes : List UInt8) (nth : Nat) (overflow : Bool) :
    (nthLoop prefixlen bytes nth overflow).1.length = bytes.length := by
  induction bytes generalizing nth overflow with
  | nil => rfl
  | cons b bytes ih =>
    rw [nthLoop]
    split <;> simp [ih]

/-- `in_addr_prefix_nth()`: what it returns, and the address it leaves -/
def inAddrPrefixNth (u : InAddrUnion) (prefixlen : Nat) (nth : UInt64) : Except Errno Unit × InAddrUnion :=
  if prefixlen = 0 then (.error .erange, u)
  else
    match u with
    | .inet sAddr =>
      if 32 < prefixlen then (.error .erange, u)
      else
        let size := 2 ^ (32 - prefixlen)
        -- shifted as 64 bits and stored in 32
        let t := nth.toNat * size % 2 ^ 64 % 2 ^ 32
        if 2 ^ 32 - 1 - t < sAddr.toNat then (.error .erange, u)
        else (.ok ⟨⟩, .inet (UInt32.ofNat ((sAddr.toNat + t) / size * size)))
    | .inet6 s6Addr =>
      if 128 < prefixlen then (.error .erange, u)
      else
        let result := nthLoop prefixlen s6Addr.1.reverse nth.toNat false
        let u := .inet6 ⟨result.1.reverse, by simp [result, length_nthLoop, s6Addr.2]⟩
        if result.2.2 ∨ result.2.1 ≠ 0 then (.error .erange, u) else (.ok ⟨⟩, u)

/-! ## The sum -/

namespace InAddrUnion

variable (u : InAddrUnion) (prefixlen : Nat) (nth : UInt64)

def bits : InAddrUnion → Nat
  | inet _ => 32
  | inet6 _ => 128

def value : InAddrUnion → Nat
  | inet sAddr => sAddr.toNat
  | inet6 s6Addr => ofLittleEndian s6Addr.1.reverse

/-- The masked address as a number of prefixes. -/
def number : Nat := u.value / 2 ^ (u.bits - prefixlen)

/-- The masked address and `nth` times the size of a prefix. -/
def sum : Nat := (u.number prefixlen + nth.toNat) * 2 ^ (u.bits - prefixlen)

def Fits : Prop := prefixlen ≤ u.bits ∧ u.sum prefixlen nth < 2 ^ u.bits

/-- The sum is stored if it fits; otherwise there is an error, and the address stays as it is. -/
def Right : Prop :=
  (u.Fits prefixlen nth → ∃ u', inAddrPrefixNth u prefixlen nth = (.ok ⟨⟩, u') ∧ u'.bits = u.bits ∧
    u'.value = u.sum prefixlen nth) ∧
  (¬ u.Fits prefixlen nth → inAddrPrefixNth u prefixlen nth = (.error .erange, u))

end InAddrUnion

/-- What is added once more: `s` bits of the prefix are in the byte in which it ends, these bits of the sum give no carry,
but with the other bits of the last byte of `nth` there seems to be one. -/
def surplus (s number nth : Nat) : Nat :=
  if 0 < s ∧ 2 ^ s ≤ nth % 256 ∧ number % 2 ^ s + nth % 2 ^ s < 2 ^ s then 2 ^ s else 0

/-- For IPv4, `nth` is the number of a prefix, or what is left of it still overflows.  For IPv6 nothing is added once more,
or on overflow the address comes out as it was. -/
def InAddrUnion.Exact (u : InAddrUnion) (prefixlen : Nat) (nth : UInt64) : Prop :=
  if prefixlen = 0 then nth ≠ 0
  else u.bits < prefixlen ∨
    match u with
    | inet _ => nth.toNat < 2 ^ prefixlen ∨ 2 ^ prefixlen ≤ u.number prefixlen + nth.toNat % 2 ^ prefixlen
    | inet6 _ =>
      let more := surplus (prefixlen % 8) (u.number prefixlen) nth.toNat
      if u.sum prefixlen nth < 2 ^ 128 then more = 0
      else (u.sum prefixlen nth + more * 2 ^ (128 - prefixlen)) % 2 ^ 128 = u.value

theorem surplus_add (number more nth k : Nat) :
    surplus (k % 8) (number + more * 2 ^ k) nth = surplus (k % 8) number nth := by
  obtain ⟨c, multiple⟩ : 2 ^ (k % 8) ∣ more * 2 ^ k := Dvd.dvd.mul_left (pow_dvd_pow 2 (Nat.mod_le k 8)) more
  rw [surplus, multiple, Nat.add_mul_mod_self_left, surplus]

theorem nthByte_value {k : Nat} (b : UInt8) (nth : Nat) (pos : 0 < k) (most : k ≤ 8) :
    let t := nthByte k b nth false
    t.1 % 256 + 256 * (t.2 + (decide (255 < t.1)).toNat) =
      (b.toNat / 2 ^ (8 - k) + nth + surplus (k % 8) (b.toNat / 2 ^ (8 - k)) nth) * 2 ^ (8 - k) := by
  have := b.toNat_lt
  dsimp only
  unfold nthByte surplus
  interval_cases k <;> simp [Bool.toNat] <;> grind

/-- Whole bytes are added with carry. -/
theorem nthLoop_whole {prefixlen : Nat} (bytes : List UInt8) (nth : Nat) (overflow : Bool)
    (whole : 8 * bytes.length ≤ prefixlen) :
    let r := nthLoop prefixlen bytes nth overflow
    ofLittleEndian r.1 + 256 ^ bytes.length * (r.2.1 + r.2.2.toNat) = ofLittleEndian bytes + nth + overflow.toNat := by
  induction bytes generalizing nth overflow with
  | nil => simp [nthLoop, ofLittleEndian]
  | cons b bytes ih =>
    rw [length_cons] at whole
    have byte : nthByte (prefixlen - 8 * bytes.length) b nth overflow = (b.toNat + nth % 256 + overflow.toNat, nth / 256) :=
      if_neg (by omega)
    dsimp only at ih ⊢
    rw [nthLoop, if_neg (by omega), byte, length_cons, pow_succ, ofLittleEndian_cons b, ofLittleEndian_cons,
      UInt8.toNat_ofNat']
    have same := ih (nth / 256) (255 < b.toNat + nth % 256 + overflow.toNat) (by omega)
    have carry : (b.toNat + nth % 256 + overflow.toNat) % 256 + 256 * (decide (255 < b.toNat + nth % 256 + overflow.toNat)).toNat =
        b.toNat + nth % 256 + overflow.toNat := by
      have := b.toNat_lt
      have := overflow.toNat_le
      by_cases large : 255 < b.toNat + nth % 256 + overflow.toNat <;> simp [large] <;> omega
    have split := Nat.mod_add_div nth 256
    linear_combination carry + 256 * same + split

/-- What is written and what is left over are the sum with what is added once more. -/
theorem nthLoop_value {prefixlen : Nat} (bytes : List UInt8) (nth : Nat) (pos : 0 < prefixlen)
    (inside : prefixlen ≤ 8 * bytes.length) :
    let r := nthLoop prefixlen bytes nth false
    let size := 2 ^ (8 * bytes.length - prefixlen)
    ofLittleEndian r.1 + 256 ^ bytes.length * (r.2.1 + r.2.2.toNat) =
      (ofLittleEndian bytes / size + nth + surplus (prefixlen % 8) (ofLittleEndian bytes / size) nth) * size := by
  induction bytes with
  | nil => exact absurd inside (by simpa using pos.ne')
  | cons b bytes ih =>
    dsimp only at ih ⊢
    rw [nthLoop, length_cons, pow_succ, ofLittleEndian_cons b]
    rw [length_cons] at inside
    split
    · rename_i behind
      have same := ih behind
      have size : 2 ^ (8 * (bytes.length + 1) - prefixlen) = 256 * 2 ^ (8 * bytes.length - prefixlen) := by
        rw [show 8 * (bytes.length + 1) - prefixlen = 8 + (8 * bytes.length - prefixlen) by omega, pow_add]
        norm_num
      rw [ofLittleEndian_cons, size, ← Nat.div_div_eq_div_mul, Nat.add_mul_div_left _ _ (by decide),
        Nat.div_eq_of_lt b.toNat_lt, Nat.zero_add, show (0 : UInt8).toNat = 0 from rfl]
      linear_combination 256 * same
    · rename_i here
      have byte := nthByte_value b nth (k := prefixlen - 8 * bytes.length) (by omega) (by omega)
      have same := @nthLoop_whole prefixlen bytes (nthByte (prefixlen - 8 * bytes.length) b nth false).2
        (255 < (nthByte (prefixlen - 8 * bytes.length) b nth false).1) (by omega)
      rw [show 8 * (bytes.length + 1) - prefixlen = 8 - (prefixlen - 8 * bytes.length) by omega,
        show prefixlen % 8 = (prefixlen - 8 * bytes.length) % 8 by omega]
      have most : prefixlen - 8 * bytes.length ≤ 8 := by omega
      generalize prefixlen - 8 * bytes.length = k at *
      have power : 2 ^ k * 2 ^ (8 - k) = 256 := by
        rw [← pow_add, Nat.add_sub_cancel' most]
        rfl
      have parts : 256 * ofLittleEndian bytes = ofLittleEndian bytes * 2 ^ k * 2 ^ (8 - k) := by
        rw [mul_assoc, power, mul_comm]
      rw [ofLittleEndian_cons, UInt8.toNat_ofNat', parts, Nat.add_mul_div_right _ _ (by positivity), surplus_add]
      linear_combination byte + 256 * same + ofLittleEndian bytes * power.symm

variable {u : InAddrUnion} {prefixlen : Nat} {nth : UInt64}

theorem inAddrPrefixNth_inet (sAddr : UInt32) (pos : 0 < prefixlen) (inside : prefixlen ≤ 32) :
    let number := InAddrUnion.number (.inet sAddr) prefixlen + nth.toNat % 2 ^ prefixlen
    inAddrPrefixNth (.inet sAddr) prefixlen nth =
      if 2 ^ prefixlen ≤ number then (.error .erange, .inet sAddr)
      else (.ok ⟨⟩, .inet (UInt32.ofNat (number * 2 ^ (32 - prefixlen)))) := by
  have space := pow_mul_pow_sub 2 inside
  have some_size : 0 < 2 ^ (32 - prefixlen) := by positivity
  rw [inAddrPrefixNth, if_neg pos.ne', if_neg (not_lt.mpr inside), InAddrUnion.number]
  dsimp only [InAddrUnion.bits, InAddrUnion.value]
  generalize 2 ^ (32 - prefixlen) = size at *
  generalize 2 ^ prefixlen = most at *
  have offset : nth.toNat * size % 2 ^ 64 % 2 ^ 32 = nth.toNat % most * size := by
    rw [Nat.mod_mod_of_dvd _ (by decide), ← space, Nat.mul_mod_mul_right]
  rw [offset, Nat.add_mul_div_right _ _ some_size]
  refine if_congr ?_ rfl rfl
  rw [← Nat.add_mul_div_right _ _ some_size, Nat.le_div_iff_mul_le some_size, space]
  omega

theorem inAddrPrefixNth_inet6 (s6Addr : {bytes : List UInt8 // bytes.length = 16}) (pos : 0 < prefixlen)
    (inside : prefixlen ≤ 128) :
    let u := InAddrUnion.inet6 s6Addr
    let total := u.sum prefixlen nth + surplus (prefixlen % 8) (u.number prefixlen) nth.toNat * 2 ^ (128 - prefixlen)
    ∃ s6Addr', inAddrPrefixNth u prefixlen nth =
        (if 2 ^ 128 ≤ total then .error .erange else .ok ⟨⟩, .inet6 s6Addr') ∧
      InAddrUnion.value (.inet6 s6Addr') = total % 2 ^ 128 := by
  have value := nthLoop_value s6Addr.1.reverse nth.toNat pos (by rw [length_reverse, s6Addr.2]; exact inside)
  have bound : ofLittleEndian (nthLoop prefixlen s6Addr.1.reverse nth.toNat false).1 < 2 ^ 128 := by
    simpa [length_nthLoop, s6Addr.2] using ofLittleEndian_lt (nthLoop prefixlen s6Addr.1.reverse nth.toNat false).1
  intro u total
  rw [length_reverse, s6Addr.2] at value
  have value : _ + 2 ^ 128 * _ = total := value.trans (Nat.add_mul ..)
  refine ⟨⟨(nthLoop prefixlen s6Addr.1.reverse nth.toNat false).1.reverse, by simp [length_nthLoop, s6Addr.2]⟩, ?_, ?_⟩
  · rw [inAddrPrefixNth, if_neg pos.ne', if_neg (not_lt.mpr inside)]
    dsimp only
    have fails : ((nthLoop prefixlen s6Addr.1.reverse nth.toNat false).2.2 = true ∨
        (nthLoop prefixlen s6Addr.1.reverse nth.toNat false).2.1 ≠ 0) ↔ 2 ^ 128 ≤ total := by
      generalize nthLoop prefixlen s6Addr.1.reverse nth.toNat false = r at *
      cases overflow : r.2.2 <;> simp only [overflow, Bool.toNat_true, Bool.toNat_false] at value <;> simp <;> omega
    by_cases beyond : 2 ^ 128 ≤ total
    · rw [if_pos (fails.mpr beyond), if_pos beyond]
    · rw [if_neg (mt fails.mp beyond), if_neg beyond]
  · show ofLittleEndian (reverse (reverse _)) = _
    rw [reverse_reverse]
    omega

theorem InAddrUnion.value_lt (u : InAddrUnion) : u.value < 2 ^ u.bits := by
  cases u with
  | inet sAddr => exact sAddr.toNat_lt
  | inet6 s6Addr => simpa [value, bits, s6Addr.2] using ofLittleEndian_lt s6Addr.1.reverse

theorem InAddrUnion.value_inet6_inj {a b : {bytes : List UInt8 // bytes.length = 16}} :
    value (.inet6 a) = value (.inet6 b) ↔ inet6 a = inet6 b := by
  refine ⟨fun eq => congrArg _ (Subtype.ext (reverse_injective ?_)), congrArg _⟩
  exact ofLittleEndian_inj (by simp [a.2, b.2]) eq

theorem prefixNth_zero : u.Right 0 nth ↔ nth ≠ 0 := by
  have fits : u.Fits 0 nth ↔ nth = 0 := by
    have size : 0 < 2 ^ u.bits := by positivity
    rw [InAddrUnion.Fits, InAddrUnion.sum, InAddrUnion.number, Nat.sub_zero, Nat.div_eq_of_lt u.value_lt, Nat.zero_add,
      and_iff_right (Nat.zero_le _), mul_lt_iff_lt_one_left size, Nat.lt_one_iff, ← UInt64.toNat_inj]
    rfl
  rw [InAddrUnion.Right, fits, show inAddrPrefixNth u 0 nth = (.error .erange, u) from if_pos rfl]
  simp

theorem prefixNth_inet (sAddr : UInt32) (pos : 0 < prefixlen) (inside : prefixlen ≤ 32) :
    InAddrUnion.Right (.inet sAddr) prefixlen nth ↔ nth.toNat < 2 ^ prefixlen ∨
      2 ^ prefixlen ≤ InAddrUnion.number (.inet sAddr) prefixlen + nth.toNat % 2 ^ prefixlen := by
  have space := pow_mul_pow_sub 2 inside
  have some_size : 0 < 2 ^ (32 - prefixlen) := by positivity
  have fits : InAddrUnion.Fits (.inet sAddr) prefixlen nth ↔
      InAddrUnion.number (.inet sAddr) prefixlen + nth.toNat < 2 ^ prefixlen := by
    refine (and_iff_right inside).trans ?_
    rw [InAddrUnion.sum, show 2 ^ InAddrUnion.bits (.inet sAddr) = 2 ^ 32 from rfl, ← space]
    exact Nat.mul_lt_mul_right some_size
  rw [InAddrUnion.Right, fits, inAddrPrefixNth_inet sAddr pos inside, InAddrUnion.sum]
  generalize InAddrUnion.number (.inet sAddr) prefixlen = number
  constructor
  · rintro ⟨-, overflows⟩
    by_contra! wrong
    have wrongly := overflows (by omega)
    rw [if_neg (by omega)] at wrongly
    cases wrongly
  · intro exact
    have small : nth.toNat < 2 ^ prefixlen → nth.toNat % 2 ^ prefixlen = nth.toNat := Nat.mod_eq_of_lt
    refine ⟨fun below => ?_, fun beyond => if_pos (by omega)⟩
    refine ⟨_, if_neg (by omega), rfl, ?_⟩
    rw [small (by omega)]
    refine UInt32.toNat_ofNat_of_lt' ?_
    exact (Nat.mul_lt_mul_of_pos_right below some_size).trans_eq space

theorem prefixNth_inet6 (s6Addr : {bytes : List UInt8 // bytes.length = 16}) (pos : 0 < prefixlen)
    (inside : prefixlen ≤ 128) :
    let u := InAddrUnion.inet6 s6Addr
    let more := surplus (prefixlen % 8) (u.number prefixlen) nth.toNat
    u.Right prefixlen nth ↔ if u.sum prefixlen nth < 2 ^ 128 then more = 0
      else (u.sum prefixlen nth + more * 2 ^ (128 - prefixlen)) % 2 ^ 128 = u.value := by
  obtain ⟨s6Addr', run, value⟩ := @inAddrPrefixNth_inet6 prefixlen nth s6Addr pos inside
  have fits : InAddrUnion.Fits (.inet6 s6Addr) prefixlen nth ↔ InAddrUnion.sum (.inet6 s6Addr) prefixlen nth < 2 ^ 128 :=
    and_iff_right inside
  have some_size : 0 < 2 ^ (128 - prefixlen) := by positivity
  dsimp only
  rw [InAddrUnion.Right, fits, run, ← value, InAddrUnion.value_inet6_inj]
  generalize InAddrUnion.sum (.inet6 s6Addr) prefixlen nth = sum at *
  generalize surplus (prefixlen % 8) (InAddrUnion.number (.inet6 s6Addr) prefixlen) nth.toNat = more at *
  have none : more * 2 ^ (128 - prefixlen) = 0 ↔ more = 0 := by simp
  split_ifs with beyond fitting fitting
  · refine iff_of_false (fun right => ?_) (mt none.mpr (by omega))
    obtain ⟨_, wrong, -⟩ := right.1 fitting
    cases wrong
  · refine ⟨fun right => (Prod.mk.inj (right.2 fitting)).2, fun kept => ⟨fun inside => absurd inside fitting, fun _ => ?_⟩⟩
    rw [kept]
  · rw [Nat.mod_eq_of_lt (not_le.mp beyond)] at value
    constructor
    · intro right
      obtain ⟨_, stored, -, asked⟩ := right.1 fitting
      cases stored
      exact none.mp (by omega)
    · intro zero
      exact ⟨fun _ => ⟨_, rfl, rfl, by rw [value, none.mpr zero, Nat.add_zero]⟩, fun outside => absurd fitting outside⟩
  · omega

/-- The outcome is right exactly under the condition. -/
theorem prefixNth_exact : u.Right prefixlen nth ↔ u.Exact prefixlen nth := by
  unfold InAddrUnion.Exact
  by_cases zero : prefixlen = 0
  · rw [if_pos zero]
    exact zero ▸ prefixNth_zero
  have pos : 0 < prefixlen := Nat.pos_of_ne_zero zero
  by_cases long : u.bits < prefixlen
  · rw [if_neg zero]
    refine iff_of_true ⟨fun fits => absurd fits.1 (by omega), fun _ => ?_⟩ (.inl long)
    rw [inAddrPrefixNth.eq_def, if_neg zero]
    cases u <;> exact if_pos long
  rw [if_neg zero, or_iff_right long]
  cases u with
  | inet sAddr => exact prefixNth_inet sAddr pos (not_lt.mp long)
  | inet6 s6Addr => exact prefixNth_inet6 s6Addr pos (not_lt.mp long)

/-- The 16th prefix of 60 bits is the 32nd; an IPv6 address is not what it was after an error, and the number of an IPv4
prefix is cut to 32 bits. -/
theorem prefixNth_wrong :
    inAddrPrefixNth (.inet6 ⟨[0x20, 0x01, 0x0d, 0xb8, 0, 0, 0, 0, 0, 0, 0, 0, 0, 0, 0, 0], rfl⟩) 60 16 =
        (.ok ⟨⟩, .inet6 ⟨[0x20, 0x01, 0x0d, 0xb8, 0, 0, 2, 0, 0, 0, 0, 0, 0, 0, 0, 0], rfl⟩) ∧
      inAddrPrefixNth (.inet6 ⟨replicate 16 0xFF, rfl⟩) 128 1 = (.error .erange, .inet6 ⟨replicate 16 0, rfl⟩) ∧
      inAddrPrefixNth (.inet 1) 32 0x100000000 = (.ok ⟨⟩, .inet 1) := by
  decide +kernel

end SystemdPort.Basic
