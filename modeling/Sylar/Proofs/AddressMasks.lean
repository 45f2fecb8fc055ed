import Sylar.Lib.BitStrings
import Sylar.Proofs.RockProtocol
import Sylar.Spec.Address

/-! The addresses of a subnet, bit by bit in the order of the bytes in memory. `CreateMask` gives
the bits of the host, and `networdAddress` keeps them where `subnetMask` keeps the bits of the
network. Of four bytes, what `byteswapOnLittleEndian` gives stands in memory with the highest byte
first; of sixteen, one has the mask and those behind it are filled. -/

namespace Sylar

open Lib

section

variable {overflow : SignedOverflow} {size : ℕ} {bits : UInt32}

theorem toNat_width (hsize : size ≤ 4) (hbits : bits.toNat ≤ size * 8) :
    (UInt64.ofNat (size * 8) - bits.toUInt64).toNat = size * 8 - bits.toNat := by
  have hwidth : (UInt64.ofNat (size * 8)).toNat = size * 8 := UInt64.toNat_ofNat_of_lt' (by
    rw [UInt64.size]
    omega)
  rw [UInt64.toNat_sub_of_le _ _ (by rw [UInt64.le_iff_toNat_le, hwidth]; simpa using hbits), hwidth,
    UInt32.toNat_toUInt64]

/-- The shift is by less than the width of an `int`, and what it gives has a predecessor. -/
def MaskDefined (overflow : SignedOverflow) (size : ℕ) (bits : UInt32) : Prop :=
  size * 8 - bits.toNat < 32 ∧ (size * 8 - bits.toNat = 31 → overflow = .wraps)

theorem CreateMask_eq (hsize : size ≤ 4) (hbits : bits.toNat ≤ size * 8)
    (h : MaskDefined overflow size bits) :
    ∃ mask, CreateMask overflow size bits = .ok mask ∧
      mask.toNat = 2 ^ (size * 8 - bits.toNat) - 1 := by
  obtain ⟨hlt, hwrap⟩ := h
  have hshift := toNat_width hsize hbits
  have hshort : ¬ 32 ≤ UInt64.ofNat (size * 8) - bits.toUInt64 := by
    rw [UInt64.le_iff_toNat_le, hshift]
    exact not_le.mpr hlt
  have hcan : ¬ (UInt64.ofNat (size * 8) - bits.toUInt64 = 31 ∧ overflow = .undefined) := by
    rintro ⟨h31, hover⟩
    rw [← UInt64.toNat_inj, hshift] at h31
    rw [hwrap h31] at hover
    exact absurd hover (by decide)
  refine ⟨_, by rw [CreateMask, if_neg hshort, if_neg hcan], ?_⟩
  have hpow : 2 ^ (size * 8 - bits.toNat) < 2 ^ 32 := Nat.pow_lt_pow_right (by decide) hlt
  have hone : (1 <<< (UInt64.ofNat (size * 8) - bits.toUInt64).toUInt32 : UInt32).toNat =
      2 ^ (size * 8 - bits.toNat) := by
    rw [UInt32.toNat_shiftLeft, UInt64.toNat_toUInt32, hshift, Nat.mod_eq_of_lt (a := _ - _) (by omega),
      Nat.mod_eq_of_lt hlt, show (1 : UInt32).toNat = 1 from rfl, Nat.one_shiftLeft, Nat.mod_eq_of_lt hpow]
  rw [UInt32.toNat_sub_of_le, hone]
  · rfl
  · rw [UInt32.le_iff_toNat_le, hone]
    exact Nat.two_pow_pos _

theorem CreateMask_undefined (hsize : size ≤ 4) (hbits : bits.toNat ≤ size * 8)
    (h : ¬ MaskDefined overflow size bits) : CreateMask overflow size bits = .error .undefined := by
  have hshift := toNat_width hsize hbits
  rw [MaskDefined, not_and_or, not_lt] at h
  unfold CreateMask
  rcases h with hfull | hwrap
  · rw [if_pos (by rw [UInt64.le_iff_toNat_le, hshift]; exact hfull)]
  · rw [Classical.not_imp] at hwrap
    have hover : overflow = .undefined := by
      cases overflow with
      | wraps => exact absurd rfl hwrap.2
      | undefined => rfl
    have h31 : UInt64.ofNat (size * 8) - bits.toUInt64 = 31 := by
      rw [← UInt64.toNat_inj, hshift]
      exact hwrap.1
    rw [if_neg (by rw [h31]; decide), if_pos ⟨h31, hover⟩]

end

namespace IPv4Address

variable (host : Endian) {overflow : SignedOverflow} {prefix_len : UInt32}

/-- The bit of `s_addr` that is bit `i` of the bytes. -/
def position (i : ℕ) : ℕ :=
  match host with
  | .little => 8 * (i / 8) + (7 - i % 8)
  | .big => 31 - i

theorem position_lt {i : ℕ} (hi : i < 32) : position host i < 32 := by
  cases host with
  | little =>
    rw [position]
    omega
  | big =>
    rw [position]
    omega

theorem bitAt_objectBytes {i : ℕ} (hi : i < 32) (v : ℕ) :
    bitAt (objectBytes host 4 v) i = v.testBit (position host i) := by
  cases host with
  | little => exact bitAt_leBytes hi v
  | big => exact bitAt_leBytes_reverse hi v

theorem testBit_mask {mask : UInt32} (hp : prefix_len.toNat ≤ 32)
    (hmask : mask.toNat = 2 ^ (4 * 8 - prefix_len.toNat) - 1) {i : ℕ} (hi : i < 32) :
    (byteswapOnLittleEndian host mask).toNat.testBit (position host i) =
      decide (prefix_len.toNat ≤ i) := by
  rw [← bitAt_objectBytes host hi, objectBytes_byteswapOnLittleEndian, bitAt_leBytes_reverse hi, hmask,
    Nat.testBit_two_pow_sub_one]
  apply decide_eq_decide.mpr
  omega

variable {host}

theorem bitAt_or (a : IPv4Address) (v : UInt32) {i : ℕ} (hi : i < 32) :
    bitAt ({ a with s_addr := a.s_addr ||| v }.bytes host) i =
      (bitAt (a.bytes host) i || v.toNat.testBit (position host i)) := by
  rw [bytes, bytes, bitAt_objectBytes host hi, bitAt_objectBytes host hi, UInt32.toNat_or,
    Nat.testBit_or]

theorem bitAt_not (a : IPv4Address) (v : UInt32) {i : ℕ} (hi : i < 32) :
    bitAt ({ a with s_addr := ~~~ v }.bytes host) i = !v.toNat.testBit (position host i) := by
  rw [bytes, bitAt_objectBytes host hi, ← UInt32.toNat_toBitVec, ← UInt32.toNat_toBitVec,
    UInt32.toBitVec_not, ← BitVec.getLsbD, ← BitVec.getLsbD, BitVec.getLsbD_not,
    decide_eq_true (position_lt host hi), Bool.true_and]

theorem maskDefined_iff : MaskDefined overflow 4 prefix_len ↔
    prefix_len ≠ 0 ∧ (prefix_len = 1 → overflow = .wraps) := by
  have hzero : prefix_len = 0 ↔ prefix_len.toNat = 0 := by rw [← UInt32.toNat_inj]; rfl
  have hone : prefix_len = 1 ↔ prefix_len.toNat = 1 := by rw [← UInt32.toNat_inj]; rfl
  rw [MaskDefined, ne_eq, hzero, hone]
  constructor
  · rintro ⟨hlt, hwrap⟩
    exact ⟨by omega, fun h1 => hwrap (by omega)⟩
  · rintro ⟨hne, hwrap⟩
    exact ⟨by omega, fun h31 => hwrap (by omega)⟩

/-- `broadcastAddress` keeps the first bits and sets the others, `subnetMask` has exactly these set. -/
def KeepsPrefix (host : Endian) (overflow : SignedOverflow) (prefix_len : UInt32) (a : IPv4Address) :
    Prop :=
  ∃ baddr subnet, a.broadcastAddress host overflow prefix_len = .ok (some baddr) ∧
    subnetMask host overflow prefix_len = .ok subnet ∧
    (∀ i < 32, bitAt (baddr.bytes host) i =
      if i < prefix_len.toNat then bitAt (a.bytes host) i else true) ∧
    ∀ i < 32, bitAt (subnet.bytes host) i = decide (i < prefix_len.toNat)

section

variable (hp : prefix_len.toNat ≤ 32)
include hp

theorem not_gt : ¬ 32 < prefix_len := by
  rw [UInt32.lt_iff_toNat_lt]
  exact not_lt.mpr hp

theorem mask_cases (host : Endian) (overflow : SignedOverflow) :
    (MaskDefined overflow 4 prefix_len ∧ ∃ mask, CreateMask overflow 4 prefix_len = .ok mask ∧
      ∀ i < 32, (byteswapOnLittleEndian host mask).toNat.testBit (position host i) =
        decide (prefix_len.toNat ≤ i)) ∨
    (¬ MaskDefined overflow 4 prefix_len ∧ CreateMask overflow 4 prefix_len = .error .undefined) := by
  by_cases h : MaskDefined overflow 4 prefix_len
  · obtain ⟨mask, heq, hmask⟩ := CreateMask_eq (by decide) hp h
    exact .inl ⟨h, mask, heq, fun i hi => testBit_mask host hp hmask hi⟩
  · exact .inr ⟨h, CreateMask_undefined (by decide) hp h⟩

theorem keepsPrefix_iff_defined (a : IPv4Address) :
    a.KeepsPrefix host overflow prefix_len ↔ MaskDefined overflow 4 prefix_len := by
  rcases mask_cases hp host overflow with ⟨h, mask, heq, hbits⟩ | ⟨h, heq⟩
  · refine iff_of_true ⟨_, _, by rw [broadcastAddress, if_neg (not_gt hp), heq]; rfl,
      by rw [subnetMask, heq]; rfl, ?_, ?_⟩ h
    · intro i hi
      rw [bitAt_or a _ hi, hbits i hi]
      by_cases hlt : i < prefix_len.toNat
      · simp [hlt]
      · simp [hlt, not_lt.mp hlt]
    · intro i hi
      rw [bitAt_not ⟨AF_INET, 0, 0⟩ _ hi, hbits i hi, ← decide_not]
      exact decide_eq_decide.mpr not_le
  · refine iff_of_false ?_ h
    rintro ⟨baddr, -, hbroadcast, -⟩
    rw [broadcastAddress, if_neg (not_gt hp), heq] at hbroadcast
    cases hbroadcast

end

end IPv4Address

namespace IPv6Address

variable {overflow : SignedOverflow} {prefix_len : UInt32}

theorem toNat_div : (prefix_len / 8).toNat = prefix_len.toNat / 8 := UInt32.toNat_div prefix_len 8

theorem mask_eq (overflow : SignedOverflow) (prefix_len : UInt32) :
    ∃ mask, CreateMask overflow 1 (prefix_len % 8) = .ok mask ∧
      ∀ j < 8, mask.toUInt8.toNat.testBit j = decide (prefix_len.toNat % 8 ≤ 7 - j) := by
  have hmod : (prefix_len % 8).toNat = prefix_len.toNat % 8 := UInt32.toNat_mod prefix_len 8
  have hdefined : MaskDefined overflow 1 (prefix_len % 8) := ⟨by omega, fun h => by omega⟩
  obtain ⟨mask, heq, hmask⟩ := CreateMask_eq (by decide) (by omega) hdefined
  refine ⟨mask, heq, fun j hj => ?_⟩
  rw [UInt32.toNat_toUInt8, Nat.testBit_mod_two_pow, hmask, Nat.testBit_two_pow_sub_one,
    decide_eq_true hj, Bool.true_and]
  apply decide_eq_decide.mpr
  omega

theorem bitAt_fill {addr : List UInt8} {i : ℕ} (hi : i / 8 < addr.length) (first last : ℕ)
    (b : UInt8) : bitAt (fill first last b addr) i =
      if first ≤ i / 8 ∧ i / 8 < last then b.toNat.testBit (7 - i % 8) else bitAt addr i := by
  rw [bitAt, bitAt, List.getD_eq_getElem _ _ (by rwa [length_fill]), List.getD_eq_getElem _ _ hi]
  simp only [fill, List.getElem_mapIdx]
  split_ifs <;> rfl

theorem assign_eq (a : IPv6Address) {k : ℕ} (hk : k < 16) (f : UInt8 → UInt8) (first last : ℕ)
    (b : UInt8) : ∃ baddr, a.assign k f = .ok baddr ∧
      ∀ i < 128, bitAt (baddr.fillAddr first last b).s6_addr i =
        if first ≤ i / 8 ∧ i / 8 < last then b.toNat.testBit (7 - i % 8)
        else if i / 8 = k then (f (a.s6_addr.getD (i / 8) 0)).toNat.testBit (7 - i % 8)
        else bitAt a.s6_addr i := by
  refine ⟨_, by rw [assign, if_pos hk], fun i hi => ?_⟩
  have hbyte : i / 8 < a.s6_addr.length := by
    rw [a.length_addr]
    omega
  rw [fillAddr, bitAt_fill (by rwa [List.length_modify]), bitAt_modify hbyte]

/-- The bits that `networdAddress` keeps: those of the bytes before the one with the mask, and in
that one those of the host. -/
def Kept (prefix_len : UInt32) (i : ℕ) : Prop :=
  i / 8 < prefix_len.toNat / 8 ∨ i / 8 = prefix_len.toNat / 8 ∧ prefix_len.toNat ≤ i

instance (prefix_len : UInt32) (i : ℕ) : Decidable (Kept prefix_len i) :=
  inferInstanceAs (Decidable (_ ∨ _))

section

variable (h : prefix_len.toNat < 128)
include h

theorem broadcastAddress_eq (overflow : SignedOverflow) (a : IPv6Address) :
    ∃ baddr, a.broadcastAddress overflow prefix_len = .ok baddr ∧
      ∀ i < 128, bitAt baddr.s6_addr i = if i < prefix_len.toNat then bitAt a.s6_addr i else true := by
  obtain ⟨mask, heq, hbits⟩ := mask_eq overflow prefix_len
  obtain ⟨b, hassign, hb⟩ := a.assign_eq (k := prefix_len.toNat / 8) (by omega)
    (· ||| mask.toUInt8) (prefix_len.toNat / 8 + 1) 16 0xff
  refine ⟨_, by rw [broadcastAddress, heq, toNat_div]; simp only [bind, Except.bind, hassign]; rfl, ?_⟩
  intro i hi
  rw [hb i hi]
  rcases Nat.lt_trichotomy (i / 8) (prefix_len.toNat / 8) with hlt | hat | hgt
  · rw [if_neg (by omega), if_neg (by omega), if_pos (by omega)]
  · rw [if_neg (by omega), if_pos hat, UInt8.toNat_or, Nat.testBit_or, hbits _ (by omega), bitAt]
    by_cases hi' : i < prefix_len.toNat
    · rw [if_pos hi', decide_eq_false (by omega), Bool.or_false]
    · rw [if_neg hi', decide_eq_true (by omega), Bool.or_true]
  · rw [if_pos (by omega), testBit_0xff (by omega), if_neg (by omega)]

theorem subnetMask_eq (overflow : SignedOverflow) :
    ∃ subnet, subnetMask overflow prefix_len = .ok subnet ∧
      ∀ i < 128, bitAt subnet.s6_addr i = decide (i < prefix_len.toNat) := by
  obtain ⟨mask, heq, hbits⟩ := mask_eq overflow prefix_len
  obtain ⟨b, hassign, hb⟩ := zero.assign_eq (k := prefix_len.toNat / 8) (by omega)
    (fun _ => ~~~ mask.toUInt8) 0 (prefix_len.toNat / 8) 0xff
  refine ⟨_, by rw [subnetMask, heq, toNat_div]; simp only [bind, Except.bind, hassign]; rfl, ?_⟩
  intro i hi
  rw [hb i hi]
  rcases Nat.lt_trichotomy (i / 8) (prefix_len.toNat / 8) with hlt | hat | hgt
  · rw [if_pos ⟨Nat.zero_le _, hlt⟩, testBit_0xff (by omega), decide_eq_true (by omega)]
  · rw [if_neg (by omega), if_pos hat, testBit_complement _ (by omega), hbits _ (by omega), ← decide_not]
    apply decide_eq_decide.mpr
    omega
  · have hzero : bitAt zero.s6_addr i = false := by
      have hbyte : zero.s6_addr.getD (i / 8) 0 = 0 := List.getD_replicate _ (by omega)
      rw [bitAt, hbyte]
      exact Nat.zero_testBit _
    rw [if_neg (by omega), if_neg (by omega), hzero, decide_eq_false (by omega)]

end

theorem assign_outOfBounds (a : IPv6Address) {k : ℕ} (hk : 16 ≤ k) (f : UInt8 → UInt8) :
    a.assign k f = .error .outOfBounds := by rw [assign, if_neg (not_lt.mpr hk)]

theorem not_broadcastAddress (overflow : SignedOverflow) (h : 128 ≤ prefix_len.toNat)
    (a : IPv6Address) : a.broadcastAddress overflow prefix_len = .error .outOfBounds := by
  obtain ⟨mask, heq, -⟩ := mask_eq overflow prefix_len
  rw [broadcastAddress, heq, toNat_div]
  simp only [bind, Except.bind, a.assign_outOfBounds (k := prefix_len.toNat / 8) (by omega)]

variable (overflow prefix_len)

/-- `broadcastAddress` keeps the first bits and sets the others, `subnetMask` has exactly these set. -/
def KeepsPrefix (a : IPv6Address) : Prop :=
  ∃ baddr subnet, a.broadcastAddress overflow prefix_len = .ok baddr ∧
    subnetMask overflow prefix_len = .ok subnet ∧
    (∀ i < 128, bitAt baddr.s6_addr i =
      if i < prefix_len.toNat then bitAt a.s6_addr i else true) ∧
    ∀ i < 128, bitAt subnet.s6_addr i = decide (i < prefix_len.toNat)

variable {overflow prefix_len}

theorem keepsPrefix_iff_lt (a : IPv6Address) :
    KeepsPrefix overflow prefix_len a ↔ prefix_len.toNat < 128 := by
  by_cases h : prefix_len.toNat < 128
  · obtain ⟨baddr, hbaddr, hbits⟩ := broadcastAddress_eq h overflow a
    obtain ⟨subnet, hsubnet, hmask⟩ := subnetMask_eq h overflow
    exact iff_of_true ⟨baddr, subnet, hbaddr, hsubnet, hbits, hmask⟩ h
  · refine iff_of_false ?_ h
    rintro ⟨baddr, -, hbaddr, -⟩
    rw [not_broadcastAddress overflow (not_lt.mp h)] at hbaddr
    cases hbaddr

end IPv6Address

namespace IPAddress

theorem lt_128_iff {q : UInt32} (hq : q.toNat ≤ 128) : q.toNat < 128 ↔ q ≠ 128 := by
  have h128 : q = 128 ↔ q.toNat = 128 := by rw [← UInt32.toNat_inj]; rfl
  rw [ne_eq, h128]
  omega

/-- The shift by the whole width, and the byte behind the last. -/
theorem keepsPrefix_iff (host : Endian) (overflow : SignedOverflow) (a : IPv4Address)
    (b : IPv6Address) (p q : UInt32) (hp : p.toNat ≤ 32) (hq : q.toNat ≤ 128) :
    (a.KeepsPrefix host overflow p ↔ p ≠ 0 ∧ (p = 1 → overflow = .wraps)) ∧
      (b.KeepsPrefix overflow q ↔ q ≠ 128) := by
  rw [← lt_128_iff hq, ← IPv4Address.maskDefined_iff]
  exact ⟨IPv4Address.keepsPrefix_iff_defined hp a, IPv6Address.keepsPrefix_iff_lt b⟩

theorem keepsPrefix_inside : (IPv4Address.new .little 0xC0A80101 80).KeepsPrefix .little .wraps 20 ∧
    IPv6Address.zero.KeepsPrefix .wraps 60 := by
  have h := keepsPrefix_iff .little .wraps (IPv4Address.new .little 0xC0A80101 80) IPv6Address.zero
    20 60 (by decide) (by decide)
  exact ⟨h.1.mpr (by decide), h.2.mpr (by decide)⟩

/-- 192.168.1.1/0 and ::/128. -/
theorem not_keepsPrefix_ends :
    let a := IPv4Address.new .little 0xC0A80101 80
    (a.broadcastAddress .little .wraps 0 = .error .undefined ∧ ¬ a.KeepsPrefix .little .wraps 0) ∧
      IPv6Address.zero.broadcastAddress .wraps 128 = .error .outOfBounds ∧
      ¬ IPv6Address.zero.KeepsPrefix .wraps 128 := by
  refine ⟨⟨by decide, ?_⟩, by decide, ?_⟩
  · rintro ⟨baddr, -, hbaddr, -⟩
    cases hbaddr
  · rintro ⟨baddr, -, hbaddr, -⟩
    cases hbaddr

end IPAddress

end Sylar
