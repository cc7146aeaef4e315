import BraceLang.Decimal.Shortest
import Mathlib

/-!
Whole numbers as binary64 numbers. A whole number of up to 53 bits is kept as it is: its leading
bit moves to the place where binary64 numbers have theirs, and nothing is rounded.

* **`round_whole`**: rounding finds the number wherever its bits stand;
* **`unpack_pack_whole`**: what is stored is read back as the number;
* **`ofInt_eq`**, **`div_ten`**: so integers are converted exactly, and a tenth of ten times a
  number is the number;
* **`ratio_number`**: the stored bits are those of the number.
-/

namespace BraceLang.Binary64

open Float.Model (Format totalExponent UnpackedFloat)
open Float.Model.UnpackedFloat

/-! ### Rounding -/

theorem log2_mul_two_pow {m : Nat} (pos : 0 < m) (k : Nat) : (m * 2 ^ k).log2 = m.log2 + k := by
  obtain ⟨low, high⟩ := (Nat.log2_eq_iff pos.ne').mp rfl
  rw [Nat.log2_eq_iff (by positivity), Nat.pow_add, Nat.add_right_comm, Nat.pow_add]
  exact ⟨Nat.mul_le_mul_right _ low, Nat.mul_lt_mul_of_pos_right high (by positivity)⟩

/-- Shifting out zeros loses nothing. -/
theorem shiftRight_exact (m k : Nat) :
    (⟨m * 2 ^ k, false, false⟩ : ExtendedMantissa) >>> k = ⟨m, false, false⟩ := by
  induction k generalizing m with
  | zero => simp only [Nat.pow_zero, Nat.mul_one]; rfl
  | succ k ih =>
      have split : m * 2 ^ (k + 1) = m * 2 * 2 ^ k := by
        rw [Nat.pow_succ, Nat.mul_comm (2 ^ k), Nat.mul_assoc]
      change ExtendedMantissa.shiftRightOne
        ((⟨m * 2 ^ (k + 1), false, false⟩ : ExtendedMantissa) >>> k) = _
      rw [split, ih]
      simp [ExtendedMantissa.shiftRightOne]

/-- A number that has no more bits than binary64 numbers keep. -/
structure IsWhole (m : Nat) : Prop where
  pos : 0 < m
  le : m.log2 ≤ 52

/-- How far the leading bit of the number is from its place. -/
def room (m : Nat) : Nat := 52 - m.log2

theorem IsWhole.significand_pos {m : Nat} (is : IsWhole m) : 0 < m * 2 ^ room m :=
  Nat.mul_pos is.pos (by positivity)

/-- A whole number with its leading bit in place. -/
def whole (sign : Sign) (m : Nat) (is : IsWhole m) : UnpackedFloat :=
  .finite sign (m * 2 ^ room m) (-(room m : Int)) is.significand_pos

/-- The exponent that the number gets, wherever its bits stand. -/
theorem targetExponent_whole {m : Nat} (is : IsWhole m) (k : Nat) :
    Format.binary64.targetExponent (totalExponent (m * 2 ^ k) (-(k : Int))) = -(room m : Int) := by
  have le := is.le
  simp only [Format.targetExponent, totalExponent, log2_mul_two_pow is.pos, Format.mantissaBits,
    Format.minExponent, room]
  omega

/-- **Whole numbers are not rounded**, from whatever place on their bits stand. -/
theorem round_whole (sign : Sign) {m : Nat} (is : IsWhole m) {k : Nat} (enough : room m ≤ k) :
    roundWithAccuracy .binary64 sign (m * 2 ^ k) (-(k : Int)) .exact = whole sign m is := by
  have shifted {j : Nat} (le : room m ≤ j) :
      shiftToTargetExponent .binary64 (m * 2 ^ j) (-(j : Int)) .exact =
        (⟨m * 2 ^ room m, false, false⟩, -(room m : Int)) := by
    obtain ⟨i, rfl⟩ := Nat.exists_eq_add_of_le le
    have amount : (-(room m : Int) - -((room m + i : Nat) : Int)).toNat = i := by omega
    rw [shiftToTargetExponent, targetExponent_whole is, shiftToExponent]
    simp only [amount, ExtendedMantissa.ofMantissaAndAccuracy]
    rw [Nat.pow_add, ← Nat.mul_assoc, shiftRight_exact]
    refine Prod.ext rfl ?_
    dsimp only
    omega
  have first := shifted enough
  have second := shifted (Nat.le_refl _)
  simp only [roundWithAccuracy, first, ExtendedMantissa.roundedMantissa, ExtendedMantissa.accuracy,
    Accuracy.roundToNearestEven, second, dif_neg is.significand_pos.ne']
  rfl

/-! ### Storing -/

/-- The bits behind the leading one. -/
def fraction (m : Nat) : Nat := m * 2 ^ room m - 2 ^ 52

theorem significand_bounds {m : Nat} (is : IsWhole m) :
    m * 2 ^ room m = 2 ^ 52 + fraction m ∧ fraction m < 2 ^ 52 := by
  have log : (m * 2 ^ room m).log2 = 52 := by
    rw [log2_mul_two_pow is.pos, room]
    have := is.le
    omega
  obtain ⟨low, high⟩ := (Nat.log2_eq_iff is.significand_pos.ne').mp log
  unfold fraction
  omega

theorem pack_whole (sign : Sign) {m : Nat} (is : IsWhole m) :
    pack .binary64 (whole sign m is) =
      packComponents .binary64 sign (BitVec.ofNat 11 (1023 + m.log2))
        (BitVec.ofNat 52 (fraction m)) := by
  have le := is.le
  obtain ⟨split, below⟩ := significand_bounds is
  have log : (m * 2 ^ room m).log2 = 52 := by
    rw [log2_mul_two_pow is.pos, room]
    omega
  have exponent : (-(room m : Int) + Format.binary64.exponentBias +
      Format.binary64.mantissaBitsWithoutImplicit).toNat = 1023 + m.log2 := by
    change (-(room m : Int) + (1023 : Nat) + (52 : Nat)).toNat = 1023 + m.log2
    rw [room]
    omega
  have implicit : BitVec.ofNat 52 (m * 2 ^ room m) = BitVec.ofNat 52 (fraction m) := by
    refine BitVec.eq_of_toNat_eq ?_
    rw [BitVec.toNat_ofNat, BitVec.toNat_ofNat, split, Nat.add_mod_left]
  rw [whole, pack]
  simp only [log, exponent, implicit]
  rw [if_neg (by omega)]
  exact if_pos rfl

/-- **What is stored is read back.** -/
theorem unpack_pack_whole (sign : Sign) {m : Nat} (is : IsWhole m) :
    unpack .binary64 (pack .binary64 (whole sign m is)) = whole sign m is := by
  have le := is.le
  obtain ⟨split, below⟩ := significand_bounds is
  have stored : (BitVec.ofNat 11 (1023 + m.log2)).toNat = 1023 + m.log2 := by
    rw [BitVec.toNat_ofNat]
    exact Nat.mod_eq_of_lt (by omega)
  have behind : (BitVec.ofNat 52 (fraction m)).toNat = fraction m := by
    rw [BitVec.toNat_ofNat]
    exact Nat.mod_eq_of_lt below
  have finite : BitVec.ofNat 11 (1023 + m.log2) ≠ -1#11 := by
    intro same
    have := stored.symm.trans (congrArg BitVec.toNat same)
    simp at this
    omega
  have normal : BitVec.ofNat 11 (1023 + m.log2) ≠ 0#11 := by
    intro same
    have := stored.symm.trans (congrArg BitVec.toNat same)
    simp at this
  have significand : (1#1 ++ BitVec.ofNat 52 (fraction m)).toNat = m * 2 ^ room m := by
    rw [BitVec.toNat_append, ← Nat.shiftLeft_add_eq_or_of_lt (BitVec.ofNat 52 (fraction m)).isLt,
      behind, split]
    rfl
  have exponent : ((BitVec.ofNat 11 (1023 + m.log2)).toNat : Int) -
      (Format.binary64.exponentBias + Format.binary64.mantissaBitsWithoutImplicit) =
        -(room m : Int) := by
    rw [stored]
    change ((1023 + m.log2 : Nat) : Int) - ((1023 : Nat) + (52 : Nat)) = -(room m : Int)
    rw [room]
    omega
  rw [pack_whole, unpack]
  simp only [unpackMantissa_packComponents, unpackExponent_packComponents,
    unpackSign_packComponents, Sign.ofBitVec_toBitVec, if_neg finite, if_neg normal, whole,
    significand, exponent]

/-- The binary64 number for a whole number. -/
def number (sign : Sign) (m : Nat) (is : IsWhole m) : Float := .ofModel (.pack (whole sign m is))

theorem unpack_number (sign : Sign) {m : Nat} (is : IsWhole m) :
    (number sign m is).toModel.unpack = whole sign m is := unpack_pack_whole sign is

/-! ### Arithmetic -/

theorem isWhole_one : IsWhole 1 := ⟨by decide, by decide⟩

theorem isWhole_ten : IsWhole 10 := ⟨by decide, by decide⟩

theorem neg_number {m : Nat} (is : IsWhole m) :
    -number .positive m is = number .negative m is := by
  change Float.ofModel (.pack (number .positive m is).toModel.unpack.neg) = _
  rw [unpack_number]
  rfl

theorem toFloat_number {m : Nat} (is : IsWhole m) {n : UInt64} (same : n.toNat = m) :
    n.toFloat = number .positive m is := by
  subst same
  have target : Format.binary64.targetExponent (totalExponent n.toNat 0) =
      -(room n.toNat : Int) := by
    simpa using targetExponent_whole is 0
  have amount : (0 - -(room n.toNat : Int)).toNat = room n.toNat := by omega
  have greater : compare (n.toNat : Int) 0 = .gt := by
    rw [Int.compare_eq_gt]
    have := is.pos
    omega
  refine congrArg (fun f => Float.ofModel (.pack f)) ?_
  rw [ofUInt64, ofNat, ofInt, UnpackedFloat.normalize, greater]
  simp only [Int.toNat_natCast, UnpackedFloat.round, decreaseExponent, target, amount,
    Nat.shiftLeft_eq]
  rw [Int.zero_sub]
  exact round_whole .positive is (Nat.le_refl _)

theorem mul_one {m : Nat} (is : IsWhole m) :
    number .positive m is * number .positive 1 isWhole_one = number .positive m is := by
  have product : m * 2 ^ room m * (1 * 2 ^ room 1) = m * 2 ^ (room m + room 1) := by
    rw [Nat.one_mul, Nat.pow_add, Nat.mul_assoc]
  have exponent : -(room m : Int) + -(room 1 : Int) = -((room m + room 1 : Nat) : Int) := by omega
  change Float.ofModel (.pack (mul .binary64 (number .positive m is).toModel.unpack
    (number .positive 1 isWhole_one).toModel.unpack)) = _
  rw [unpack_number, unpack_number]
  refine congrArg (fun f => Float.ofModel (.pack f)) ?_
  simp only [whole, mul, product, exponent]
  exact round_whole .positive is (Nat.le_add_right _ _)

theorem room_le_ten_mul {m : Nat} (pos : 0 < m) : room m ≤ room (10 * m) + 4 := by
  obtain ⟨-, high⟩ := (Nat.log2_eq_iff pos.ne').mp rfl
  have below : (10 * m).log2 < m.log2 + 5 := by
    rw [Nat.log2_lt (by omega), show m.log2 + 5 = m.log2 + 1 + 4 by omega, Nat.pow_add]
    omega
  unfold room
  omega

/-- **The tenth of ten times a number is the number**: the quotient has no remainder. -/
theorem div_ten {m : Nat} (is : IsWhole m) (is' : IsWhole (10 * m)) :
    number .positive (10 * m) is' / number .positive 10 isWhole_ten = number .positive m is := by
  have le := is'.le
  have total : totalExponent (10 * m * 2 ^ room (10 * m)) (-(room (10 * m) : Int)) -
      totalExponent (10 * 2 ^ room 10) (-(room 10 : Int)) = (10 * m).log2 - 3 := by
    have log : Nat.log2 10 = 3 := by decide
    simp only [totalExponent, log2_mul_two_pow is'.pos, log2_mul_two_pow isWhole_ten.pos, log]
    omega
  have target : min (-(room (10 * m) : Int) - -(room 10 : Int))
      (Format.binary64.targetExponent ((10 * m).log2 - 3)) =
        -((room (10 * m) + 4 : Nat) : Int) := by
    have ten : room 10 = 49 := by decide
    simp only [Format.targetExponent, Format.mantissaBits, Format.minExponent, ten]
    rw [room]
    omega
  have amount : (-(room (10 * m) : Int) - -(room 10 : Int) -
      -((room (10 * m) + 4 : Nat) : Int)).toNat = 53 := by
    have ten : room 10 = 49 := by decide
    omega
  have scaled : (10 * m * 2 ^ room (10 * m)) <<< 53 =
      m * 2 ^ (room (10 * m) + 4) * (10 * 2 ^ room 10) := by
    have ten : 2 ^ 53 = 2 ^ 4 * 2 ^ room 10 := by decide
    rw [Nat.shiftLeft_eq, ten, Nat.pow_add]
    ac_rfl
  have divisor : 0 < 10 * 2 ^ room 10 := isWhole_ten.significand_pos
  change Float.ofModel (.pack (div .binary64 (number .positive (10 * m) is').toModel.unpack
    (number .positive 10 isWhole_ten).toModel.unpack)) = _
  rw [unpack_number, unpack_number]
  refine congrArg (fun f => Float.ofModel (.pack f)) ?_
  simp only [whole, div, divCore, total, target, amount, scaled, Nat.mul_div_cancel _ divisor,
    Nat.mul_mod_left, accuracyOfFraction, if_true]
  exact round_whole .positive is (room_le_ten_mul is.pos)

/-! ### Conversions -/

theorem one_eq : Float.exactlyRepresentablePowersOfTen[0] = number .positive 1 isWhole_one := by
  decide +kernel

theorem ten_eq : Float.exactlyRepresentablePowersOfTen[1] = number .positive 10 isWhole_ten := by
  decide +kernel

theorem IsWhole.lt {m : Nat} (is : IsWhole m) : m < 2 ^ 53 :=
  (Nat.log2_lt is.pos.ne').mp (Nat.lt_succ_of_le is.le)

/-- A whole number in decimal notation. -/
theorem ofScientific_whole {m : Nat} (is : IsWhole m) :
    Float.ofScientific m false 0 = number .positive m is := by
  have below := is.lt
  have same : m.toUInt64.toNat = m := by
    rw [Nat.toUInt64_eq, UInt64.toNat_ofNat']
    exact Nat.mod_eq_of_lt (by omega)
  rw [Float.ofScientific, dif_pos ⟨below, by decide⟩]
  simp only [Bool.false_eq_true, if_false]
  rw [one_eq, toFloat_number is same, mul_one]

/-- Ten times a whole number, with the point one place to the left. -/
theorem ofScientific_tenth {m : Nat} (is : IsWhole m) (is' : IsWhole (10 * m)) :
    Float.ofScientific (10 * m) true 1 = number .positive m is := by
  have below := is'.lt
  have same : (10 * m).toUInt64.toNat = 10 * m := by
    rw [Nat.toUInt64_eq, UInt64.toNat_ofNat']
    exact Nat.mod_eq_of_lt (by omega)
  rw [Float.ofScientific, dif_pos ⟨below, by decide⟩]
  simp only [if_true]
  rw [ten_eq, toFloat_number is' same, div_ten is]

/-- The sign of a number that is negative or not. -/
def signOf (negative : Bool) : Sign := if negative then .negative else .positive

/-- **Integers are converted exactly.** -/
theorem ofInt_eq {n : Int} (is : IsWhole n.natAbs) :
    Float.ofInt n = number (signOf (decide (n < 0))) n.natAbs is := by
  cases n with
  | ofNat n =>
      have sign : signOf (decide (Int.ofNat n < 0)) = .positive := by simp [signOf]
      rw [sign]
      exact ofScientific_whole is
  | negSucc n =>
      have sign : signOf (decide (Int.negSucc n < 0)) = .negative := by simp [signOf]
      rw [sign, ← neg_number]
      exact congrArg Float.neg (ofScientific_whole is)

/-! ### Bits -/

theorem isFinite_number (sign : Sign) {m : Nat} (is : IsWhole m) :
    (number sign m is).isFinite = true := by
  change (number sign m is).toModel.unpack.isFinite = true
  rw [unpack_number]
  rfl

theorem toBits_number (sign : Sign) {m : Nat} (is : IsWhole m) :
    (number sign m is).toBits.toNat =
      (sign.toBitVec.toNat * 2 ^ 11 + (1023 + m.log2)) * 2 ^ 52 + fraction m := by
  have le := is.le
  obtain ⟨-, below⟩ := significand_bounds is
  have bits : (number sign m is).toBits.toNat = (packComponents .binary64 sign
      (BitVec.ofNat 11 (1023 + m.log2)) (BitVec.ofNat 52 (fraction m))).toNat := by
    rw [← pack_whole sign is]
    rfl
  rw [bits, packComponents, BitVec.toNat_append, BitVec.toNat_append,
    ← Nat.shiftLeft_add_eq_or_of_lt (BitVec.ofNat 52 (fraction m)).isLt,
    ← Nat.shiftLeft_add_eq_or_of_lt (BitVec.ofNat 11 (1023 + m.log2)).isLt, Nat.shiftLeft_eq,
    Nat.shiftLeft_eq, BitVec.toNat_ofNat, BitVec.toNat_ofNat, Nat.mod_eq_of_lt below,
    Nat.mod_eq_of_lt (by omega : 1023 + m.log2 < 2 ^ 11)]

theorem isNegative_number (negative : Bool) {m : Nat} (is : IsWhole m) :
    Decimal.isNegative (number (signOf negative) m is) = negative := by
  have le := is.le
  obtain ⟨-, below⟩ := significand_bounds is
  rw [Decimal.isNegative, toBits_number]
  cases negative with
  | true =>
      have sign : (signOf true).toBitVec.toNat = 1 := rfl
      rw [decide_eq_true_eq, sign]
      omega
  | false =>
      have sign : (signOf false).toBitVec.toNat = 0 := rfl
      rw [decide_eq_false_iff_not, sign]
      omega

/-- **The stored bits are those of the number.** -/
theorem ratio_number (sign : Sign) {m : Nat} (is : IsWhole m) (inside : m.log2 < 52) :
    Decimal.ratio (number sign m is) = (m * 2 ^ room m, 2 ^ room m) := by
  obtain ⟨split, below⟩ := significand_bounds is
  have behind : (number sign m is).toBits.toNat % Decimal.hiddenBit = fraction m := by
    rw [toBits_number, Decimal.hiddenBit]
    omega
  have exponent : (number sign m is).toBits.toNat / Decimal.hiddenBit % 0x800 = 1023 + m.log2 := by
    rw [toBits_number, Decimal.hiddenBit]
    omega
  have shift : 1075 - (1023 + m.log2) = room m := by
    rw [room]
    omega
  have hidden : Decimal.hiddenBit + fraction m = m * 2 ^ room m := split.symm
  simp only [Decimal.ratio, behind, exponent]
  rw [if_neg (by omega), if_neg (by omega), shift, hidden, Nat.shiftLeft_eq, Nat.one_mul]

end BraceLang.Binary64
