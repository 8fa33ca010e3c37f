import PinQuery.Number
import PinQuery.Proofs.Decimal.Rounding

/-!
# Integers are clamped exactly

An integer that is rounded to a binary number and cut back to whole numbers between two bounds is
clamped to these bounds, although large integers are rounded.

* `Binary64.roundUnits_mul_one`: up to 53 bits nothing is rounded.
* `Binary64.le_two_mul_roundUnits`: rounding never loses more than half of a value, so a larger
  integer stays beyond the bounds.
* `Binary64.truncate_ofInt`: the clamp.
* `Number.toInt_milliseconds_int` and `Number.toWord_int`: the delay and the speed of an integer.
-/

namespace PinQuery

namespace Binary64

/-- What is a multiple of its spacing is not rounded. -/
theorem roundUnits_of_dvd {n : Nat} (h : spacing n ∣ n) : roundUnits n 1 = n := by
  have hpos : 0 < spacing n := Nat.two_pow_pos _
  obtain ⟨k, hk⟩ := h
  have hround : roundHalfEven n (1 * spacing n) = k := by
    have hn : k * (1 * spacing n) = n := by rw [Nat.one_mul, Nat.mul_comm, ← hk]
    exact roundHalfEven_eq (by omega) (by omega) (by omega) (by omega)
  simp only [roundUnits, Nat.div_one, hround]
  rw [Nat.mul_comm, ← hk]

/-- A number of at most 53 bits is a multiple of its spacing in whatever units. -/
theorem spacing_dvd_mul_pow {n : Nat} (hn : n < 2 ^ 53) (t : Nat) :
    spacing (n * Nat.pow 2 t) ∣ n * Nat.pow 2 t := by
  rcases Nat.eq_zero_or_pos n with rfl | hpos
  · simp
  · have hlog : (n * 2 ^ t).log2 < 53 + t := by
      rw [Nat.log2_lt (Nat.mul_pos hpos (Nat.two_pow_pos t)).ne', Nat.pow_add]
      exact Nat.mul_lt_mul_of_pos_right hn (Nat.two_pow_pos t)
    have hdvd : 2 ^ ((n * 2 ^ t).log2 - 52) ∣ 2 ^ t := Nat.pow_dvd_pow 2 (by omega)
    exact hdvd.mul_left n

/-- Whole numbers of at most 53 bits are magnitudes. -/
theorem representable_mul_one {n : Nat} (hn : n < 2 ^ 53) : Representable (n * one) := by
  have hlt : n * one < 2 ^ 53 * one := Nat.mul_lt_mul_of_pos_right hn one_pos
  have hmax : 2 ^ 53 * one ≤ Nat.pow 2 2098 := by decide +kernel
  obtain ⟨t, hone⟩ : ∃ t, one = Nat.pow 2 t := ⟨1074, by decide +kernel⟩
  have hdvd : spacing (n * one) ∣ n * one := hone ▸ spacing_dvd_mul_pow hn t
  exact ⟨hdvd, hlt.trans_le hmax⟩

/-- Up to 53 bits nothing is rounded. -/
theorem roundUnits_mul_one {n : Nat} (hn : n < 2 ^ 53) : roundUnits (n * one) 1 = n * one :=
  roundUnits_of_dvd (representable_mul_one hn).1

theorem div_le_roundHalfEven (num den : Nat) : num / den ≤ roundHalfEven num den := by
  unfold roundHalfEven
  dsimp only
  split_ifs <;> omega

theorem spacing_le {n : Nat} (hn : n ≠ 0) : spacing n ≤ n := by
  rcases spacing_eq_one_or_le hn with h | h <;> omega

/-- Rounding never loses more than half of a value. -/
theorem le_two_mul_roundUnits (n : Nat) : n ≤ 2 * roundUnits n 1 := by
  rcases Nat.eq_zero_or_pos n with rfl | hn
  · exact Nat.zero_le _
  have hpos : 0 < spacing n := Nat.two_pow_pos _
  have hone : 1 ≤ n / spacing n := Nat.div_pos (spacing_le hn.ne') hpos
  have hdiv : spacing n * (n / spacing n) + n % spacing n = n := Nat.div_add_mod n (spacing n)
  have hmod : n % spacing n < spacing n := Nat.mod_lt n hpos
  have hround : n / spacing n * spacing n ≤ roundUnits n 1 := by
    simp only [roundUnits, Nat.div_one, Nat.one_mul]
    exact Nat.mul_le_mul_right _ (div_le_roundHalfEven n (spacing n))
  have hstep : 1 * spacing n ≤ n / spacing n * spacing n := Nat.mul_le_mul_right _ hone
  rw [Nat.mul_comm (spacing n)] at hdiv
  omega

/-- An integer with more than 53 bits is still beyond `2 ^ 52` when it is rounded. -/
theorem le_roundUnits_div_one {n : Nat} (hn : 2 ^ 53 ≤ n) :
    2 ^ 52 ≤ roundUnits (n * one) 1 / one := by
  rw [Nat.le_div_iff_mul_le one_pos]
  have hle : 2 ^ 53 * one ≤ n * one := Nat.mul_le_mul_right one hn
  have hhalf := le_two_mul_roundUnits (n * one)
  omega

/-- **Rounding an integer and cutting it back clamps it.** -/
theorem truncate_ofInt {least greatest : Int} (hleast : -2 ^ 52 ≤ least)
    (hgreatest : greatest ≤ 2 ^ 52) (hle : least ≤ greatest) (value : Int) :
    (ofInt value).truncate least greatest = max least (min greatest value) := by
  rw [ofInt, ofQuotient]
  rcases Nat.lt_or_ge value.natAbs (2 ^ 53) with hn | hn
  · have hwhole : value.natAbs * one / one = value.natAbs := Nat.mul_div_cancel _ one_pos
    rw [roundUnits_mul_one hn, ofUnits, dif_pos (representable_mul_one hn)]
    simp only [truncate, hwhole, decide_eq_true_eq]
    congr 2
    split_ifs <;> omega
  · have hwhole := le_roundUnits_div_one hn
    unfold ofUnits
    split_ifs with hrep
    · simp only [truncate, decide_eq_true_eq]
      generalize roundUnits (value.natAbs * one) 1 / one = whole at hwhole
      split_ifs <;> omega
    · simp only [truncate, decide_eq_true_eq]
      split_ifs <;> omega

end Binary64

namespace Number

theorem isPositive_int {value : Int64} : (int value).isPositive = decide (0 < value.toInt) := by
  rw [isPositive, decide_eq_decide, Int64.lt_iff_toInt_lt]
  rfl

/-- The milliseconds of whole seconds are clamped to 64 bits. -/
theorem toInt_milliseconds_int (value : Int64) : (int value).milliseconds.toInt =
    max (-2 ^ 63) (min (2 ^ 63 - 1) (1000 * value.toInt)) := by
  rw [milliseconds, Int64.toInt_ofInt_of_le, Int.mul_comm]
  · rfl
  · simp only [minInt, maxInt]
    omega
  · simp only [minInt, maxInt]
    omega

/-- An integer as a whole number of 32 bits is clamped to them. -/
theorem toWord_int (value : Int64) :
    (int value).toWord = (max 0 (min (2 ^ 32 - 1) value.toInt)).toNat := by
  rw [toWord, toFloat, Binary64.truncate_ofInt (by decide) (by decide) (by decide)]
  rfl

end Number

end PinQuery
