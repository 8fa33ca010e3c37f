import Mathlib.Data.List.TakeWhile
import PinQuery.Proofs.Decimal.Rounding
import PinQuery.Proofs.Token.Numeral

/-!
# The text of a binary number reads back

A layout writes the significant digits of a decimal with a point or an exponent.

* `Layout.writes_decimal`: what is written is a numeral, and its value is that of the decimal.
* `Layout.magnitude_reads`: the text of a magnitude is a numeral that rounds to the magnitude, in
  every layout.
-/

namespace PinQuery

/-! ## Significant digits -/

namespace Layout

/-- A coefficient is its significant digits and zeros. -/
theorem exists_toDigits_eq (c : Nat) :
    ∃ zeros, Nat.toDigits 10 c = significant c ++ List.replicate zeros '0' := by
  refine ⟨((Nat.toDigits 10 c).reverse.takeWhile (· == '0')).length, ?_⟩
  have hzeros : ((Nat.toDigits 10 c).reverse.takeWhile (· == '0')).reverse =
      List.replicate ((Nat.toDigits 10 c).reverse.takeWhile (· == '0')).length '0' := by
    rw [List.reverse_eq_iff, List.reverse_replicate]
    refine List.eq_replicate_of_mem fun d hd => ?_
    simpa using List.mem_takeWhile_imp hd
  rw [significant, ← hzeros, ← List.reverse_append, List.takeWhile_append_dropWhile,
    List.reverse_reverse]

theorem isDigit_of_mem_significant {c : Nat} {d : Char} (h : d ∈ significant c) :
    d.isDigit = true := by
  obtain ⟨zeros, hzeros⟩ := exists_toDigits_eq c
  refine Nat.isDigit_of_mem_toDigits (b := 10) (by decide) (by decide) (n := c) ?_
  rw [hzeros]
  exact List.mem_append_left _ h

theorem digitsValue_append (ds es : List Char) : Decimal.digitsValue (ds ++ es) =
    Decimal.digitsValue ds * 10 ^ es.length + Decimal.digitsValue es := by
  rw [Decimal.digitsValue, Nat.ofDigitChars_append, Nat.ofDigitChars_eq_ofDigitChars_zero,
    Nat.mul_comm]
  rfl

theorem digitsValue_replicate_zero (n : Nat) :
    Decimal.digitsValue (List.replicate n '0') = 0 := by
  rw [Decimal.digitsValue, Nat.ofDigitChars_replicate_zero, Nat.mul_zero]

theorem significant_ne_nil {c : Nat} (hc : c ≠ 0) : significant c ≠ [] := by
  intro hnil
  obtain ⟨zeros, hzeros⟩ := exists_toDigits_eq c
  refine hc ?_
  rw [← Nat.ofDigitChars_ten_toDigits (n := c), hzeros, hnil, List.nil_append]
  exact digitsValue_replicate_zero zeros

/-- The value of a decimal by its significant digits and the power of its leading one. -/
theorem value_eq (d : Decimal) : d.value = Decimal.digitsValue (significant d.coefficient) *
    (10 : ℚ) ^ (d.exponent + Decimal.digitCount d.coefficient - (significant d.coefficient).length) := by
  obtain ⟨zeros, hzeros⟩ := exists_toDigits_eq d.coefficient
  have hcount : Decimal.digitCount d.coefficient = (significant d.coefficient).length + zeros := by
    rw [Decimal.digitCount, hzeros, List.length_append, List.length_replicate]
  have hvalue : d.coefficient = Decimal.digitsValue (significant d.coefficient) * 10 ^ zeros := by
    conv_lhs => rw [← Nat.ofDigitChars_ten_toDigits (n := d.coefficient), hzeros]
    change Decimal.digitsValue _ = _
    rw [digitsValue_append, digitsValue_replicate_zero, List.length_replicate, Nat.add_zero]
  have hpower : d.exponent + Decimal.digitCount d.coefficient - (significant d.coefficient).length =
      (zeros : Int) + d.exponent := by
    rw [hcount]
    push_cast
    ring
  rw [hpower, zpow_add₀ (by norm_num), zpow_natCast, ← mul_assoc, Decimal.value]
  congr 1
  exact_mod_cast hvalue

/-- A text is a numeral with a point or an exponent and stands for a given value. -/
def WritesFloat (cs : List Char) (x : ℚ) : Prop :=
  ∃ n : Numeral, n.text = cs ∧ n.decimal.value = x ∧ cs.any Number.isFloatMark = true

theorem isExponent_exponentMark (layout : Layout) (power : Int) :
    IsExponent (layout.exponentMark power) := by
  have hdigits : ∀ c ∈ Nat.toDigits 10 power.natAbs, c.isDigit := fun c hc =>
    Nat.isDigit_of_mem_toDigits (by decide) (by decide) hc
  simp only [exponentMark]
  split
  · exact .signed (.inl rfl) (.inr rfl) Nat.toDigits_ne_nil hdigits
  · split
    · exact .signed (.inl rfl) (.inl rfl) Nat.toDigits_ne_nil hdigits
    · exact .unsigned (.inl rfl) Nat.toDigits_ne_nil hdigits

theorem signedValue_of_digits {digits : List Char} (hdigits : ∀ c ∈ digits, c.isDigit) :
    Decimal.signedValue digits = Decimal.digitsValue digits := by
  unfold Decimal.signedValue
  split
  next => exact absurd (hdigits '-' (by simp)) (by decide)
  next => exact absurd (hdigits '+' (by simp)) (by decide)
  next => rfl

theorem exponentValue_exponentMark (layout : Layout) (power : Int) :
    Decimal.exponentValue (layout.exponentMark power) = power := by
  have hvalue : (Decimal.digitsValue (Nat.toDigits 10 power.natAbs) : Int) = power.natAbs := by
    rw [Decimal.digitsValue, Nat.ofDigitChars_ten_toDigits]
  have hdigits : ∀ c ∈ Nat.toDigits 10 power.natAbs, c.isDigit := fun c hc =>
    Nat.isDigit_of_mem_toDigits (by decide) (by decide) hc
  simp only [exponentMark, Decimal.exponentValue]
  split
  · simp only [List.singleton_append, Decimal.signedValue, hvalue]
    omega
  · split
    · simp only [List.singleton_append, Decimal.signedValue, hvalue]
      omega
    · rw [List.nil_append, signedValue_of_digits hdigits, hvalue]
      omega

section

variable {digits : List Char} (hne : digits ≠ []) (hdigits : ∀ c ∈ digits, c.isDigit)
include hne hdigits

theorem writes_mantissa (layout : Layout) (power : Int) :
    WritesFloat (mantissa digits ++ layout.exponentMark power)
      (Decimal.digitsValue digits * (10 : ℚ) ^ (power + 1 - digits.length)) := by
  obtain ⟨d, ds, rfl⟩ := List.exists_cons_of_ne_nil hne
  have hd : ∀ c ∈ [d], c.isDigit := fun c hc => hdigits c (by simp_all)
  have hds : ∀ c ∈ ds, c.isDigit := fun c hc => hdigits c (by simp [hc])
  refine ⟨⟨[d], ds, layout.exponentMark power, by simp, hd, hds,
    isExponent_exponentMark layout power⟩, ?_, ?_, ?_⟩
  · cases ds <;> rfl
  · simp only [Numeral.decimal, Decimal.value, exponentValue_exponentMark, List.singleton_append,
      List.length_cons]
    congr 2
    push_cast
    ring
  · simp [exponentMark, Number.isFloatMark]

theorem writes_positional (places : Nat) :
    WritesFloat (positional digits places)
      (Decimal.digitsValue digits * (10 : ℚ) ^ ((places : Int) + 1 - digits.length)) := by
  unfold positional
  split
  next hle =>
    obtain ⟨k, hk⟩ := Nat.exists_eq_add_of_le hle
    rw [hk, Nat.add_sub_cancel_left]
    refine ⟨⟨digits ++ List.replicate k '0', ['0'], [], by simp [hne], ?_, by simp, .none⟩,
      ?_, ?_, ?_⟩
    · intro c hc
      rcases List.mem_append.1 hc with hc | hc
      · exact hdigits c hc
      · rw [List.eq_of_mem_replicate hc]
        rfl
    · simp [Numeral.text, pointed]
    · have hpower : (places : Int) + 1 - digits.length = k := by omega
      simp only [Numeral.decimal, Decimal.value, digitsValue_append, digitsValue_replicate_zero,
        List.length_replicate, Decimal.exponentValue, hpower, zpow_natCast]
      have hzero : Decimal.digitsValue ['0'] = 0 := rfl
      rw [hzero]
      push_cast
      norm_num
      ring
    · simp [Number.isFloatMark]
  next hgt =>
    have hdrop : digits.drop (places + 1) ≠ [] := by
      rw [Ne, List.drop_eq_nil_iff]
      exact hgt
    refine ⟨⟨digits.take (places + 1), digits.drop (places + 1), [], by simp [hne],
      fun c hc => hdigits c (List.mem_of_mem_take hc),
      fun c hc => hdigits c (List.mem_of_mem_drop hc), .none⟩, ?_, ?_, ?_⟩
    · obtain ⟨d, ds, hds⟩ := List.exists_cons_of_ne_nil hdrop
      simp only [Numeral.text, hds, pointed, List.append_nil]
    · simp only [Numeral.decimal, Decimal.value, Decimal.exponentValue, List.take_append_drop,
        List.length_drop]
      congr 2
      omega
    · simp [Number.isFloatMark]

theorem writes_fractional (zeros : Nat) :
    WritesFloat (fractional digits zeros)
      (Decimal.digitsValue digits * (10 : ℚ) ^ (Int.negSucc zeros + 1 - digits.length)) := by
  have hne' : List.replicate zeros '0' ++ digits ≠ [] := by simp [hne]
  refine ⟨⟨['0'], List.replicate zeros '0' ++ digits, [], by simp, by simp, ?_, .none⟩, ?_, ?_, ?_⟩
  · intro c hc
    rcases List.mem_append.1 hc with hc | hc
    · rw [List.eq_of_mem_replicate hc]
      rfl
    · exact hdigits c hc
  · obtain ⟨d, ds, hds⟩ := List.exists_cons_of_ne_nil hne'
    simp only [Numeral.text, fractional, hds, pointed, List.append_nil, List.singleton_append]
  · have hzero : Decimal.digitsValue ['0'] = 0 := rfl
    simp only [Numeral.decimal, Decimal.value, Decimal.exponentValue, digitsValue_append, hzero,
      digitsValue_replicate_zero, zero_mul, zero_add, List.length_append, List.length_replicate]
    congr 2
    omega
  · simp [fractional, Number.isFloatMark]

end

/-- **The text of a decimal that is not zero is a numeral with its value.** -/
theorem writes_decimal (layout : Layout) {d : Decimal} (hd : d.coefficient ≠ 0) :
    WritesFloat (layout.decimal d) d.value := by
  have hne := significant_ne_nil hd
  have hdigits : ∀ c ∈ significant d.coefficient, c.isDigit := fun c =>
    isDigit_of_mem_significant
  have hvalue (power : Int) (h : d.exponent + Decimal.digitCount d.coefficient - 1 = power) :
      d.value = Decimal.digitsValue (significant d.coefficient) *
        (10 : ℚ) ^ (power + 1 - (significant d.coefficient).length) := by
    rw [value_eq, ← h]
    congr 2
    ring
  simp only [decimal]
  split
  · rw [hvalue _ rfl]
    exact writes_mantissa hne hdigits layout _
  · split
    next places h =>
      rw [hvalue _ h]
      exact writes_positional hne hdigits places
    next zeros h =>
      rw [hvalue _ h]
      exact writes_fractional hne hdigits zeros

/-- **The text of a magnitude is a numeral that rounds to it.** -/
theorem magnitude_reads (layout : Layout) (m : Magnitude) :
    ∃ n : Numeral, n.text = layout.magnitude m ∧ n.text.any Number.isFloatMark = true ∧
      ∀ negative, n.decimal.round negative = .finite negative m := by
  unfold magnitude
  split
  next hu =>
    let n : Numeral := ⟨['0'], ['0'], [], by simp, by simp, by simp, .none⟩
    have hzero : n.decimal.coefficient = 0 := rfl
    obtain ⟨units, hunits⟩ := m
    subst hu
    refine ⟨n, rfl, by decide, fun negative => ?_⟩
    rw [Decimal.round, if_pos hzero, Binary64.zero, Binary64.ofUnits, dif_pos hunits]
  next hu =>
    have hmem := m.shortest_mem hu layout.tie
    have hcoefficient := (Decimal.size_of_mem hu hmem).1
    obtain ⟨n, htext, hvalue, hmark⟩ := writes_decimal layout hcoefficient
    refine ⟨n, htext, htext ▸ hmark, fun negative => Decimal.round_of_mem negative hu ?_⟩
    rw [hvalue]
    exact hmem

end Layout

end PinQuery
