import PinQuery.Proofs.Decimal.Layout

/-!
# The texts of numbers

The canonical text of a number is a numeral behind an optional minus, and so is its text in JSON.

* `Number.text_int`: integers are written with their digits.
* `Number.text_float` and `Number.json_float`: finite floats are written with a numeral that has a
  point or an exponent and rounds to the float again, its sign taken from the minus.
* `isPlain`: no numeral that is written has a digit behind a zero in front.
-/

namespace PinQuery

theorem Number.isFloatMark_of_isDigit {c : Char} (h : c.isDigit = true) :
    isFloatMark c = false := by
  by_contra hmark
  simp only [isFloatMark, Bool.not_eq_false, Bool.or_eq_true, beq_iff_eq] at hmark
  rcases hmark with (rfl | rfl) | rfl <;> exact absurd h (by decide)

/-- A numeral behind an optional minus. -/
def signed (negative : Bool) (numeral : List Char) : List Char :=
  if negative then '-' :: numeral else numeral

/-- The numeral of a natural number. -/
def Numeral.ofNat (n : Nat) : Numeral where
  whole := Nat.toDigits 10 n
  fraction := []
  exponent := []
  whole_ne_nil := Nat.toDigits_ne_nil
  whole_digits _ := Nat.isDigit_of_mem_toDigits (by decide) (by decide)
  fraction_digits := by simp
  exponent_form := .none

namespace Numeral

theorem text_ofNat (n : Nat) : (ofNat n).text = Nat.toDigits 10 n := by
  simp [text, ofNat, pointed]

theorem digitsValue_ofNat (n : Nat) : Decimal.digitsValue (ofNat n).text = n := by
  rw [text_ofNat, Decimal.digitsValue, Nat.ofDigitChars_ten_toDigits]

theorem digitsValue_repr (n : Nat) : Decimal.digitsValue n.repr.toList = n := by
  rw [Nat.toList_repr, ← text_ofNat, digitsValue_ofNat]

/-- The numeral of a natural number has neither a point nor an exponent. -/
theorem isFloatMark_ofNat {n : Nat} {c : Char} (h : c ∈ (ofNat n).text) :
    Number.isFloatMark c = false := by
  rw [text_ofNat] at h
  exact Number.isFloatMark_of_isDigit (Nat.isDigit_of_mem_toDigits (by decide) (by decide) h)

end Numeral

/-! ## Zeros in front -/

/-- No digit follows a zero in front. -/
def isPlain : List Char → Bool
  | '0' :: c :: _ => !c.isDigit
  | _ => true

theorem isPlain_of_head?_ne {cs : List Char} (h : cs.head? ≠ some '0') : isPlain cs = true := by
  unfold isPlain
  split
  next => exact absurd rfl h
  next => rfl

theorem head?_toDigits_ne {n : Nat} (hn : n ≠ 0) : (Nat.toDigits 10 n).head? ≠ some '0' := by
  induction n using Nat.strongRecOn with
  | ind n ih =>
    by_cases hsmall : n < 10
    · have hdigit : ∀ d < 10, d ≠ 0 → Nat.digitChar d ≠ '0' := by decide
      rw [Nat.toDigits_of_lt_base hsmall]
      simpa using hdigit n hsmall hn
    · rw [Nat.toDigits_of_base_le (by decide) (by omega),
        List.head?_append_of_ne_nil _ Nat.toDigits_ne_nil]
      exact ih _ (by omega) (by omega)

theorem Numeral.isPlain_ofNat (n : Nat) : isPlain (ofNat n).text = true := by
  rw [text_ofNat]
  by_cases hn : n = 0
  · subst hn
    rfl
  · exact isPlain_of_head?_ne (head?_toDigits_ne hn)

namespace Layout

theorem head?_significant_ne {c : Nat} (hc : c ≠ 0) : (significant c).head? ≠ some '0' := by
  obtain ⟨zeros, hdigits⟩ := exists_toDigits_eq c
  have hhead := head?_toDigits_ne hc
  rwa [hdigits, List.head?_append_of_ne_nil _ (significant_ne_nil hc)] at hhead

theorem isPlain_decimal (layout : Layout) {d : Decimal} (hd : d.coefficient ≠ 0) :
    isPlain (layout.decimal d) = true := by
  obtain ⟨c, cs, hdigits⟩ := List.exists_cons_of_ne_nil (significant_ne_nil hd)
  have hc : some c ≠ some '0' := by
    have hhead := head?_significant_ne hd
    rwa [hdigits, List.head?_cons] at hhead
  unfold decimal
  rw [hdigits]
  dsimp only
  split
  next =>
    refine isPlain_of_head?_ne ?_
    cases cs <;> exact hc
  next =>
    split
    next places _ =>
      refine isPlain_of_head?_ne ?_
      unfold positional
      split <;> exact hc
    next => rfl

theorem isPlain_magnitude (layout : Layout) (m : Magnitude) :
    isPlain (layout.magnitude m) = true := by
  unfold magnitude
  split
  next => rfl
  next hu =>
    exact layout.isPlain_decimal (Decimal.size_of_mem hu (m.shortest_mem hu layout.tie)).1

end Layout

/-! ## The texts of numbers -/

theorem Binary64.toList_text_finite (layout : Layout) (negative : Bool) (m : Magnitude) :
    ((finite negative m).text layout).toList = signed negative (layout.magnitude m) := by
  cases negative <;> simp [text, signed]

namespace Number

theorem text_int (value : Int64) : (int value).text.toList =
    signed (value.toInt < 0) (Numeral.ofNat value.toInt.natAbs).text := by
  rw [text, Numeral.text_ofNat]
  generalize value.toInt = i
  cases i with
  | ofNat n => simp [Int.repr, Nat.repr, signed]
  | negSucc n =>
    have hneg : Int.negSucc n < 0 := by omega
    simp [Int.repr, Nat.repr, signed, hneg]

theorem text_float (negative : Bool) (m : Magnitude) :
    ∃ n : Numeral, (float (.finite negative m)).text.toList = signed negative n.text ∧
      n.text.any isFloatMark = true ∧
      ∀ sign, n.decimal.round sign = .finite sign m := by
  obtain ⟨n, htext, hmark, hround⟩ := canonicalLayout.magnitude_reads m
  refine ⟨n, ?_, hmark, hround⟩
  rw [htext]
  exact Binary64.toList_text_finite canonicalLayout negative m

theorem json_float (negative : Bool) (m : Magnitude) :
    ∃ n : Numeral, (float (.finite negative m)).json.toList = signed negative n.text ∧
      isPlain n.text = true ∧ n.text.any isFloatMark = true ∧
      ∀ sign, n.decimal.round sign = .finite sign m := by
  obtain ⟨n, htext, hmark, hround⟩ := jsonLayout.magnitude_reads m
  refine ⟨n, ?_, htext ▸ jsonLayout.isPlain_magnitude m, hmark, hround⟩
  rw [htext]
  exact Binary64.toList_text_finite jsonLayout negative m

end Number

end PinQuery
