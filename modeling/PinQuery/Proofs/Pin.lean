import Mathlib.Tactic.ByContra
import PinQuery.Pin

/-!
# Names of pins

The two ways to find the pin of a name agree.

* `toDigits_ofDigitChars`: digits without a leading zero are the digits of their value.
* `Pin.ofName?_eq_some_iff`: the names that can be taken apart are those of the pins of a board.
* `Pin.lookup?_eq_some_iff`: the same for the names that are found in the table.
-/

namespace PinQuery

/-! ## Digits -/

/-- A digit is the digit of its value. -/
theorem exists_digitChar_of_isDigit {c : Char} (h : c.isDigit = true) :
    ∃ d < 10, c = d.digitChar := by
  have hbounds : 48 ≤ c.toNat ∧ c.toNat ≤ 57 := by
    simp only [Char.isDigit, Bool.and_eq_true, decide_eq_true_eq] at h
    exact h
  refine ⟨c.toNat - 48, by omega, ?_⟩
  have hvalue : (c.toNat - 48).digitChar.toNat = c.toNat := by
    rw [Nat.toNat_digitChar_of_lt_ten (by omega)]
    omega
  exact (Char.toNat_inj.1 hvalue).symm

/-- Digits behind those of a positive number are the last digits of the value of all. -/
theorem toDigits_ofDigitChars_of_pos {digits : List Char}
    (hdigits : ∀ c ∈ digits, c.isDigit = true) {n : Nat} (hn : 0 < n) :
    Nat.toDigits 10 (Nat.ofDigitChars 10 digits n) = Nat.toDigits 10 n ++ digits := by
  induction digits generalizing n with
  | nil => simp
  | cons c digits ih =>
    obtain ⟨d, hd, rfl⟩ := exists_digitChar_of_isDigit (hdigits c (by simp))
    rw [Nat.ofDigitChars_cons_digitChar_of_lt_ten hd,
      ih (fun c hc => hdigits c (by simp [hc])) (by omega),
      ← Nat.toDigits_append_toDigits (by decide) hn hd, Nat.toDigits_of_lt_base hd]
    simp

/-- Digits without a leading zero are the digits of their value. -/
theorem toDigits_ofDigitChars {digits : List Char} (hdigits : ∀ c ∈ digits, c.isDigit = true)
    (hne : digits ≠ []) (hzero : ∀ c cs, digits ≠ '0' :: c :: cs) :
    Nat.toDigits 10 (Nat.ofDigitChars 10 digits 0) = digits := by
  obtain ⟨c, cs, rfl⟩ := List.exists_cons_of_ne_nil hne
  obtain ⟨d, hd, rfl⟩ := exists_digitChar_of_isDigit (hdigits c (by simp))
  rw [Nat.ofDigitChars_cons_digitChar_of_lt_ten hd]
  by_cases hpos : 0 < d
  · rw [toDigits_ofDigitChars_of_pos (fun c hc => hdigits c (by simp [hc])) (by omega),
      Nat.toDigits_of_lt_base (by omega)]
    simp
  · obtain rfl : d = 0 := by omega
    cases cs with
    | nil => rfl
    | cons c' cs => exact absurd rfl (hzero c' cs)

namespace Pin

/-! ## Pins by their names -/

theorem toList_name (pin : Pin) :
    pin.name.toList = pin.kind.stem.toList ++ Nat.toDigits 10 pin.index := by
  simp [name]

theorem indexOf?_eq_some_iff {digits : List Char} {index : Nat} :
    indexOf? digits = some index ↔ index ≤ maxIndex ∧ digits = Nat.toDigits 10 index := by
  constructor
  · intro h
    unfold indexOf? at h
    dsimp only at h
    split at h
    next => cases h
    next => cases h
    next hne hzero =>
      split at h
      next hall =>
        cases h
        simp only [Bool.and_eq_true, List.all_eq_true, decide_eq_true_eq] at hall
        refine ⟨hall.2, (toDigits_ofDigitChars hall.1 hne ?_).symm⟩
        intro c cs hdigits
        exact hzero c cs hdigits
      next => cases h
  · rintro ⟨hle, rfl⟩
    have hall : ∀ i < maxIndex + 1, indexOf? (Nat.toDigits 10 i) = some i := by decide
    exact hall index (by omega)

theorem toList_stem (kind : PinKind) : kind.stem.toList =
    match kind with
    | .digital => ['d', 'i', 'n']
    | .analog => ['a', 'i', 'n'] := by
  cases kind <;> rfl

/-- **The names that can be taken apart are those of the pins of a board.** -/
theorem ofName?_eq_some_iff {text : String} {pin : Pin} :
    ofName? text = some pin ↔ pin.index ≤ maxIndex ∧ pin.name = text := by
  obtain ⟨kind, index⟩ := pin
  rw [← String.toList_inj, toList_name, toList_stem]
  unfold ofName?
  split
  next digits htext =>
    cases kind <;> simp [htext, indexOf?_eq_some_iff, eq_comm (a := digits)]
  next digits htext =>
    cases kind <;> simp [htext, indexOf?_eq_some_iff, eq_comm (a := digits)]
  next hdigital hanalog =>
    cases kind with
    | digital => simpa using fun _ h => hdigital _ h.symm
    | analog => simpa using fun _ h => hanalog _ h.symm

/-- Different pins have different names. -/
theorem name_inj {pin pin' : Pin} : pin.name = pin'.name ↔ pin = pin' := by
  refine ⟨fun h => ?_, congrArg name⟩
  obtain ⟨kind, index⟩ := pin
  obtain ⟨kind', index'⟩ := pin'
  rw [← String.toList_inj, toList_name, toList_name, toList_stem, toList_stem] at h
  obtain ⟨hkind, hdigits⟩ : kind = kind' ∧ Nat.toDigits 10 index = Nat.toDigits 10 index' := by
    cases kind <;> cases kind' <;> simp_all
  have hindex : index = index' := by
    rw [← Nat.ofDigitChars_ten_toDigits (n := index), hdigits, Nat.ofDigitChars_ten_toDigits]
  rw [hkind, hindex]

theorem mem_all_iff {pin : Pin} : pin ∈ all ↔ pin.index ≤ maxIndex := by
  obtain ⟨kind, index⟩ := pin
  have hrange : index ∈ List.range (maxIndex + 1) ↔ index ≤ maxIndex := by
    rw [List.mem_range, Nat.lt_succ_iff]
  cases kind <;> simp [all, -List.mem_range, hrange]

theorem of_lookup? {text : String} {pin : Pin} (h : lookup? text = some pin) :
    pin.index ≤ maxIndex ∧ pin.name = text := by
  have hmem := List.mem_of_find?_eq_some h
  unfold lookup? at h
  have hname := List.find?_some h
  exact ⟨mem_all_iff.1 hmem, by simpa using hname⟩

/-- **The names that are found in the table are those of the pins of a board.** -/
theorem lookup?_eq_some_iff {text : String} {pin : Pin} :
    lookup? text = some pin ↔ pin.index ≤ maxIndex ∧ pin.name = text := by
  refine ⟨of_lookup?, ?_⟩
  rintro ⟨hindex, hname⟩
  have hsome : (lookup? text).isSome = true := by
    rw [lookup?, List.find?_isSome]
    exact ⟨pin, mem_all_iff.2 hindex, by simpa using hname⟩
  -- the pin that is found has the same name, and so is the same pin
  obtain ⟨pin', hpin'⟩ := Option.isSome_iff_exists.1 hsome
  have hofName' : ofName? text = some pin' := ofName?_eq_some_iff.2 (of_lookup? hpin')
  rw [ofName?_eq_some_iff.2 ⟨hindex, hname⟩] at hofName'
  rw [hpin', hofName']

theorem lookup?_eq_ofName? (text : String) : lookup? text = ofName? text := by
  ext pin
  rw [lookup?_eq_some_iff, ofName?_eq_some_iff]

end Pin

end PinQuery
