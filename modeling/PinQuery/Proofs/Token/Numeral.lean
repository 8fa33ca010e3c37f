import Mathlib.Data.List.TakeWhile
import Mathlib.Tactic.ByContra
import PinQuery.Number
import PinQuery.Token.Scan

/-!
# Numerals

A numeral is written as digits, an optional fraction and an optional exponent. `Numeral` has these
parts together with the rules for them.

* `Numeral.ofNumeral_text`: reading a numeral gives the value of its parts.
* `Numeral.numberTail_append`: the scanner takes a numeral as a whole, if what follows cannot go on
  with it. `Text.Breaks` says of a text that it does not begin with a character of some class.
-/

namespace PinQuery

namespace Text

/-- A text that does not begin with a character of a class. -/
def Breaks (p : Char → Bool) (rest : List Char) : Prop := ∀ c ∈ rest.head?, p c = false

theorem Breaks.nil {p : Char → Bool} : Breaks p [] := by simp [Breaks]

@[simp] theorem breaks_cons {p : Char → Bool} {c : Char} {cs : List Char} :
    Breaks p (c :: cs) ↔ p c = false := by
  simp [Breaks]

theorem Breaks.mono {p q : Char → Bool} {rest : List Char} (h : Breaks p rest)
    (hpq : ∀ c, q c = true → p c = true) : Breaks q rest := fun c hc => by
  have := h c hc
  by_contra hq
  simp [hpq c (by simpa using hq)] at this

theorem takeWhile_append_of_breaks {p : Char → Bool} {cs rest : List Char} (hcs : ∀ c ∈ cs, p c)
    (hrest : Breaks p rest) : (cs ++ rest).takeWhile p = cs := by
  rw [List.takeWhile_append_of_pos hcs]
  cases rest with
  | nil => simp
  | cons c rest => simp [breaks_cons.1 hrest]

theorem dropWhile_append_of_breaks {p : Char → Bool} {cs rest : List Char} (hcs : ∀ c ∈ cs, p c)
    (hrest : Breaks p rest) : (cs ++ rest).dropWhile p = rest := by
  rw [List.dropWhile_append_of_pos hcs]
  cases rest with
  | nil => simp
  | cons c rest => simp [breaks_cons.1 hrest]

end Text

open Text

/-! ## The form of numerals -/

/-- The point of a fraction and its digits, or nothing where there are none. -/
def pointed : List Char → List Char
  | [] => []
  | digits => '.' :: digits

/-- The exponent of a numeral: nothing, or a mark, an optional sign and digits. -/
inductive IsExponent : List Char → Prop
  | none : IsExponent []
  | unsigned {mark : Char} {digits : List Char} (hmark : mark = 'e' ∨ mark = 'E')
      (hne : digits ≠ []) (hdigits : ∀ c ∈ digits, c.isDigit) : IsExponent (mark :: digits)
  | signed {mark sign : Char} {digits : List Char} (hmark : mark = 'e' ∨ mark = 'E')
      (hsign : sign = '+' ∨ sign = '-') (hne : digits ≠ []) (hdigits : ∀ c ∈ digits, c.isDigit) :
      IsExponent (mark :: sign :: digits)

/-- A numeral taken apart. -/
structure Numeral where
  whole : List Char
  fraction : List Char
  exponent : List Char
  whole_ne_nil : whole ≠ []
  whole_digits : ∀ c ∈ whole, c.isDigit
  fraction_digits : ∀ c ∈ fraction, c.isDigit
  exponent_form : IsExponent exponent

namespace Numeral

/-- The numeral as it is written. -/
def text (n : Numeral) : List Char := n.whole ++ (pointed n.fraction ++ n.exponent)

/-- The value of a numeral. -/
def decimal (n : Numeral) : Decimal :=
  ⟨Decimal.digitsValue (n.whole ++ n.fraction), Decimal.exponentValue n.exponent - n.fraction.length⟩

end Numeral

theorem IsExponent.breaks_isDigit {cs rest : List Char} (h : IsExponent cs)
    (hrest : Breaks Char.isDigit rest) : Breaks Char.isDigit (cs ++ rest) := by
  cases h with
  | none => exact hrest
  | unsigned hmark | signed hmark => rcases hmark with rfl | rfl <;> simp

theorem breaks_pointed {digits rest : List Char} (hrest : Breaks Char.isDigit rest) :
    Breaks Char.isDigit (pointed digits ++ rest) := by
  cases digits with
  | nil => exact hrest
  | cons d ds => simp [pointed]

theorem IsExponent.head_ne_point {cs : List Char} (h : IsExponent cs) (tail : List Char) :
    cs ≠ '.' :: tail := by
  rintro rfl
  cases h with
  | unsigned hmark | signed hmark => simp at hmark

theorem fractionDigits_pointed {digits exponent : List Char} (hdigits : ∀ c ∈ digits, c.isDigit)
    (hexp : IsExponent exponent) :
    Decimal.fractionDigits (pointed digits ++ exponent) = digits ∧
      Decimal.afterFraction (pointed digits ++ exponent) = exponent := by
  cases digits with
  | nil =>
    simp only [pointed, List.nil_append]
    constructor
    · unfold Decimal.fractionDigits
      split
      · exact absurd rfl (hexp.head_ne_point _)
      · rfl
    · unfold Decimal.afterFraction
      split
      · exact absurd rfl (hexp.head_ne_point _)
      · rfl
  | cons d ds =>
    have hbreaks : Breaks Char.isDigit exponent := by
      simpa using hexp.breaks_isDigit Breaks.nil
    exact ⟨takeWhile_append_of_breaks hdigits hbreaks, dropWhile_append_of_breaks hdigits hbreaks⟩

/-- Reading a numeral gives its value. -/
theorem Numeral.ofNumeral_text (n : Numeral) : Decimal.ofNumeral n.text = n.decimal := by
  have hbreaks : Breaks Char.isDigit (pointed n.fraction ++ n.exponent) := by
    refine breaks_pointed ?_
    simpa using n.exponent_form.breaks_isDigit Breaks.nil
  obtain ⟨hfraction, hafter⟩ := fractionDigits_pointed n.fraction_digits n.exponent_form
  simp only [Decimal.ofNumeral, text, decimal, takeWhile_append_of_breaks n.whole_digits hbreaks,
    dropWhile_append_of_breaks n.whole_digits hbreaks, hfraction, hafter]

/-! ## Scanning numerals -/

/-- The characters that could go on with a numeral. -/
def isNumeralPart (c : Char) : Bool := c.isDigit || Number.isFloatMark c

theorem scan_exponent {exponent rest : List Char} (hexp : IsExponent exponent)
    (hrest : Breaks isNumeralPart rest) : Scan.exponent (exponent ++ rest) = exponent := by
  have hdigit : Breaks Char.isDigit rest := hrest.mono fun c hc => by simp [isNumeralPart, hc]
  cases hexp with
  | none =>
    cases rest with
    | nil => rfl
    | cons c rest =>
      have : (c == 'e' || c == 'E') = false := by
        have := breaks_cons.1 hrest
        simp only [isNumeralPart, Number.isFloatMark, Bool.or_eq_false_iff] at this ⊢
        exact ⟨this.2.1.2, this.2.2⟩
      simp [Scan.exponent, this]
  | @unsigned mark digits hmark hne hdigits =>
    have hmark' : (mark == 'e' || mark == 'E') = true := by simpa using hmark
    obtain ⟨d, ds, rfl⟩ := List.exists_cons_of_ne_nil hne
    have hd : d.isDigit = true := hdigits d (by simp)
    have hsign : (d == '+' || d == '-') = false := by
      by_contra h
      simp only [Bool.not_eq_false, Bool.or_eq_true, beq_iff_eq] at h
      rcases h with rfl | rfl <;> exact absurd hd (by decide)
    have htake : ((d :: ds) ++ rest).takeWhile Char.isDigit = d :: ds :=
      takeWhile_append_of_breaks hdigits hdigit
    simp only [List.cons_append] at htake
    simp [Scan.exponent, Scan.exponentDigits, hmark', hsign, htake]
  | @signed mark sign digits hmark hsign hne hdigits =>
    have hmark' : (mark == 'e' || mark == 'E') = true := by simpa using hmark
    have hsign' : (sign == '+' || sign == '-') = true := by simpa using hsign
    have htake : (digits ++ rest).takeWhile Char.isDigit = digits :=
      takeWhile_append_of_breaks hdigits hdigit
    obtain ⟨d, ds, rfl⟩ := List.exists_cons_of_ne_nil hne
    simp only [List.cons_append] at htake
    simp [Scan.exponent, Scan.exponentDigits, hmark', hsign', htake]

theorem scan_fraction {digits exponent rest : List Char} (hdigits : ∀ c ∈ digits, c.isDigit)
    (hexp : IsExponent exponent) (hrest : Breaks isNumeralPart rest) :
    Scan.fraction (pointed digits ++ (exponent ++ rest)) = pointed digits := by
  have hdigit : Breaks Char.isDigit (exponent ++ rest) :=
    hexp.breaks_isDigit (hrest.mono fun c hc => by simp [isNumeralPart, hc])
  cases digits with
  | nil =>
    unfold Scan.fraction
    split
    next cs heq =>
      simp only [pointed, List.nil_append] at heq
      cases hexp with
      | none =>
        rw [List.nil_append] at heq
        rw [heq] at hrest
        exact absurd (breaks_cons.1 hrest) (by decide)
      | unsigned hmark | signed hmark =>
        simp only [List.cons_append, List.cons.injEq] at heq
        rcases hmark with rfl | rfl <;> exact absurd heq.1 (by decide)
    next => rfl
  | cons d ds =>
    have htake := takeWhile_append_of_breaks hdigits hdigit
    simp only [List.cons_append] at htake
    simp [Scan.fraction, pointed, htake]

/-- The scanner takes a numeral as a whole if what follows cannot go on with it. -/
theorem Numeral.numberTail_append (n : Numeral) {c : Char} {tail rest : List Char}
    (htext : n.text = c :: tail) (hrest : Breaks isNumeralPart rest) :
    Scan.numberTail (tail ++ rest) = tail := by
  obtain ⟨d, ds, hwhole⟩ := List.exists_cons_of_ne_nil n.whole_ne_nil
  have htail : tail = ds ++ (pointed n.fraction ++ n.exponent) := by
    rw [text, hwhole, List.cons_append] at htext
    exact (List.cons.inj htext).2.symm
  have hds : ∀ c ∈ ds, c.isDigit := fun c hc => n.whole_digits c (by simp [hwhole, hc])
  have hbreaks : Breaks Char.isDigit (pointed n.fraction ++ (n.exponent ++ rest)) :=
    breaks_pointed (n.exponent_form.breaks_isDigit
      (hrest.mono fun c hc => by simp [isNumeralPart, hc]))
  have hassoc : tail ++ rest = ds ++ (pointed n.fraction ++ (n.exponent ++ rest)) := by
    simp only [htail, List.append_assoc]
  simp only [Scan.numberTail, hassoc, takeWhile_append_of_breaks hds hbreaks,
    dropWhile_append_of_breaks hds hbreaks, scan_fraction n.fraction_digits n.exponent_form hrest,
    List.drop_left, scan_exponent n.exponent_form hrest]
  rw [htail, List.append_assoc]

theorem Numeral.isDigit_head (n : Numeral) {c : Char} {tail : List Char}
    (htext : n.text = c :: tail) : c.isDigit = true := by
  obtain ⟨d, ds, hwhole⟩ := List.exists_cons_of_ne_nil n.whole_ne_nil
  rw [text, hwhole, List.cons_append] at htext
  exact n.whole_digits c (by simp [hwhole, (List.cons.inj htext).1])

theorem Numeral.exists_text_eq_cons (n : Numeral) :
    ∃ c tail, n.text = c :: tail ∧ c.isDigit = true := by
  obtain ⟨c, tail, htext⟩ : ∃ c tail, n.text = c :: tail :=
    List.exists_cons_of_ne_nil (by simp [text, n.whole_ne_nil])
  exact ⟨c, tail, htext, n.isDigit_head htext⟩

/-! ## Numerals in a text -/

namespace Scan

theorem fraction_isPrefix (cs : List Char) : fraction cs <+: cs := by
  unfold fraction
  split
  next rest =>
    split
    next => exact List.nil_prefix
    next => exact List.cons_prefix_cons.2 ⟨rfl, List.takeWhile_prefix _⟩
  next => exact List.nil_prefix

theorem exponentDigits_isPrefix (cs : List Char) : exponentDigits cs <+: cs := by
  unfold exponentDigits
  split
  next => exact List.nil_prefix
  next c cs =>
    split
    next =>
      split
      next => exact List.nil_prefix
      next => exact List.cons_prefix_cons.2 ⟨rfl, List.takeWhile_prefix _⟩
    next => exact List.takeWhile_prefix _

theorem exponent_isPrefix (cs : List Char) : exponent cs <+: cs := by
  unfold exponent
  split
  next => exact List.nil_prefix
  next c cs =>
    split
    next =>
      split
      next => exact List.nil_prefix
      next => exact List.cons_prefix_cons.2 ⟨rfl, exponentDigits_isPrefix cs⟩
    next => exact List.nil_prefix

/-- What follows the first digit of a number is part of the text. -/
theorem numberTail_isPrefix (cs : List Char) : numberTail cs <+: cs := by
  have hfraction := fraction_isPrefix (cs.dropWhile Char.isDigit)
  obtain ⟨rest, hrest⟩ := exponent_isPrefix
    ((cs.dropWhile Char.isDigit).drop (fraction (cs.dropWhile Char.isDigit)).length)
  refine ⟨rest, ?_⟩
  simp only [numberTail, List.append_assoc]
  rw [hrest, List.prefix_iff_eq_append.1 hfraction, List.takeWhile_append_dropWhile]

theorem exists_fraction_eq_pointed (cs : List Char) :
    ∃ digits, (∀ c ∈ digits, c.isDigit) ∧ fraction cs = pointed digits := by
  unfold fraction
  split
  next rest =>
    refine ⟨rest.takeWhile Char.isDigit, fun c => List.mem_takeWhile_imp, ?_⟩
    cases rest.takeWhile Char.isDigit <;> rfl
  next => exact ⟨[], by simp, rfl⟩

theorem isExponent_cons {mark : Char} (hmark : mark = 'e' ∨ mark = 'E') {cs : List Char}
    (hne : exponentDigits cs ≠ []) : IsExponent (mark :: exponentDigits cs) := by
  unfold exponentDigits at hne ⊢
  split at hne
  next => exact absurd rfl hne
  next c cs =>
    split at hne
    next hsign =>
      split at hne
      next => exact absurd rfl hne
      next hdigits =>
        rw [if_pos hsign]
        exact .signed hmark (by simpa using hsign) hdigits fun c => List.mem_takeWhile_imp
    next hsign =>
      rw [if_neg hsign]
      exact .unsigned hmark hne fun c => List.mem_takeWhile_imp

theorem isExponent_exponent (cs : List Char) : IsExponent (exponent cs) := by
  unfold exponent
  split
  next => exact .none
  next c cs =>
    split
    next hmark =>
      split
      next => exact .none
      next hdigits => exact isExponent_cons (by simpa using hmark) hdigits
    next => exact .none

end Scan

/-- What the scanner takes behind a digit completes a numeral. -/
theorem exists_numeral {c : Char} (hc : c.isDigit = true) (cs : List Char) :
    ∃ n : Numeral, n.text = c :: Scan.numberTail cs := by
  obtain ⟨fraction, hdigits, hfraction⟩ :=
    Scan.exists_fraction_eq_pointed (cs.dropWhile Char.isDigit)
  have hwhole : ∀ d ∈ c :: cs.takeWhile Char.isDigit, d.isDigit := by
    intro d hd
    rcases List.mem_cons.1 hd with rfl | hd
    · exact hc
    · exact List.mem_takeWhile_imp hd
  refine ⟨⟨c :: cs.takeWhile Char.isDigit, fraction, _, by simp, hwhole, hdigits,
    Scan.isExponent_exponent ((cs.dropWhile Char.isDigit).drop (pointed fraction).length)⟩, ?_⟩
  simp only [Numeral.text, Scan.numberTail, hfraction, List.cons_append, List.append_assoc]

end PinQuery
