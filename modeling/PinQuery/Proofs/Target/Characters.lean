import PinQuery.Proofs.Number
import PinQuery.Proofs.Plan.Analysis

/-!
# The characters of numbers and conditions

What is written for a number or a condition has few different characters. A character that is none
of them is not found in the text.

* `Number.marks`, `Number.not_mem_text`: the characters of numbers that are no digits.
* `Expr.signs`, `Expr.not_mem_targetText`: the characters of conditions outside names and numbers.
* `Pin.not_mem_name`: the letters of the names of pins.
* `Plan.Describes.not_mem_condition`: all of it for the condition of a plan.
-/

namespace PinQuery

/-- The characters in the texts of numbers that are no digits. -/
def Number.marks : List Char := ['+', '-', '.', 'e', 'E', 'i', 'n', 'f', 'N', 'a']

section

variable {c : Char} (hdigit : c.isDigit = false)
include hdigit

theorem not_mem_of_isDigit {cs : List Char} (h : ∀ d ∈ cs, d.isDigit = true) : c ∉ cs :=
  fun hmem => absurd (h c hmem) (by simp [hdigit])

theorem not_mem_repr (n : Nat) : c ∉ n.repr.toList := by
  rw [Nat.toList_repr]
  exact not_mem_of_isDigit hdigit fun d => Nat.isDigit_of_mem_toDigits (by decide) (by decide)

/-- The names of pins have four letters. -/
theorem Pin.not_mem_name (hstem : c ∉ ['d', 'i', 'n', 'a']) (pin : Pin) : c ∉ pin.name.toList := by
  have hkind : pin.kind.stem.toList ⊆ ['d', 'i', 'n', 'a'] := by
    cases pin.kind <;> decide
  rw [name, String.toList_append, List.mem_append, not_or]
  exact ⟨fun hmem => hstem (hkind hmem), not_mem_repr hdigit pin.index⟩

variable (hmark : c ∉ Number.marks)
include hmark

theorem IsExponent.not_mem {cs : List Char} (h : IsExponent cs) : c ∉ cs := by
  have hne : ∀ d ∈ Number.marks, c ≠ d := fun d hd hcd => hmark (hcd ▸ hd)
  cases h with
  | none => exact List.not_mem_nil
  | unsigned hletter _ hdigits =>
    rw [List.mem_cons, not_or]
    refine ⟨hne _ ?_, not_mem_of_isDigit hdigit hdigits⟩
    rcases hletter with rfl | rfl <;> decide
  | signed hletter hsign _ hdigits =>
    rw [List.mem_cons, List.mem_cons, not_or, not_or]
    refine ⟨hne _ ?_, hne _ ?_, not_mem_of_isDigit hdigit hdigits⟩
    · rcases hletter with rfl | rfl <;> decide
    · rcases hsign with rfl | rfl <;> decide

theorem Numeral.not_mem_text (n : Numeral) : c ∉ n.text := by
  have hpoint : c ≠ '.' := fun hc => hmark (hc ▸ by decide)
  have hfraction := not_mem_of_isDigit hdigit n.fraction_digits
  have hpointed : c ∉ pointed n.fraction := by
    cases hn : n.fraction with
    | nil => simp [pointed]
    | cons d ds => simp_all [pointed]
  simp [text, not_mem_of_isDigit hdigit n.whole_digits, hpointed,
    n.exponent_form.not_mem hdigit hmark]

/-- Digits and marks are all that numbers are written with, infinities and NaN included. -/
theorem Number.not_mem_text (number : Number) : c ∉ number.text.toList := by
  have hminus : c ≠ '-' := fun hc => hmark (hc ▸ by decide)
  have hsigned (negative : Bool) (n : Numeral) : c ∉ signed negative n.text := by
    cases negative <;> simp [signed, n.not_mem_text hdigit hmark, hminus]
  have hword (text : String) (htext : text.toList ⊆ marks) : c ∉ text.toList :=
    fun hmem => hmark (htext hmem)
  cases number with
  | int value =>
    rw [text_int]
    exact hsigned _ _
  | float value =>
    cases value with
    | nan => exact hword "NaN" (by decide)
    | infinite negative =>
      cases negative
      · exact hword "inf" (by decide)
      · exact hword "-inf" (by decide)
    | finite negative m =>
      obtain ⟨n, htext, -, -⟩ := text_float negative m
      rw [htext]
      exact hsigned _ _

/-- The characters in the texts of conditions outside names and numbers. -/
def Expr.signs : List Char := [' ', '(', ')', '!', '=', '<', '>', '&', '|']

/-- Signs are all that conditions are written with, besides their names and numbers. -/
theorem Expr.not_mem_targetText (hsign : c ∉ Expr.signs) {e : Expr} {text : String}
    (h : e.targetText = .ok text) (hnames : ∀ name ∈ e.names, c ∉ name.toList) :
    c ∉ text.toList := by
  have hfixed (fixed : String) (hsubset : fixed.toList ⊆ signs) : c ∉ fixed.toList :=
    fun hmem => hsign (hsubset hmem)
  have happend {s t : String} (hs : c ∉ s.toList) (ht : c ∉ t.toList) : c ∉ (s ++ t).toList := by
    simp [hs, ht]
  induction e generalizing text with
  | column name =>
    cases h
    exact hnames _ (by simp [names])
  | literal number =>
    cases h
    exact number.value.not_mem_text hdigit hmark
  | comparison op left right span ihleft ihright =>
    obtain ⟨leftText, hleft, h⟩ := bind_eq_ok_iff.1 h
    obtain ⟨rightText, hright, h⟩ := bind_eq_ok_iff.1 h
    cases h
    have hl := ihleft hleft fun name hmem => hnames name (by simp [names, hmem])
    have hr := ihright hright fun name hmem => hnames name (by simp [names, hmem])
    have hop : c ∉ op.symbol.toList := hfixed _ (by cases op <;> decide)
    have hblank := hfixed " " (by decide)
    exact happend (happend (happend (happend hl hblank) hop) hblank) hr
  | logical op left right span ihleft ihright =>
    obtain ⟨leftText, hleft, h⟩ := bind_eq_ok_iff.1 h
    obtain ⟨rightText, hright, h⟩ := bind_eq_ok_iff.1 h
    cases h
    have hl := ihleft hleft fun name hmem => hnames name (by simp [names, hmem])
    have hr := ihright hright fun name hmem => hnames name (by simp [names, hmem])
    have hop : c ∉ op.symbol.toList := hfixed _ (by cases op <;> decide)
    have hblank := hfixed " " (by decide)
    exact happend (happend (happend (happend (happend (happend (hfixed "(" (by decide)) hl) hblank)
      hop) hblank) hr) (hfixed ")" (by decide))
  | negation inner span ih =>
    rw [targetText] at h
    split at h
    next =>
      obtain ⟨innerText, hinner, h⟩ := bind_eq_ok_iff.1 h
      have hi := ih hinner hnames
      cases h
      split
      · exact happend (hfixed "!" (by decide)) hi
      · exact happend (happend (hfixed "!(" (by decide)) hi) (hfixed ")" (by decide))
    next => cases h

/-- The condition of a plan, whose names are those of pins. -/
theorem Plan.Describes.not_mem_condition (hsign : c ∉ Expr.signs) (hstem : c ∉ ['d', 'i', 'n', 'a'])
    {plan : Plan} {query : Query} (h : plan.Describes query) : c ∉ plan.condition.text.toList := by
  cases hcondition : query.condition with
  | none =>
    rw [h.always hcondition]
    exact not_mem_of_isDigit hdigit (List.all_eq_true.1 rfl)
  | some e =>
    obtain ⟨text, htext, htest⟩ := h.test e hcondition
    rw [htest]
    refine Expr.not_mem_targetText hdigit hmark hsign htext fun name hmem => ?_
    obtain ⟨pin, -, rfl⟩ :=
      isPinName_iff.1 ((h.condition e hcondition).isPinName_of_mem_names name hmem)
    exact pin.not_mem_name hdigit hstem

end

end PinQuery
