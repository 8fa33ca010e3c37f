import PinQuery.Proofs.Token.Edits

/-!
# Other digits in a text

Where digits stand as a number, other digits can stand, and also others behind a minus. Nothing else
in the text is cut differently.

* `Curbs rest rest'`: behind any characters, a token can go into `rest'` only if one could go into
  `rest`. So a longest match in front of `rest` is one in front of `rest'` (`IsLongestMatch.curb`).
* `curbs_of_isDigit`: no token goes on with a digit or a minus unless one goes on with any digit.
* `IsLongestMatch.digits`: digits are a longest match as far as other digits are.
* `Laid.exists_digits`: a text in which a number of digits alone is replaced.
-/

namespace PinQuery

open Text

/-! ## What a token could go on with -/

/-- What stands at the head of two texts together stands at the head of the first, or goes on into
the second. -/
theorem Text.isPrefix_append_cases {cs ds text : List Char} (h : text <+: cs ++ ds) :
    text <+: cs ∨ ∃ more, text = cs ++ more ∧ more <+: ds := by
  rcases List.prefix_or_prefix_of_prefix h (List.prefix_append cs ds) with hinside | hbeyond
  · exact .inl hinside
  · obtain ⟨more, rfl⟩ := hbeyond
    exact .inr ⟨more, rfl, (List.prefix_append_right_inj cs).1 h⟩

/-- If a text behind some characters goes on into the second text, then one goes on into the first.
Quoted names are left out, since they end before anything could go on. -/
def Curbs (rest rest' : List Char) : Prop :=
  ∀ rule : Rule, rule ≠ .quotedName → ∀ head more, head ≠ [] → more ≠ [] → more <+: rest' →
    head ++ more ∈ rule.language →
      ∃ more', more' ≠ [] ∧ more' <+: rest ∧ head ++ more' ∈ rule.language

/-- What goes on behind a common text goes on behind its end, or stays inside. -/
theorem Curbs.append {rest rest' : List Char} (h : Curbs rest rest') (text : List Char) :
    Curbs (text ++ rest) (text ++ rest') := by
  intro rule hrule head more hhead hmore hstarts hmem
  rcases isPrefix_append_cases hstarts with hinside | ⟨beyond, rfl, hbeyond⟩
  · exact ⟨more, hmore, hinside.trans (List.prefix_append text rest), hmem⟩
  · by_cases hnil : beyond = []
    · rw [hnil, List.append_nil] at hmore hmem
      exact ⟨text, hmore, List.prefix_append text rest, hmem⟩
    · rw [← List.append_assoc] at hmem
      obtain ⟨more', hne, hstarts', hmem'⟩ :=
        h rule hrule (head ++ text) beyond (by simp [hhead]) hnil hbeyond hmem
      refine ⟨text ++ more', by simp [hne], (List.prefix_append_right_inj text).2 hstarts', ?_⟩
      rwa [← List.append_assoc]

/-- A longest match stays one before a text that curbs it no less. -/
theorem IsLongestMatch.curb {kind : Kind} {text rest rest' : List Char}
    (h : IsLongestMatch kind text rest) (hrest : Curbs rest rest') :
    IsLongestMatch kind text rest' := by
  refine ⟨h.mem, fun rule longer hlonger hstarts => ?_, h.keyword⟩
  by_cases hquoted : rule = .quotedName
  · subst hquoted
    exact Rule.length_le_of_quotedName h.mem hlonger hstarts
  · rcases isPrefix_append_cases hstarts with hinside | ⟨more, rfl, hmore⟩
    · exact hinside.length_le
    · by_contra hlength
      have hne : more ≠ [] := by
        rintro rfl
        simp at hlength
      obtain ⟨more', hne', hstarts', hmem'⟩ :=
        hrest rule hquoted text more (Rule.ne_nil_of_mem h.mem) hne hmore hlonger
      have hle := h.longest rule _ hmem' ((List.prefix_append_right_inj text).2 hstarts')
      rw [List.length_append] at hle
      have hpos := List.length_pos_iff.2 hne'
      omega

/-! ## Numerals that go on -/

/-- Digits, at least one. -/
structure IsDigits (text : List Char) : Prop where
  ne_nil : text ≠ []
  isDigit : ∀ c ∈ text, c.isDigit = true

instance (text : List Char) : Decidable (IsDigits text) :=
  decidable_of_iff (text ≠ [] ∧ text.all Char.isDigit = true)
    ⟨fun ⟨hne, hdigits⟩ => ⟨hne, List.all_eq_true.1 hdigits⟩,
      fun ⟨hne, hdigits⟩ => ⟨hne, List.all_eq_true.2 hdigits⟩⟩

theorem isDigits_append_singleton {ds : List Char} {d : Char} (hds : ∀ c ∈ ds, c.isDigit = true)
    (hd : d.isDigit = true) : IsDigits (ds ++ [d]) :=
  ⟨by simp, by simpa [or_imp, forall_and] using ⟨hds, hd⟩⟩

theorem mem_number_of_parts {whole fraction exponent : List Char} (hwhole : IsDigits whole)
    (hfraction : ∀ c ∈ fraction, c.isDigit = true) (hexponent : IsExponent exponent) :
    whole ++ (pointed fraction ++ exponent) ∈ Rule.number.language :=
  Rule.mem_number_iff.2
    ⟨⟨whole, fraction, exponent, hwhole.ne_nil, hwhole.isDigit, hfraction, hexponent⟩, rfl⟩

theorem IsDigits.mem_number {text : List Char} (h : IsDigits text) :
    text ∈ Rule.number.language := by
  have hfraction : ∀ c ∈ ([] : List Char), c.isDigit = true := by simp
  simpa [pointed] using mem_number_of_parts h hfraction .none

/-- The head of an exponent goes on with any digit, if its mark is in it. -/
theorem IsExponent.append_digit {head more : List Char} {c d : Char}
    (h : IsExponent (head ++ c :: more)) (hhead : head ≠ []) (hd : d.isDigit = true) :
    IsExponent (head ++ [d]) := by
  obtain ⟨mark, tail, rfl⟩ := List.exists_cons_of_ne_nil hhead
  generalize hcs : mark :: tail ++ c :: more = cs at h
  cases h with
  | none => simp at hcs
  | @unsigned mark' digits hmark hne hdigits =>
    obtain ⟨rfl, rfl⟩ := List.cons.inj hcs
    have hdigits' := isDigits_append_singleton (List.forall_mem_append.1 hdigits).1 hd
    exact .unsigned hmark hdigits'.ne_nil hdigits'.isDigit
  | @signed mark' sign digits hmark hsign hne hdigits =>
    obtain ⟨rfl, htail⟩ := List.cons.inj hcs
    cases tail with
    | nil => exact .unsigned hmark (by simp) (by simpa using hd)
    | cons sign' tail =>
      obtain ⟨rfl, rfl⟩ := List.cons.inj htail
      have hdigits' := isDigits_append_singleton (List.forall_mem_append.1 hdigits).1 hd
      exact .signed hmark hsign hdigits'.ne_nil hdigits'.isDigit

/-- The head of a fraction goes on with any digit, if its point is in it. -/
theorem exists_pointed_append_digit {digits head more : List Char} {c d : Char}
    (h : pointed digits = head ++ c :: more) (hdigits : ∀ c ∈ digits, c.isDigit = true)
    (hc : c ≠ '.') (hd : d.isDigit = true) :
    ∃ digits', (∀ c ∈ digits', c.isDigit = true) ∧ head ++ [d] = pointed digits' := by
  cases digits with
  | nil => simp [pointed] at h
  | cons e es =>
    cases head with
    | nil => exact absurd (List.cons.inj h).1.symm hc
    | cons point head =>
      obtain ⟨rfl, htail⟩ := List.cons.inj h
      rw [htail] at hdigits
      have hdigits' := isDigits_append_singleton (List.forall_mem_append.1 hdigits).1 hd
      refine ⟨head ++ [d], hdigits'.isDigit, ?_⟩
      cases head <;> rfl

/-- The head of a numeral up to before a digit or a minus goes on with any digit. -/
theorem mem_number_append_digit {head more : List Char} {c d : Char}
    (h : head ++ c :: more ∈ Rule.number.language) (hhead : head ≠ [])
    (hc : c.isDigit = true ∨ c = '-') (hd : d.isDigit = true) :
    head ++ [d] ∈ Rule.number.language := by
  have hpoint : c ≠ '.' := by
    rintro rfl
    exact absurd hc (by decide)
  have hmark (tail : List Char) : ¬IsExponent (c :: tail) := by
    intro hexponent
    cases hexponent with
    | unsigned hmark | signed hmark => rcases hmark with rfl | rfl <;> exact absurd hc (by decide)
  obtain ⟨n, htext⟩ := Rule.mem_number_iff.1 h
  have hwhole : IsDigits n.whole := ⟨n.whole_ne_nil, n.whole_digits⟩
  have hexponent := n.exponent_form
  rw [Numeral.text] at htext
  -- The head ends inside the whole part, inside the fraction or inside the exponent.
  rcases List.append_eq_append_iff.1 htext with ⟨middle, rfl, htail⟩ | ⟨inside, hcut, -⟩
  · rw [List.append_assoc]
    rcases List.append_eq_append_iff.1 htail with ⟨last, rfl, hlast⟩ | ⟨inside, hcut, hinside⟩
    · rw [hlast] at hexponent
      rw [List.append_assoc]
      refine mem_number_of_parts hwhole n.fraction_digits (hexponent.append_digit ?_ hd)
      rintro rfl
      exact hmark more hexponent
    · cases inside with
      | nil =>
        rw [List.nil_append] at hinside
        rw [← hinside] at hexponent
        exact absurd hexponent (hmark more)
      | cons c' inside =>
        obtain ⟨rfl, -⟩ := List.cons.inj hinside
        obtain ⟨digits, hdigits, heq⟩ :=
          exists_pointed_append_digit hcut n.fraction_digits hpoint hd
        have hnumber := mem_number_of_parts hwhole hdigits .none
        rwa [List.append_nil, ← heq] at hnumber
  · have hdigits := n.whole_digits
    rw [hcut] at hdigits
    exact (isDigits_append_singleton (List.forall_mem_append.1 hdigits).1 hd).mem_number

/-- A word goes on with any digit. -/
theorem mem_word_append_digit {head more : List Char} {d : Char}
    (h : head ++ more ∈ Rule.word.language) (hhead : head ≠ []) (hd : d.isDigit = true) :
    head ++ [d] ∈ Rule.word.language := by
  obtain ⟨c, head, rfl⟩ := List.exists_cons_of_ne_nil hhead
  obtain ⟨start, tail, hstart, htail, hcut⟩ := Rule.mem_word_iff.1 h
  obtain ⟨rfl, rfl⟩ := List.cons.inj hcut
  refine Rule.mem_word_iff.2 ⟨c, head ++ [d], hstart, ?_, rfl⟩
  refine List.forall_mem_append.2 ⟨(List.forall_mem_append.1 htail).1, ?_⟩
  simpa using Rule.isWordPart_iff.1 (.inr (Rule.isDigit_iff.2 hd))

/-- Neither a digit nor a minus goes on with a mark. -/
theorem not_mem_mark {kind : Kind} {head more : List Char} {c : Char} (hhead : head ≠ [])
    (hc : c.isDigit = true ∨ c = '-') : head ++ c :: more ∉ (Rule.mark kind).language := by
  intro h
  obtain ⟨d, head, rfl⟩ := List.exists_cons_of_ne_nil hhead
  have hsecond : ∀ d ∈ (kind.mark?.getD []).tail, ¬(d.isDigit = true ∨ d = '-') := by
    cases kind <;> simp [Kind.mark?]
  rw [Rule.mem_mark_iff.1 h] at hsecond
  exact hsecond c (by simp) hc

/-- **A token goes on with a digit or a minus only if one goes on with any digit.** -/
theorem curbs_of_isDigit {c d : Char} (hc : c.isDigit = true ∨ c = '-') (hd : d.isDigit = true)
    (rest rest' : List Char) : Curbs (d :: rest) (c :: rest') := by
  intro rule hrule head more hhead hmore hstarts hmem
  obtain ⟨first, more, rfl⟩ := List.exists_cons_of_ne_nil hmore
  obtain ⟨rfl, -⟩ := List.cons_prefix_cons.1 hstarts
  refine ⟨[d], by simp, by simp, ?_⟩
  cases rule with
  | word => exact mem_word_append_digit hmem hhead hd
  | quotedName => exact absurd rfl hrule
  | number => exact mem_number_append_digit hmem hhead hc hd
  | mark kind => exact absurd hmem (not_mem_mark hhead hc)

/-! ## Digits for digits -/

/-- What goes on with digits as a numeral goes on with any other digits. -/
theorem IsDigits.mem_number_append {digits digits' more : List Char} (hdigits : IsDigits digits)
    (hdigits' : IsDigits digits') (h : digits' ++ more ∈ Rule.number.language) :
    digits ++ more ∈ Rule.number.language := by
  obtain ⟨n, htext⟩ := Rule.mem_number_iff.1 h
  rw [Numeral.text] at htext
  rcases List.append_eq_append_iff.1 htext with ⟨inside, hcut, htail⟩ | ⟨inside, hcut, rfl⟩
  · cases inside with
    | nil =>
      rw [List.nil_append] at htail
      rw [← htail]
      exact mem_number_of_parts hdigits n.fraction_digits n.exponent_form
    | cons d inside =>
      -- No digit stands behind the whole part of a numeral.
      have hd : d.isDigit = true := hdigits'.isDigit d (by simp [hcut])
      have hbreaks : Breaks Char.isDigit (pointed n.fraction ++ n.exponent) := by
        refine breaks_pointed ?_
        simpa using n.exponent_form.breaks_isDigit Breaks.nil
      rw [htail, List.cons_append, breaks_cons, hd] at hbreaks
      cases hbreaks
  · have hwhole : IsDigits (digits ++ inside) := by
      refine ⟨by simp [hdigits.ne_nil], List.forall_mem_append.2 ⟨hdigits.isDigit, ?_⟩⟩
      exact fun c hc => n.whole_digits c (by simp [hcut, hc])
    rw [← List.append_assoc]
    exact mem_number_of_parts hwhole n.fraction_digits n.exponent_form

/-- Only numerals begin with a digit. -/
theorem Rule.eq_number_of_isDigit {rule : Rule} {c : Char} {tail : List Char}
    (h : c :: tail ∈ rule.language) (hc : c.isDigit = true) : rule = .number := by
  obtain ⟨kind, rfl, hlexeme⟩ := Scan.exists_lexeme_self h
  rw [Scan.lexeme_of_isDigit hc] at hlexeme
  obtain rfl := Option.some.inj (congrArg Prod.fst hlexeme)
  rfl

/-- **Digits are a longest match where other digits are.** -/
theorem IsLongestMatch.digits {digits digits' rest : List Char}
    (h : IsLongestMatch .number digits rest) (hdigits : IsDigits digits)
    (hdigits' : IsDigits digits') : IsLongestMatch .number digits' rest := by
  refine ⟨hdigits'.mem_number, fun rule longer hlonger hstarts => ?_, nofun⟩
  rcases isPrefix_append_cases hstarts with hinside | ⟨more, rfl, hmore⟩
  · exact hinside.length_le
  · obtain ⟨d, ds, rfl⟩ := List.exists_cons_of_ne_nil hdigits'.ne_nil
    obtain rfl := Rule.eq_number_of_isDigit hlonger (hdigits'.isDigit d (by simp))
    have hmem := hdigits.mem_number_append hdigits' hlonger
    have hle := h.longest _ _ hmem ((List.prefix_append_right_inj digits).2 hmore)
    rw [List.length_append] at hle ⊢
    omega

theorem isLongestMatch_minus (rest : List Char) : IsLongestMatch .minus ['-'] rest :=
  Scan.lexeme_eq_some_iff.1 rfl

/-! ## A text with other digits -/

/-- A token stands where its span says, and what stands there and behind it can be replaced by what
curbs the text in front of it no less. -/
theorem Laid.exists_behind {offset : Nat} {cs : List Char} {front back : List Token} {token : Token}
    (h : Laid offset cs (front ++ token :: back)) : ∃ before after,
      cs = before ++ (token.text.toList ++ after) ∧
      token.span = ⟨offset + byteLength before,
        offset + byteLength before + byteLength token.text.toList⟩ ∧
      IsLongestMatch token.kind token.text.toList after ∧ Laid token.span.stop after back ∧
      ∀ rest words, Curbs (token.text.toList ++ after) rest → IsCut rest words →
        Curbs cs (before ++ rest) ∧ IsCut (before ++ rest) (front.map Token.word ++ words) := by
  generalize htokens : front ++ token :: back = tokens at h
  induction h generalizing front with
  | nil => simp at htokens
  | @separator offset c cs tokens hc h ih =>
    obtain ⟨before, after, rfl, hspan, hmatch, hafter, hreplace⟩ := ih htokens
    refine ⟨c :: before, after, rfl, ?_, hmatch, hafter, fun rest words hrest hcut => ?_⟩
    · rw [hspan, byteLength, Nat.add_assoc]
    · obtain ⟨hcurbs, hcut'⟩ := hreplace rest words hrest hcut
      exact ⟨hcurbs.append [c], hcut'.separator hc⟩
  | @token offset kind text rest tokens hmatch h ih =>
    cases front with
    | nil =>
      obtain ⟨rfl, rfl⟩ := List.cons.inj htokens
      rw [String.toList_ofList]
      exact ⟨[], rest, rfl, rfl, hmatch, h, fun rest' words hrest hcut => ⟨hrest, hcut⟩⟩
    | cons first front =>
      obtain ⟨rfl, htail⟩ := List.cons.inj htokens
      obtain ⟨before, after, rfl, hspan, hmatch', hafter, hreplace⟩ := ih htail
      refine ⟨text ++ before, after, by simp, ?_, hmatch', hafter, fun rest words hrest hcut => ?_⟩
      · rw [hspan, byteLength_append, Nat.add_assoc]
      · obtain ⟨hcurbs, hcut'⟩ := hreplace rest words hrest hcut
        rw [List.append_assoc]
        refine ⟨hcurbs.append text, ?_⟩
        simpa [Token.word] using (hmatch.curb hcurbs).isCut hcut'

/-- In front of the first token stand separators only. -/
theorem Laid.exists_gap {offset : Nat} {cs : List Char} {token : Token} {tokens : List Token}
    (h : Laid offset cs (token :: tokens)) : ∃ gap rest,
      cs = gap ++ (token.text.toList ++ rest) ∧ (∀ c ∈ gap, Scan.isSeparator c = true) ∧
      token.span.stop = offset + byteLength (gap ++ token.text.toList) := by
  generalize htokens : token :: tokens = laid at h
  induction h with
  | nil => cases htokens
  | separator hc h ih =>
    obtain ⟨gap, rest, rfl, hgap, hstop⟩ := ih htokens
    refine ⟨_ :: gap, rest, rfl, List.forall_mem_cons.2 ⟨hc, hgap⟩, ?_⟩
    rw [hstop, List.cons_append, byteLength, Nat.add_assoc]
  | @token _ _ _ rest _ _ _ =>
    cases htokens
    exact ⟨[], rest, by simp, by simp, by simp⟩

/-- **Where digits stand as a number, other digits can stand, and also behind a minus.** -/
theorem Laid.exists_digits {offset : Nat} {cs : List Char} {front back : List Token} {token : Token}
    (h : Laid offset cs (front ++ token :: back)) (hkind : token.kind = .number)
    (hdigits : IsDigits token.text.toList) : ∃ before after,
      cs = before ++ (token.text.toList ++ after) ∧
      token.span = ⟨offset + byteLength before,
        offset + byteLength before + byteLength token.text.toList⟩ ∧
      ∀ digits, IsDigits digits →
        IsCut (before ++ (digits ++ after))
          (front.map Token.word ++ ⟨.number, digits⟩ :: back.map Token.word) ∧
        IsCut (before ++ ('-' :: digits ++ after))
          (front.map Token.word ++ ⟨.minus, ['-']⟩ :: ⟨.number, digits⟩ :: back.map Token.word) := by
  obtain ⟨before, after, hcs, hspan, hmatch, hafter, hreplace⟩ := h.exists_behind
  refine ⟨before, after, hcs, hspan, fun digits hdigits' => ?_⟩
  rw [hkind] at hmatch
  have hcut := (hmatch.digits hdigits hdigits').isCut hafter.isCut
  obtain ⟨d, ds, htext⟩ := List.exists_cons_of_ne_nil hdigits.ne_nil
  have hd : d.isDigit = true := hdigits.isDigit d (by simp [htext])
  constructor
  · refine (hreplace _ _ ?_ hcut).2
    obtain ⟨d', ds', rfl⟩ := List.exists_cons_of_ne_nil hdigits'.ne_nil
    rw [htext]
    exact curbs_of_isDigit (.inl (hdigits'.isDigit d' (by simp))) hd _ _
  · refine (hreplace _ _ ?_ ((isLongestMatch_minus _).isCut hcut)).2
    rw [htext]
    exact curbs_of_isDigit (.inr rfl) hd _ _

end PinQuery
