import PinQuery.Proofs.Query.Acceptance
import PinQuery.Proofs.Token.Words

/-!
# The grammar does not look at places

Tokens with the same words spell the same queries up to places. Of this only the existence is
needed and shown here: each relation of the grammar that holds of some tokens holds of all tokens
with their words, for some value (`SpellsQuery.relocate`).
-/

namespace PinQuery

variable {token token' : Token} {tokens tokens' : List Token}

theorem Token.kind_eq_of_word (h : token'.word = token.word) : token'.kind = token.kind :=
  congrArg Word.kind h

theorem Token.toList_text_eq_of_word (h : token'.word = token.word) :
    token'.text.toList = token.text.toList :=
  congrArg Word.text h

theorem Token.exists_name?_of_word {name : Name} (h : token'.word = token.word)
    (hname : token.name? = some name) : ∃ name', token'.name? = some name' := by
  have hkind := Token.kind_eq_of_word h
  rcases Token.kind_of_name? hname with hname | hname <;> simp [Token.name?, hkind, hname]

/-- Tokens with the words of two phrases and a token between them are cut in the same way. -/
theorem exists_append_cons_of_words {lefts rights : List Token}
    (h : tokens'.map Token.word = (lefts ++ token :: rights).map Token.word) :
    ∃ lefts' token' rights', tokens' = lefts' ++ token' :: rights' ∧
      lefts'.map Token.word = lefts.map Token.word ∧ token'.word = token.word ∧
      rights'.map Token.word = rights.map Token.word := by
  rw [List.map_append, List.map_cons] at h
  obtain ⟨lefts', rest, rfl, hlefts, hrest⟩ := List.map_eq_append_iff.1 h
  obtain ⟨token', rights', rfl, hword, hrights⟩ := List.map_eq_cons_iff.1 hrest
  exact ⟨lefts', token', rights', rfl, hlefts, hword, hrights⟩

/-! ## Operands -/

theorem SpellsSign.relocate {sign : Option Sign} (h : SpellsSign tokens sign)
    (hwords : tokens'.map Token.word = tokens.map Token.word) :
    ∃ sign', SpellsSign tokens' sign' := by
  cases h with
  | absent =>
    obtain rfl := List.map_eq_nil_iff.1 hwords
    exact ⟨none, .absent⟩
  | present hsign =>
    obtain ⟨token', rfl, hword⟩ := List.map_eq_singleton_iff.1 hwords
    have hkind := Token.kind_eq_of_word hword
    rcases Token.kind_of_sign? hsign with hsign | hsign
    · exact ⟨_, .present (Token.sign?_eq_some_iff.2 (.inl ⟨hkind.trans hsign, rfl⟩))⟩
    · exact ⟨_, .present (Token.sign?_eq_some_iff.2 (.inr ⟨hkind.trans hsign, rfl⟩))⟩

theorem SpellsNumber.relocate {literal : Literal} (h : SpellsNumber tokens literal)
    (hwords : tokens'.map Token.word = tokens.map Token.word) :
    ∃ literal', SpellsNumber tokens' literal' := by
  obtain ⟨signs, sign, token, rfl, hsign, hkind, hliteral⟩ := spellsNumber_iff.1 h
  obtain ⟨signs', token', last, rfl, hsigns, hword, hlast⟩ := exists_append_cons_of_words hwords
  obtain rfl := List.map_eq_nil_iff.1 hlast
  obtain ⟨sign', hsign'⟩ := hsign.relocate hsigns
  obtain ⟨value, hvalue, -⟩ := Token.literal_eq_ok_iff.1 hliteral
  rw [← Token.toList_text_eq_of_word hword] at hvalue
  exact ⟨_, spellsNumber_iff.2 ⟨signs', sign', token', rfl, hsign',
    (Token.kind_eq_of_word hword).trans hkind, Token.literal_eq_ok_iff.2 ⟨value, hvalue, rfl⟩⟩⟩

theorem SpellsOperand.relocate {e : Expr} (h : SpellsOperand tokens e)
    (hwords : tokens'.map Token.word = tokens.map Token.word) :
    ∃ e', SpellsOperand tokens' e' := by
  cases h with
  | name hname =>
    obtain ⟨token', rfl, hword⟩ := List.map_eq_singleton_iff.1 hwords
    obtain ⟨name', hname'⟩ := Token.exists_name?_of_word hword hname
    exact ⟨_, .name hname'⟩
  | number h =>
    obtain ⟨literal', h'⟩ := h.relocate hwords
    exact ⟨_, .number h'⟩

/-! ## Conditions -/

theorem Spells.relocate {level : Level} {e : Expr} (h : Spells level tokens e)
    (hwords : tokens'.map Token.word = tokens.map Token.word) :
    ∃ e', Spells level tokens' e' := by
  induction h generalizing tokens' with
  | conjunction _ ih =>
    obtain ⟨e', h'⟩ := ih hwords
    exact ⟨e', .conjunction h'⟩
  | or _ hkind _ ihleft ihright =>
    obtain ⟨lefts', token', rights', rfl, hlefts, hword, hrights⟩ :=
      exists_append_cons_of_words hwords
    obtain ⟨left', hleft'⟩ := ihleft hlefts
    obtain ⟨right', hright'⟩ := ihright hrights
    exact ⟨_, .or hleft' ((Token.kind_eq_of_word hword).trans hkind) hright'⟩
  | factor _ ih =>
    obtain ⟨e', h'⟩ := ih hwords
    exact ⟨e', .factor h'⟩
  | and _ hkind _ ihleft ihright =>
    obtain ⟨lefts', token', rights', rfl, hlefts, hword, hrights⟩ :=
      exists_append_cons_of_words hwords
    obtain ⟨left', hleft'⟩ := ihleft hlefts
    obtain ⟨right', hright'⟩ := ihright hrights
    exact ⟨_, .and hleft' ((Token.kind_eq_of_word hword).trans hkind) hright'⟩
  | not hkind _ ih =>
    obtain ⟨token', rest, rfl, hword, hrest⟩ := List.map_eq_cons_iff.1 hwords
    obtain ⟨e', h'⟩ := ih hrest
    exact ⟨_, .not ((Token.kind_eq_of_word hword).trans hkind) h'⟩
  | paren hopening _ hclosing ih =>
    obtain ⟨opening', rest, rfl, hword, hrest⟩ := List.map_eq_cons_iff.1 hwords
    obtain ⟨inner', closing', last, rfl, hinner, hclosing', hlast⟩ :=
      exists_append_cons_of_words hrest
    obtain rfl := List.map_eq_nil_iff.1 hlast
    obtain ⟨e', h'⟩ := ih hinner
    exact ⟨e', .paren ((Token.kind_eq_of_word hword).trans hopening) h'
      ((Token.kind_eq_of_word hclosing').trans hclosing)⟩
  | comparison hleft hop hright =>
    obtain ⟨lefts', token', rights', rfl, hlefts, hword, hrights⟩ :=
      exists_append_cons_of_words hwords
    obtain ⟨left', hleft'⟩ := hleft.relocate hlefts
    obtain ⟨right', hright'⟩ := hright.relocate hrights
    exact ⟨_, .comparison hleft' (Token.kind_eq_of_word hword ▸ hop) hright'⟩

/-! ## Queries -/

theorem SpellsColumns.relocate {names : List Name} (h : SpellsColumns tokens names)
    (hwords : tokens'.map Token.word = tokens.map Token.word) :
    ∃ names', SpellsColumns tokens' names' := by
  induction h generalizing tokens' with
  | one hname =>
    obtain ⟨token', rfl, hword⟩ := List.map_eq_singleton_iff.1 hwords
    obtain ⟨name', hname'⟩ := Token.exists_name?_of_word hword hname
    exact ⟨_, .one hname'⟩
  | more _ hcomma hname ih =>
    obtain ⟨lefts', comma', rest, rfl, hlefts, hcomma', hrest⟩ :=
      exists_append_cons_of_words hwords
    obtain ⟨token', rfl, hword⟩ := List.map_eq_singleton_iff.1 hrest
    obtain ⟨names', h'⟩ := ih hlefts
    obtain ⟨name', hname'⟩ := Token.exists_name?_of_word hword hname
    exact ⟨_, .more h' ((Token.kind_eq_of_word hcomma').trans hcomma) hname'⟩

theorem SpellsCondition.relocate {condition : Option Expr} (h : SpellsCondition tokens condition)
    (hwords : tokens'.map Token.word = tokens.map Token.word) :
    ∃ condition', SpellsCondition tokens' condition' := by
  cases h with
  | absent =>
    obtain rfl := List.map_eq_nil_iff.1 hwords
    exact ⟨_, .absent⟩
  | present hkind h =>
    obtain ⟨token', rest, rfl, hword, hrest⟩ := List.map_eq_cons_iff.1 hwords
    obtain ⟨e', h'⟩ := h.relocate hrest
    exact ⟨_, .present ((Token.kind_eq_of_word hword).trans hkind) h'⟩

theorem SpellsSetting.relocate {keyword : Keyword} {setting : Option Literal}
    (h : SpellsSetting keyword tokens setting)
    (hwords : tokens'.map Token.word = tokens.map Token.word) :
    ∃ setting', SpellsSetting keyword tokens' setting' := by
  cases h with
  | absent =>
    obtain rfl := List.map_eq_nil_iff.1 hwords
    exact ⟨_, .absent⟩
  | present hkind h =>
    obtain ⟨token', rest, rfl, hword, hrest⟩ := List.map_eq_cons_iff.1 hwords
    obtain ⟨literal', h'⟩ := h.relocate hrest
    exact ⟨_, .present ((Token.kind_eq_of_word hword).trans hkind) h'⟩

theorem SpellsDraft.relocate {draft : Draft} (h : SpellsDraft tokens draft)
    (hwords : tokens'.map Token.word = tokens.map Token.word) :
    ∃ draft', SpellsDraft tokens' draft' := by
  cases h with
  | clauses hselect hcolumns hfrom htarget hcondition hsleep hspeed =>
    obtain ⟨select', rest, rfl, hselect', hrest⟩ := List.map_eq_cons_iff.1 hwords
    obtain ⟨columns', from', rest, rfl, hcolumns', hfrom', hrest⟩ :=
      exists_append_cons_of_words hrest
    obtain ⟨target', rest, rfl, htarget', hrest⟩ := List.map_eq_cons_iff.1 hrest
    rw [List.map_append, List.map_append] at hrest
    obtain ⟨conditions', rest, rfl, hcondition', hrest⟩ := List.map_eq_append_iff.1 hrest
    obtain ⟨sleeps', speeds', rfl, hsleep', hspeed'⟩ := List.map_eq_append_iff.1 hrest
    obtain ⟨names', hcolumns⟩ := hcolumns.relocate hcolumns'
    obtain ⟨name', htarget⟩ := Token.exists_name?_of_word htarget' htarget
    obtain ⟨condition', hcondition⟩ := hcondition.relocate hcondition'
    obtain ⟨sleep', hsleep⟩ := hsleep.relocate hsleep'
    obtain ⟨speed', hspeed⟩ := hspeed.relocate hspeed'
    exact ⟨_, .clauses ((Token.kind_eq_of_word hselect').trans hselect) hcolumns
      ((Token.kind_eq_of_word hfrom').trans hfrom) htarget hcondition hsleep hspeed⟩

theorem SpellsSemicolon.relocate (h : SpellsSemicolon tokens)
    (hwords : tokens'.map Token.word = tokens.map Token.word) : SpellsSemicolon tokens' := by
  cases h with
  | absent =>
    obtain rfl := List.map_eq_nil_iff.1 hwords
    exact .absent
  | present hkind =>
    obtain ⟨token', rfl, hword⟩ := List.map_eq_singleton_iff.1 hwords
    exact .present ((Token.kind_eq_of_word hword).trans hkind)

/-- **Whether tokens spell a query depends on their words only.** -/
theorem SpellsQuery.relocate {query : Query} (h : SpellsQuery tokens query)
    (hwords : tokens'.map Token.word = tokens.map Token.word) :
    ∃ query', SpellsQuery tokens' query' := by
  cases h with
  | query hdraft hsemicolon hfinal =>
    obtain ⟨body', final', last, rfl, hbody, hfinal', hlast⟩ := exists_append_cons_of_words hwords
    obtain rfl := List.map_eq_nil_iff.1 hlast
    rw [List.map_append] at hbody
    obtain ⟨clauses', semicolons', rfl, hclauses, hsemicolons⟩ := List.map_eq_append_iff.1 hbody
    obtain ⟨draft', hdraft'⟩ := hdraft.relocate hclauses
    exact ⟨_, .query hdraft' (hsemicolon.relocate hsemicolons)
      ((Token.kind_eq_of_word hfinal').trans hfinal)⟩

end PinQuery
