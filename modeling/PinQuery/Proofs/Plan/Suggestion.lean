import PinQuery.Proofs.Plan.Checks
import PinQuery.Proofs.Text.Nearest
import PinQuery.Proofs.Token.Edits

/-!
# Suggested names mend a query

Where the analysis does not know a name it may suggest a known one. Put between backticks under the
span of the error, the suggested name gives a source that is read as the same query up to this name,
and the analysis of it comes further.

* `SemanticError.suggestion_cases`: which names are suggested, and for which errors.
* `exists_alike_of_quote`: reading a source in which one name is replaced.
* `Query.Alike.further_of_accepts`: analysing a query in which the name that fails is replaced.
* `suggestion_mends`: all of it together.
-/

namespace PinQuery

open Text

/-! ## Suggested names -/

/-- The closest candidate is one of the candidates. -/
theorem Text.mem_of_closest? {name candidate : String} {candidates : List String}
    (h : closest? name candidates = some candidate) : candidate ∈ candidates :=
  (closest?_eq_some_iff.1 h).2.mem

namespace SemanticError

theorem toList_didYouMean (name : String) :
    (didYouMean name).toList = "Did you mean '".toList ++ (name.toList ++ "'?".toList) := by
  change ("Did you mean '" ++ name ++ "'?").toList = _
  rw [String.toList_append, String.toList_append, List.append_assoc]

theorem didYouMean_injective : Function.Injective didYouMean := by
  intro name name' h
  have hlist := congrArg String.toList h
  rw [toList_didYouMean, toList_didYouMean, List.append_cancel_left_eq,
    List.append_cancel_right_eq] at hlist
  exact String.toList_inj.1 hlist

/-- A name is suggested for an unknown column, then it is that of a pin, or for an unknown target,
then it is one of the known ones. -/
theorem suggestion_cases {error : SemanticError} {name : String}
    (h : error.suggestion = didYouMean name) :
    (∃ text span, error = .unknownColumn text span ∧ name ∈ Pin.names) ∨
      ∃ text span known, error = .unknownTarget text span known ∧ name ∈ known := by
  have hhead : (didYouMean name).toList.head? = some 'D' := by
    rw [toList_didYouMean]
    rfl
  rw [← h] at hhead
  cases error with
  | unknownColumn text span =>
    rw [suggestion] at h hhead
    split at h
    next pin hpin =>
      rw [← didYouMean_injective h]
      exact .inl ⟨text, span, rfl, mem_of_closest? hpin⟩
    next hnone => simp [hnone] at hhead
  | unknownTarget text span known =>
    rw [suggestion] at h hhead
    split at h
    next target htarget =>
      rw [← didYouMean_injective h]
      exact .inr ⟨text, span, known, rfl, mem_of_closest? htarget⟩
    next hnone => simp [hnone] at hhead
  | unsupported text span =>
    rw [suggestion] at hhead
    exact absurd hhead (by decide)

end SemanticError

/-! ## Another name in a source -/

/-- A source with another text under a span. -/
def replaceAt (source : String) (span : Span) (text : String) : String :=
  String.ofList (takeBytes span.start source.toList ++
    (text.toList ++ dropBytes span.stop source.toList))

/-- The name at a place is another, and names at other places have the same text. -/
def Name.Renames (span : Span) (text : String) (name name' : Name) : Prop :=
  name'.text = if name.span = span then text else name.text

theorem Name.Renames.text_of_eq {span : Span} {text : String} {name name' : Name}
    (h : name.Renames span text name') (hspan : name.span = span) : name'.text = text := by
  rwa [Renames, if_pos hspan] at h

theorem Name.Renames.text_of_ne {span : Span} {text : String} {name name' : Name}
    (h : name.Renames span text name') (hspan : name.span ≠ span) : name'.text = name.text := by
  rwa [Renames, if_neg hspan] at h

theorem toList_replaceAt {source : String} {before inside after : List Char}
    (h : source.toList = before ++ (inside ++ after)) (text : String) :
    (replaceAt source ⟨byteLength before, byteLength before + byteLength inside⟩ text).toList =
      before ++ (text.toList ++ after) := by
  have hdrop : dropBytes (byteLength before + byteLength inside) source.toList = after := by
    rw [h, ← List.append_assoc, ← byteLength_append, dropBytes_byteLength_append]
  rw [replaceAt, String.toList_ofList, hdrop, h, takeBytes_byteLength_append]

theorem Token.name?_of_quoteName {token : Token} {name : String}
    (h : token.word = ⟨.quotedName, (quoteName name).toList⟩) :
    token.name? = some ⟨name, true, token.span⟩ := by
  have hkind : token.kind = .quotedName := congrArg Word.kind h
  have htext : token.text.toList = (quoteName name).toList := congrArg Word.text h
  simp [Token.name?, hkind, htext, toList_quoteName]

theorem Token.alike_of_word {S : Span → Span → Prop} {span : Span} {text : String}
    {token token' : Token} (hspan : S token.span token'.span) (hne : token.span ≠ span)
    (hword : token'.word = token.word) : token.Alike (Name.Renames span text) S token' := by
  have htext : token'.text = token.text := String.toList_inj.1 (congrArg Word.text hword)
  refine Token.alike_of_kept hspan (congrArg Word.kind hword) (fun _ => htext) fun name hname => ?_
  rw [Name.Renames, Token.span_of_name? hname, if_neg hne]

/-- Tokens with the same words stand for the same, away from the place of the other name. -/
theorem forall₂_alike_of_words {span : Span} {text : String} {tokens tokens' : List Token}
    (hwords : tokens'.map Token.word = tokens.map Token.word)
    (hne : ∀ token ∈ tokens, token.span ≠ span) :
    List.Forall₂ (Token.Alike (Name.Renames span text) fun _ _ => True) tokens tokens' := by
  have hsame : List.Forall₂ (fun token token' => token'.word = token.word) tokens tokens' := by
    rw [← List.forall₂_eq_eq_eq, List.forall₂_map_left_iff, List.forall₂_map_right_iff] at hwords
    exact hwords.flip
  exact ((List.forall₂_and_left _ _).2 ⟨hne, hsame⟩).imp fun token token' h =>
    Token.alike_of_word trivial h.1 h.2

/-- **A source in which one name is replaced is read as the same query up to this name.** -/
theorem exists_alike_of_quote {source : String} {query : Query} {token : Token} {name : Name}
    {text : String} (hparse : Query.parse source = .ok query) (htoken : token ∈ tokensOf source)
    (hname : token.name? = some name) (htext : ∀ c ∈ text.toList, Scan.isQuotable c = true) :
    ∃ query', Query.parse (replaceAt source token.span (quoteName text)) = .ok query' ∧
      query.Alike (Name.Renames token.span text) query' := by
  obtain ⟨hfaults, -⟩ := parse_eq_ok_iff.1 hparse
  obtain ⟨front, back, htokens⟩ := List.append_of_mem htoken
  have hlaid := laid_of_faultsOf hfaults
  have hspans := pairwise_span_tokensOf source
  rw [htokens] at hlaid hspans
  obtain ⟨before, after, hsource, hspan, hquote⟩ := hlaid.quote
  obtain ⟨-, hcut⟩ := hquote text htext
  rw [Nat.zero_add] at hspan
  rw [← toList_replaceAt hsource, ← hspan] at hcut
  obtain ⟨hwords, hfaults'⟩ := hcut.tokensOf
  obtain ⟨front', rest, htokens', hfront, hrest⟩ := List.map_eq_append_iff.1 hwords
  obtain ⟨token', back', rfl, hword, hback⟩ := List.map_eq_cons_iff.1 hrest
  obtain ⟨-, hbackSpans, hfrontSpans⟩ := List.pairwise_append.1 hspans
  have halike : List.Forall₂ (Token.Alike (Name.Renames token.span text) fun _ _ => True)
      (tokensOf source) (tokensOf (replaceAt source token.span (quoteName text))) := by
    rw [htokens, htokens']
    refine List.rel_append (forall₂_alike_of_words hfront fun other hother => ?_)
      (.cons ?_ (forall₂_alike_of_words hback fun other hother => ?_))
    · exact hfrontSpans other hother token (by simp)
    · refine .name trivial hname (Token.name?_of_quoteName hword) ?_
      rw [Name.Renames, Token.span_of_name? hname, if_pos rfl]
    · exact (List.rel_of_pairwise_cons hbackSpans hother).symm
  have hagree : Agree (fun _ _ => True) (Query.Alike (Name.Renames token.span text))
      (Query.parse source) (Query.parse (replaceAt source token.span (quoteName text))) :=
    parse_agree hfaults hfaults' halike trivial
  rw [hparse] at hagree
  generalize Query.parse (replaceAt source token.span (quoteName text)) = result at hagree ⊢
  cases hagree with
  | ok h => exact ⟨_, rfl, h⟩

/-! ## The checks of the other query -/

namespace Check.Alike

variable {span : Span} {text : String} {vocabulary : List String} {check check' : Check}

/-- A check away from the place of the other name passes as before. -/
theorem passes_of_ne (h : check.Alike (Name.Renames span text) check')
    (hspan : check.span? ≠ some span) (hpass : check.offence? vocabulary = none) :
    check'.offence? vocabulary = none := by
  cases h with
  | pin h =>
    rw [offence?_pin_eq_none_iff] at hpass ⊢
    rwa [h.text_of_ne fun hname => hspan (congrArg some hname)]
  | target h =>
    obtain ⟨name, name', h, rfl, rfl⟩ := h
    have htext : name'.text = name.text := h.text_of_ne fun hname => hspan (congrArg some hname)
    rw [offence?_target_eq_none_iff] at hpass ⊢
    rwa [Name.asTarget, htext]
  | refusal => cases hpass

/-- The check of the other name passes if it accepts this name. -/
theorem passes_of_accepts (h : check.Alike (Name.Renames span text) check')
    (hspan : check.span? = some span) (haccepts : check.Accepts vocabulary text) :
    check'.offence? vocabulary = none := by
  cases h with
  | pin h =>
    rw [offence?_pin_eq_none_iff, h.text_of_eq (Option.some.inj hspan)]
    exact haccepts
  | target h =>
    obtain ⟨name, name', h, rfl, rfl⟩ := h
    have htext : name'.text = text := h.text_of_eq (Option.some.inj hspan)
    rw [offence?_target_eq_none_iff, Name.asTarget, htext]
    exact haccepts
  | refusal => cases hspan

end Check.Alike

/-- A query in which the name that fails is replaced by one that is accepted has a plan, or fails at a
later check. -/
theorem Query.Alike.further_of_accepts {vocabulary : List String} {query query' : Query} {span : Span}
    {text : String} (h : query.Alike (Name.Renames span text) query')
    (hnodup : (query.identifiers.map Prod.snd).Nodup) {passed rest : List Check} {check : Check}
    (hchecks : query.checks = passed ++ check :: rest)
    (hpassed : ∀ other ∈ passed, other.offence? vocabulary = none)
    (hspan : check.span? = some span) (haccepts : check.Accepts vocabulary text) :
    (∃ plan, Plan.ofQuery (.ofList vocabulary) query' = .ok plan) ∨
      ∃ k error, passed.length < k ∧ query'.FailsAt vocabulary k error ∧
        Plan.ofQuery (.ofList vocabulary) query' = .error error := by
  have halike := h.checks.flip
  have hspans := hnodup.sublist query.checks_sublist
  rw [hchecks] at halike
  rw [hchecks, List.filterMap_append, List.filterMap_cons_some hspan] at hspans
  have haway : ∀ other ∈ passed, other.span? ≠ some span ∧ other.offence? vocabulary = none := by
    refine fun other hother => ⟨fun hsame => ?_, hpassed other hother⟩
    exact List.disjoint_of_nodup_append hspans (List.mem_filterMap.2 ⟨other, hother, hsame⟩)
      List.mem_cons_self
  -- The checks of the other query are cut where those of the query are.
  have hfront := List.forall₂_take_append _ _ _ halike
  obtain ⟨check', rest', hcheck, -, hback⟩ :=
    List.forall₂_cons_right_iff.1 (List.forall₂_drop_append _ _ _ halike)
  have hcut : query'.checks = query'.checks.take passed.length ++ check' :: rest' := by
    rw [← hback, List.take_append_drop]
  have hpassed' : ∀ other ∈ query'.checks.take passed.length,
      other.offence? vocabulary = none := by
    have hpass := ((List.forall₂_and_left _ _).2 ⟨haway, hfront.flip⟩).flip.imp
      (S := fun other _ => other.offence? vocabulary = none ∧ True)
      fun other' other h => ⟨h.2.passes_of_ne h.1.1 h.1.2, trivial⟩
    exact ((List.forall₂_and_left _ _).1 hpass).1
  have hlater := further_of_passes hcut hpassed' (hcheck.passes_of_accepts hspan haccepts)
  rwa [hfront.length_eq] at hlater

/-! ## Suggestions mend -/

/-- The names of pins and of the built-in targets can stand between backticks. -/
theorem isQuotable_of_mem {name : String} (h : name ∈ Pin.names ++ builtinTargets) :
    ∀ c ∈ name.toList, Scan.isQuotable c = true := by
  have hall : ((Pin.names ++ builtinTargets).all fun name => name.toList.all Scan.isQuotable) =
      true := by
    decide +kernel
  exact List.all_eq_true.1 (List.all_eq_true.1 hall name h)

/-- A check that fails with a suggestion is that of a name, and accepts the suggested one. -/
theorem Check.accepts_of_suggestion {check : Check} {error : SemanticError} {name : String}
    (h : check.offence? builtinTargets = some error)
    (hname : error.suggestion = SemanticError.didYouMean name) :
    check.span? = some error.span ∧ check.Accepts builtinTargets name ∧
      name ∈ Pin.names ++ builtinTargets := by
  have hcases := SemanticError.suggestion_cases hname
  cases check with
  | pin column =>
    obtain ⟨-, ⟨⟩⟩ := Option.ite_none_left_eq_some.1 h
    rcases hcases with ⟨_, _, -, hmem⟩ | ⟨_, _, _, herror, -⟩
    · obtain ⟨pin, hpin, rfl⟩ := List.mem_map.1 hmem
      have hpinName : IsPinName pin.name := isPinName_iff.2 ⟨pin, Pin.mem_all_iff.1 hpin, rfl⟩
      exact ⟨rfl, hpinName, List.mem_append_left _ hmem⟩
    · cases herror
  | target wanted =>
    obtain ⟨-, ⟨⟩⟩ := Option.ite_none_left_eq_some.1 h
    rcases hcases with ⟨_, _, herror, -⟩ | ⟨_, _, _, herror, hmem⟩
    · cases herror
    · cases herror
      rw [Text.sortedByBytes, List.mem_mergeSort, List.mem_dedup] at hmem
      exact ⟨rfl, hmem, List.mem_append_right _ hmem⟩
  | refusal node =>
    obtain rfl := Option.some.inj h
    rcases hcases with ⟨_, _, herror, -⟩ | ⟨_, _, _, herror, -⟩ <;> cases herror

/-- **A suggested name mends a query.** Let a source be read as a query whose analysis with the
built-in targets fails, and let the error suggest a name. Exactly one name of the query stands at the
error's span. With the suggested name between backticks under this span, the source is read as the
same query up to places and quoting, apart from this name, which is now the suggested one. The
analysis of this query gives a plan, or fails at a later check. -/
theorem suggestion_mends {source : String} {query : Query} {error : SemanticError} {name : String}
    (hparse : Query.parse source = .ok query)
    (herror : Plan.ofQuery (.ofList builtinTargets) query = .error error)
    (hname : (error.diagnostic source).suggestion = some (SemanticError.didYouMean name)) :
    (query.identifiers.map Prod.snd).count error.span = 1 ∧ ∃ query' k,
      Query.parse (replaceAt source error.span (quoteName name)) = .ok query' ∧
      query.Alike (Name.Renames error.span name) query' ∧
      query.FailsAt builtinTargets k error ∧
      ((∃ plan, Plan.ofQuery (.ofList builtinTargets) query' = .ok plan) ∨
        ∃ k' error', k < k' ∧ query'.FailsAt builtinTargets k' error' ∧
          Plan.ofQuery (.ofList builtinTargets) query' = .error error') := by
  obtain ⟨-, passed, check, rest, hchecks, -, hcheck, hpassed⟩ :=
    (ofQuery_eq_error_iff builtinTargets).1 herror
  obtain ⟨hspan, haccepts, hmem⟩ := check.accepts_of_suggestion hcheck (Option.some.inj hname)
  have hidentifiers := identifiers_of_parse hparse
  have hnodup : (query.identifiers.map Prod.snd).Nodup := by
    rw [hidentifiers]
    exact nodup_identifiersOf source
  have hplace : error.span ∈ query.identifiers.map Prod.snd := by
    refine query.checks_sublist.subset (List.mem_filterMap.2 ⟨check, ?_, hspan⟩)
    simp [hchecks]
  obtain ⟨token, htoken, found, hfound, hsame⟩ : ∃ token ∈ tokensOf source, ∃ found,
      token.name? = some found ∧ token.span = error.span := by
    rw [hidentifiers, identifiersOf, List.map_map, List.mem_map] at hplace
    obtain ⟨found, hmem, hsame⟩ := hplace
    obtain ⟨token, htoken, hfound⟩ := List.mem_filterMap.1 hmem
    exact ⟨token, htoken, found, hfound, (Token.span_of_name? hfound).symm.trans hsame⟩
  obtain ⟨query', hparse', halike⟩ :=
    exists_alike_of_quote hparse htoken hfound (isQuotable_of_mem hmem)
  rw [hsame] at hparse' halike
  exact ⟨List.count_eq_one_of_mem hnodup hplace, query', passed.length, hparse', halike,
    ⟨passed, check, rest, hchecks, rfl, hcheck, hpassed⟩,
    halike.further_of_accepts hnodup hchecks hpassed hspan haccepts⟩

/-- A name that touches the tokens around it is replaced, and the next unknown name is found. -/
theorem suggestion_gluedColumn : ∃ query error,
    Query.parse "SELECT din1,`dim2`FROM dev WHERE ain99>0" = .ok query ∧
    Plan.ofQuery (.ofList builtinTargets) query = .error error ∧
    (error.diagnostic "SELECT din1,`dim2`FROM dev WHERE ain99>0").suggestion =
      some (SemanticError.didYouMean "din2") ∧
    (query.identifiers.map Prod.snd).count error.span = 1 ∧ ∃ query' k,
      Query.parse "SELECT din1,`din2`FROM dev WHERE ain99>0" = .ok query' ∧
      query.Alike (Name.Renames error.span "din2") query' ∧
      query.FailsAt builtinTargets k error ∧
      ((∃ plan, Plan.ofQuery (.ofList builtinTargets) query' = .ok plan) ∨
        ∃ k' error', k < k' ∧ query'.FailsAt builtinTargets k' error' ∧
          Plan.ofQuery (.ofList builtinTargets) query' = .error error') := by
  let query : Query := ⟨[⟨"din1", false, ⟨7, 11⟩⟩, ⟨"dim2", true, ⟨12, 18⟩⟩], ⟨"dev", ⟨23, 26⟩⟩,
    some (.comparison .greater (.column ⟨"ain99", false, ⟨33, 38⟩⟩)
      (.literal ⟨.int 0, ⟨39, 40⟩⟩) ⟨33, 40⟩), none, none, ⟨0, 40⟩⟩
  let error : SemanticError := .unknownColumn "dim2" ⟨12, 18⟩
  have hparse : Query.parse "SELECT din1,`dim2`FROM dev WHERE ain99>0" = .ok query := by
    decide +kernel
  have herror : Plan.ofQuery (.ofList builtinTargets) query = .error error := by decide +kernel
  have hname : (error.diagnostic "SELECT din1,`dim2`FROM dev WHERE ain99>0").suggestion =
      some (SemanticError.didYouMean "din2") := by
    decide +kernel
  have hreplaced : replaceAt "SELECT din1,`dim2`FROM dev WHERE ain99>0" error.span
      (quoteName "din2") = "SELECT din1,`din2`FROM dev WHERE ain99>0" := by
    decide +kernel
  have hmends := suggestion_mends hparse herror hname
  rw [hreplaced] at hmends
  exact ⟨query, error, hparse, herror, hname, hmends⟩

end PinQuery
