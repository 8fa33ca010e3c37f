import PinQuery.Proofs.Query.Alike
import PinQuery.Proofs.Token.Edits

/-!
# Layout does not matter

A query may be laid out in any way: other separators between its tokens and other cases of its
keywords change neither what is read nor what is reported.

* `SameIndex source source'` relates the spans of tokens that have the same index in two sources.
* `Token.Kept`: a token that keeps its kind, and its text unless it is a keyword. Scanning a source
  that is laid out in another way gives such tokens (`Relaid.scan_kept`).
* `layout_does_not_matter`: scanning and reading a source that is laid out in another way.
-/

namespace PinQuery

/-- Spans of tokens with the same index. -/
def SameIndex (source source' : String) (span span' : Span) : Prop :=
  ∃ (i : Nat) (token token' : Token), (scan source)[i]? = some token ∧
    (scan source')[i]? = some token' ∧ token.span = span ∧ token'.span = span'

/-- Names with the same text and quoting. -/
structure Name.SameText (name name' : Name) : Prop where
  text : name'.text = name.text
  quoted : name'.quoted = name.quoted

/-- A token that keeps its kind, and its text unless it is a keyword. -/
structure Token.Kept (token token' : Token) : Prop where
  kind : token'.kind = token.kind
  text : (∀ keyword, token.kind ≠ .keyword keyword) → token'.text = token.text

theorem Token.Kept.alike {S : Span → Span → Prop} {token token' : Token} (h : token.Kept token')
    (hspan : S token.span token'.span) : token.Alike Name.SameText S token' :=
  Token.alike_of_kept hspan h.kind h.text fun _ _ => ⟨rfl, rfl⟩

/-- Tokens that are kept one by one are alike, with the tokens of the same index. -/
theorem forall₂_alike_of_kept {source source' : String}
    (h : List.Forall₂ Token.Kept (tokensOf source) (tokensOf source')) :
    List.Forall₂ (Token.Alike Name.SameText (SameIndex source source')) (tokensOf source)
      (tokensOf source') := by
  obtain ⟨hlength, hkept⟩ := List.forall₂_iff_get.1 h
  refine List.forall₂_iff_get.2 ⟨hlength, fun i hi hi' => (hkept i hi hi').alike ?_⟩
  refine ⟨i, _, _, ?_, ?_, rfl, rfl⟩
  · rw [scan, List.getElem?_append_left hi]
    exact List.getElem?_eq_getElem hi
  · rw [scan, List.getElem?_append_left hi']
    exact List.getElem?_eq_getElem hi'

/-- Scanning a source that is laid out in another way gives the same tokens. -/
theorem Relaid.scan_kept {source source' : String} (hfaults : faultsOf source = [])
    (h : Relaid (tokensOf source) source.toList source'.toList) :
    faultsOf source' = [] ∧ List.Forall₂ Token.Kept (tokensOf source) (tokensOf source') := by
  obtain ⟨words, hcut, hwords⟩ := h.exists_isCut (laid_of_faultsOf hfaults)
  obtain ⟨htokens, hfaults'⟩ := hcut.tokensOf
  rw [← htokens, List.forall₂_map_right_iff] at hwords
  refine ⟨hfaults', hwords.imp fun token token' hword => ⟨hword.1, fun hother => ?_⟩⟩
  exact String.toList_inj.1 (hword.2.other hother)

/-- **Layout and the case of keywords do not matter.** Let a source without faults be laid out in
another way: at the boundaries of its tokens separators are put in, runs of separators are replaced
by others that are not empty, and keywords are written in other cases. The new source has no fault
and the same tokens, up to the case of keywords. Both are read as queries, which are the same up to
places, or neither is; then the errors are of one kind, name the same as expected, and stand at
tokens of the same index. -/
theorem layout_does_not_matter (source source' : String) (hfaults : faultsOf source = [])
    (h : Relaid (tokensOf source) source.toList source'.toList) :
    faultsOf source' = [] ∧ List.Forall₂ Token.Kept (scan source) (scan source') ∧
      Agree (SameIndex source source') (Query.Alike Name.SameText) (Query.parse source)
        (Query.parse source') := by
  obtain ⟨hfaults', hkept⟩ := h.scan_kept hfaults
  have hlength : (tokensOf source).length = (tokensOf source').length := hkept.length_eq
  refine ⟨hfaults', List.rel_append hkept (.cons ⟨rfl, fun _ => rfl⟩ .nil), ?_⟩
  have hend : SameIndex source source' (.empty (endOf source)) (.empty (endOf source')) := by
    refine ⟨(tokensOf source).length, .endAt (endOf source), .endAt (endOf source'), ?_, ?_, rfl,
      rfl⟩
    · simp [scan]
    · simp [scan, hlength]
  exact parse_agree hfaults hfaults' (forall₂_alike_of_kept hkept) hend

/-- Where two tokens touch, separators are put in; where some stand, others are put; and keywords are
in any case. -/
theorem layout_gluedQuotedName :
    Relaid (tokensOf "SELECT`a b`FROM c") "SELECT`a b`FROM c".toList
      "select\n`a b` From\t\tc ".toList ∧
    Agree (SameIndex "SELECT`a b`FROM c" "select\n`a b` From\t\tc ")
      (Query.Alike Name.SameText) (Query.parse "SELECT`a b`FROM c")
      (Query.parse "select\n`a b` From\t\tc ") := by
  have htokens : tokensOf "SELECT`a b`FROM c" = [⟨.keyword .select, "SELECT", ⟨0, 6⟩⟩,
      ⟨.quotedName, "`a b`", ⟨6, 11⟩⟩, ⟨.keyword .from_, "FROM", ⟨11, 15⟩⟩,
      ⟨.name, "c", ⟨16, 17⟩⟩] := by
    decide +kernel
  have hfaults : faultsOf "SELECT`a b`FROM c" = [] := by decide +kernel
  have hrelaid : Relaid (tokensOf "SELECT`a b`FROM c")
      ([] ++ ("SELECT".toList ++ ([] ++ ("`a b`".toList ++ ([] ++ ("FROM".toList ++
        ([' '] ++ ("c".toList ++ []))))))))
      ([] ++ ("select".toList ++ (['\n'] ++ ("`a b`".toList ++ ([' '] ++ ("From".toList ++
        (['\t', '\t'] ++ ("c".toList ++ [' '])))))))) := by
    rw [htokens]
    refine .token ⟨by simp, by simp, by simp⟩ ⟨by decide, by simp⟩ ?_
    refine .token ⟨by simp, List.all_eq_true.1 rfl, by simp⟩ ⟨rfl, fun _ => rfl⟩ ?_
    refine .token ⟨by simp, List.all_eq_true.1 rfl, by simp⟩ ⟨by decide, by simp⟩ ?_
    refine .token ⟨List.all_eq_true.1 rfl, List.all_eq_true.1 rfl, by simp⟩ ⟨rfl, fun _ => rfl⟩ ?_
    exact .done ⟨by simp, List.all_eq_true.1 rfl, by simp⟩
  exact ⟨hrelaid,
    (layout_does_not_matter _ "select\n`a b` From\t\tc " hfaults hrelaid).2.2⟩

end PinQuery
