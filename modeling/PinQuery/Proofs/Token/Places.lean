import PinQuery.Token.Scan

/-!
# Where the pieces of a text stand

* `Text.slice?_append`: the text under the span of a stretch is the stretch.
* `slice?_of_mem_scan`: every token of a source has the text under its span, the end of the query
  included.
* `pairwise_faultsOf`: the faulty stretches of a source are listed from left to right.
-/

namespace PinQuery

open Text

namespace Text

theorem dropBytes_byteLength_append (cs ds : List Char) :
    dropBytes (byteLength cs) (cs ++ ds) = ds := by
  have h := takeBytes_append_dropBytes (byteLength cs) (cs ++ ds)
  rw [takeBytes_byteLength_append] at h
  exact List.append_cancel_left h

/-- The text under the span of a stretch is the stretch. -/
theorem slice?_append (before inside after : List Char) :
    slice? ⟨byteLength before, byteLength before + byteLength inside⟩
      (before ++ (inside ++ after)) = some inside := by
  simp [slice?, takeBytes_byteLength_append, dropBytes_byteLength_append]

end Text

namespace Scan

/-- A piece is a stretch of the text it was cut from, and its span says which. -/
theorem exists_append_of_mem_piecesFrom (offset : Nat) (cs : List Char) :
    ∀ piece ∈ piecesFrom offset cs, ∃ before after, cs = before ++ (piece.text.toList ++ after) ∧
      piece.span = ⟨offset + byteLength before,
        offset + byteLength before + byteLength piece.text.toList⟩ := by
  induction offset, cs using piecesFrom.induct with
  | case1 => simp [piecesFrom]
  | case2 offset c cs hsep ih =>
    rw [piecesFrom, if_pos hsep]
    intro piece hpiece
    obtain ⟨before, after, hcs, hspan⟩ := ih piece hpiece
    refine ⟨c :: before, after, by simp [← hcs], ?_⟩
    simp only [hspan, byteLength, Nat.add_assoc]
  | case3 offset c cs hsep kind more hlexeme taken stop ih =>
    rw [piecesFrom, if_neg hsep, hlexeme]
    intro piece hpiece
    rcases List.mem_cons.1 hpiece with rfl | hpiece
    · refine ⟨[], cs.drop more, ?_, ?_⟩
      · simp
      · simp [byteLength]
    · obtain ⟨before, after, hcs, hspan⟩ := ih piece hpiece
      refine ⟨taken ++ before, after, ?_, ?_⟩
      · rw [List.append_assoc, ← hcs]
        simp [taken]
      · simp only [hspan, byteLength_append, stop, Nat.add_assoc]

/-- Every piece has at least the bytes of its first character. -/
theorem start_lt_stop_of_mem_piecesFrom (offset : Nat) (cs : List Char) :
    ∀ piece ∈ piecesFrom offset cs, piece.span.start < piece.span.stop := by
  induction offset, cs using piecesFrom.induct with
  | case1 => simp [piecesFrom]
  | case2 offset c cs hsep ih =>
    rw [piecesFrom, if_pos hsep]
    exact ih
  | case3 offset c cs hsep kind more hlexeme taken stop ih =>
    rw [piecesFrom, if_neg hsep, hlexeme]
    refine List.forall_mem_cons.2 ⟨?_, ih⟩
    have hfirst := c.utf8Size_pos
    simp only [byteLength]
    omega

/-- A piece begins where the one before it ends, or behind that. -/
theorem pairwise_disjoint_piecesFrom (offset : Nat) (cs : List Char) :
    (piecesFrom offset cs).Pairwise fun piece other => piece.span.stop ≤ other.span.start := by
  induction offset, cs using piecesFrom.induct with
  | case1 => simp [piecesFrom]
  | case2 offset c cs hsep ih =>
    rw [piecesFrom, if_pos hsep]
    exact ih
  | case3 offset c cs hsep kind more hlexeme taken stop ih =>
    rw [piecesFrom, if_neg hsep, hlexeme]
    refine List.pairwise_cons.2 ⟨fun other hother => ?_, ih⟩
    obtain ⟨before, -, -, hspan⟩ := exists_append_of_mem_piecesFrom _ _ other hother
    rw [hspan]
    exact Nat.le_add_right _ _

/-- The pieces of a text follow one another from left to right. -/
theorem pairwise_piecesFrom (offset : Nat) (cs : List Char) :
    (piecesFrom offset cs).Pairwise fun piece other => piece.span.start < other.span.start :=
  (pairwise_disjoint_piecesFrom offset cs).imp_of_mem fun hpiece _ hle =>
    Nat.lt_of_lt_of_le (start_lt_stop_of_mem_piecesFrom offset cs _ hpiece) hle

theorem Piece.span_eq_of_fault? {piece : Piece} {span : Span} (h : piece.fault? = some span) :
    piece.span = span := by
  obtain ⟨_ | kind, text, place⟩ := piece
  · exact Option.some.inj h
  · cases h

theorem slice?_of_mem_pieces {source : String} {piece : Piece} (h : piece ∈ pieces source) :
    slice? piece.span source.toList = some piece.text.toList := by
  obtain ⟨before, after, hsource, hspan⟩ := exists_append_of_mem_piecesFrom 0 _ piece h
  rw [hspan, hsource, Nat.zero_add]
  exact slice?_append before piece.text.toList after

end Scan

/-- **Every token of a source has the text under its span**, the end of the query included. -/
theorem slice?_of_mem_scan {source : String} {token : Token} (h : token ∈ scan source) :
    slice? token.span source.toList = some token.text.toList := by
  rcases List.mem_append.1 h with h | h
  · obtain ⟨piece, hpiece, htoken⟩ := List.mem_filterMap.1 h
    obtain ⟨kind, -, rfl⟩ := Option.map_eq_some_iff.1 htoken
    exact Scan.slice?_of_mem_pieces hpiece
  · cases List.mem_singleton.1 h
    simpa [Token.endAt, Span.empty, endOf, byteLength] using slice?_append source.toList [] []

/-- **The faulty stretches of a source are listed from left to right.** -/
theorem pairwise_faultsOf (source : String) :
    (faultsOf source).Pairwise fun span other => span.start < other.start := by
  refine (Scan.pairwise_piecesFrom 0 source.toList).filterMap _ fun piece other hlt => ?_
  intro span hspan span' hspan'
  rwa [← Scan.Piece.span_eq_of_fault? hspan, ← Scan.Piece.span_eq_of_fault? hspan']

end PinQuery
