import PinQuery.Proofs.Text.Cut
import PinQuery.Proofs.Text.Order
import PinQuery.Proofs.Token.Words

/-!
# Scanning loses nothing and invents nothing

The tokens and the faults of a source, merged by where they start, are its pieces. They do not
overlap, and whatever lies between them is a separator.

* `stretches` are the spans of some tokens and faults, merged; for those of a source they are the
  spans of its pieces (`stretches_eq_map_span`).
* `Scan.mem_separatorBytes_of_outside`: a byte outside all pieces of a text is that of a separator.
* `IsTiling` says what it means that tokens and faults tile a source, and `scan_tiles_source` that
  those of the scanner do.
-/

namespace PinQuery

open Text

/-! ## Bytes -/

namespace Text

theorem length_flatMap_utf8EncodeChar (cs : List Char) :
    (cs.flatMap String.utf8EncodeChar).length = byteLength cs := by
  induction cs with
  | nil => rfl
  | cons c cs ih =>
    rw [List.flatMap_cons, List.length_append, ih, String.length_utf8EncodeChar, byteLength]

/-- The offset of the end of a source is the number of its bytes. -/
theorem length_bytes (source : String) : (bytes source).length = endOf source := by
  rw [bytes_eq_flatMap, length_flatMap_utf8EncodeChar, endOf]

end Text

/-- The bytes that may stand between tokens: space, tab, carriage return, line feed, form feed. -/
def separatorBytes : List UInt8 := [0x20, 0x09, 0x0D, 0x0A, 0x0C]

namespace Scan

/-- A separator is one byte. -/
theorem exists_separatorByte {c : Char} (h : isSeparator c = true) :
    ∃ byte ∈ separatorBytes, String.utf8EncodeChar c = [byte] := by
  simp only [isSeparator, Bool.or_eq_true, beq_iff_eq] at h
  rcases h with (((rfl | rfl) | rfl) | rfl) | rfl <;> exact ⟨_, by decide, rfl⟩

/-! ## Pieces of a text -/

/-- A byte outside all pieces of a text is that of a separator. -/
theorem mem_separatorBytes_of_outside (offset : Nat) (cs : List Char) : ∀ (i : Nat) (byte : UInt8),
    (cs.flatMap String.utf8EncodeChar)[i]? = some byte →
    (∀ piece ∈ piecesFrom offset cs,
      ¬(piece.span.start ≤ offset + i ∧ offset + i < piece.span.stop)) →
    byte ∈ separatorBytes := by
  induction offset, cs using piecesFrom.induct with
  | case1 => simp
  | case2 offset c cs hsep ih =>
    intro i byte hbyte houtside
    rw [piecesFrom, if_pos hsep] at houtside
    obtain ⟨separator, hmem, hcode⟩ := exists_separatorByte hsep
    have hsize : c.utf8Size = 1 := by rw [← String.length_utf8EncodeChar, hcode]; rfl
    rw [List.flatMap_cons, hcode, List.singleton_append] at hbyte
    cases i with
    | zero =>
      cases hbyte
      exact hmem
    | succ i =>
      refine ih i byte (by simpa using hbyte) ?_
      have hoffset : offset + c.utf8Size + i = offset + (i + 1) := by omega
      rwa [hoffset]
  | case3 offset c cs hsep kind more hlexeme taken stop ih =>
    intro i byte hbyte houtside
    rw [piecesFrom, if_neg hsep, hlexeme] at houtside
    obtain ⟨hhead, hrest⟩ := List.forall_mem_cons.1 houtside
    -- the byte lies behind the first piece, so it is one of the rest of the text
    have hbehind : byteLength taken ≤ i := by
      by_contra hlt
      exact hhead ⟨Nat.le_add_right _ _, Nat.add_lt_add_left (Nat.lt_of_not_le hlt) offset⟩
    have htext : c :: cs = taken ++ cs.drop more := by simp [taken]
    rw [htext, List.flatMap_append, List.getElem?_append_right
      (by rwa [length_flatMap_utf8EncodeChar]), length_flatMap_utf8EncodeChar] at hbyte
    refine ih _ byte hbyte ?_
    have hoffset : stop + (i - byteLength taken) = offset + i := by omega
    rwa [hoffset]

end Scan

/-! ## Tokens and faults together -/

/-- The spans of some tokens and faults, merged by where they start. -/
def stretches (tokens : List Token) (faults : List Span) : List Span :=
  (tokens.map Token.span).merge faults fun span other => span.start ≤ other.start

section

variable {token : Token} {tokens : List Token} {fault : Span} {faults : List Span}

theorem stretches_cons_token (h : ∀ fault ∈ faults, token.span.start < fault.start) :
    stretches (token :: tokens) faults = token.span :: stretches tokens faults := by
  cases faults with
  | nil => simp [stretches]
  | cons fault faults =>
    exact List.cons_merge_cons_pos _ _ _ (by simpa using (h fault (by simp)).le)

theorem stretches_cons_fault (h : ∀ token ∈ tokens, fault.start < token.span.start) :
    stretches tokens (fault :: faults) = fault :: stretches tokens faults := by
  cases tokens with
  | nil => simp [stretches]
  | cons token tokens =>
    exact List.cons_merge_cons_neg _ _ _ (by simpa using h token (by simp))

end

namespace Scan

theorem Piece.span_eq_of_token? {piece : Piece} {token : Token} (h : piece.token? = some token) :
    piece.span = token.span := by
  obtain ⟨kind, -, rfl⟩ := Option.map_eq_some_iff.1 h
  rfl

/-- Pieces from left to right are put together again from their tokens and faults. -/
theorem stretches_filterMap {pieces : List Piece}
    (h : pieces.Pairwise fun piece other => piece.span.start < other.span.start) :
    stretches (pieces.filterMap Piece.token?) (pieces.filterMap Piece.fault?) =
      pieces.map Piece.span := by
  induction pieces with
  | nil => simp [stretches]
  | cons piece pieces ih =>
    obtain ⟨hfirst, hrest⟩ := List.pairwise_cons.1 h
    rw [List.map_cons, ← ih hrest]
    obtain ⟨_ | kind, text, span⟩ := piece
    · simp only [List.filterMap_cons, Piece.token?, Piece.fault?, Option.map_none]
      refine stretches_cons_fault fun token htoken => ?_
      obtain ⟨other, hmem, hother⟩ := List.mem_filterMap.1 htoken
      rw [← Piece.span_eq_of_token? hother]
      exact hfirst other hmem
    · simp only [List.filterMap_cons, Piece.token?, Piece.fault?, Option.map_some]
      refine stretches_cons_token fun fault hfault => ?_
      obtain ⟨other, hmem, hother⟩ := List.mem_filterMap.1 hfault
      rw [← Piece.span_eq_of_fault? hother]
      exact hfirst other hmem

end Scan

theorem stretches_eq_map_span (source : String) :
    stretches (tokensOf source) (faultsOf source) = (Scan.pieces source).map Scan.Piece.span :=
  Scan.stretches_filterMap (Scan.pairwise_piecesFrom 0 source.toList)

/-! ## Tilings -/

/-- Tokens and faults tile a source. None of their spans is empty; each begins and ends between two
characters of the source and before its end; they do not overlap and are listed from left to right;
and every byte outside of them is that of a separator. -/
structure IsTiling (source : String) (tokens : List Token) (faults : List Span) : Prop where
  nonempty : ∀ span ∈ stretches tokens faults, span.start < span.stop
  boundaries : ∀ span ∈ stretches tokens faults,
    IsBoundary source.toList span.start ∧ IsBoundary source.toList span.stop
  inside : ∀ span ∈ stretches tokens faults, span.stop ≤ (bytes source).length
  disjoint : (stretches tokens faults).Pairwise fun span other => span.stop ≤ other.start
  tokens_increasing : tokens.Pairwise fun token other => token.span.stop ≤ other.span.start
  faults_increasing : faults.Pairwise fun fault other => fault.stop ≤ other.start
  gaps : ∀ (offset : Nat) (byte : UInt8), (bytes source)[offset]? = some byte →
    (∀ span ∈ stretches tokens faults, ¬(span.start ≤ offset ∧ offset < span.stop)) →
    byte ∈ separatorBytes

/-- The pieces of a source follow one another and tile it. -/
theorem isTiling_scan (source : String) : IsTiling source (tokensOf source) (faultsOf source) := by
  have hpieces := Scan.pairwise_disjoint_piecesFrom 0 source.toList
  have hstretches := stretches_eq_map_span source
  refine ⟨?_, ?_, ?_, ?_, ?_, ?_, ?_⟩
  · rw [hstretches, List.forall_mem_map]
    exact Scan.start_lt_stop_of_mem_piecesFrom 0 source.toList
  · rw [hstretches, List.forall_mem_map]
    intro piece hpiece
    obtain ⟨hstart, hstop, -, -⟩ := isBoundary_of_slice? (Scan.slice?_of_mem_pieces hpiece)
    exact ⟨hstart, hstop⟩
  · rw [hstretches, List.forall_mem_map, length_bytes]
    intro piece hpiece
    exact (isBoundary_of_slice? (Scan.slice?_of_mem_pieces hpiece)).2.2.2
  · rw [hstretches, List.pairwise_map]
    exact hpieces
  · refine hpieces.filterMap _ fun piece other hle => ?_
    intro token htoken token' htoken'
    rwa [← Scan.Piece.span_eq_of_token? htoken, ← Scan.Piece.span_eq_of_token? htoken']
  · refine hpieces.filterMap _ fun piece other hle => ?_
    intro fault hfault fault' hfault'
    rwa [← Scan.Piece.span_eq_of_fault? hfault, ← Scan.Piece.span_eq_of_fault? hfault']
  · intro offset byte hbyte houtside
    rw [bytes_eq_flatMap] at hbyte
    rw [hstretches, List.forall_mem_map] at houtside
    refine Scan.mem_separatorBytes_of_outside 0 source.toList offset byte hbyte ?_
    simp only [Nat.zero_add]
    exact houtside

/-- **Scanning loses nothing and invents nothing.** The tokens and the faults of a source tile it,
and the tokens are closed by the one end of the query, which is empty and stands behind the last
byte. -/
theorem scan_tiles_source (source : String) :
    IsTiling source (tokensOf source) (faultsOf source) ∧
      scan source = tokensOf source ++
        [⟨.endOfQuery, "", ⟨(bytes source).length, (bytes source).length⟩⟩] ∧
      ∀ token ∈ tokensOf source, token.kind ≠ .endOfQuery := by
  refine ⟨isTiling_scan source, ?_, fun token htoken => ?_⟩
  · rw [length_bytes]
    rfl
  · exact (isLexeme_of_mem_tokensOf htoken).ne_endOfQuery

/-- A number and a stray point, a character of two bytes, a backtick that is not closed on its line,
and a name. -/
example : stretches (tokensOf "1. µ`a\nb") (faultsOf "1. µ`a\nb") =
    [⟨0, 1⟩, ⟨1, 2⟩, ⟨3, 5⟩, ⟨5, 7⟩, ⟨8, 9⟩] := by
  rw [stretches_eq_map_span]
  decide +kernel

end PinQuery
