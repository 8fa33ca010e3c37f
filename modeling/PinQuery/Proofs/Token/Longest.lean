import PinQuery.Proofs.Token.Coverage
import PinQuery.Proofs.Token.Rules

/-!
# Every token is the longest match

The scanner goes through a source from left to right. Where it has come to, it skips a separator,
takes the longest match of the lexical rules, or reports a fault if no rule has a text there.

* `Reached source offset`: the scanner looks for a piece at this offset. No offset inside a piece is
  reached (`Reached.outside`).
* `Scan.exists_isTakenAt`: every piece is what the scanner makes of an offset that it has
  reached, and `Scan.exists_covering`: no character but a separator is outside all pieces.
* `scan_takes_longest_match`: tokens and faults of a source against the rules.
-/

namespace PinQuery

open Text

/-- The offsets where the scanner looks for the next piece: the start, the ends of tokens and
faults, and behind a separator at such an offset. -/
inductive Reached (source : String) : Nat → Prop
  | start : Reached source 0
  | token {token : Token} (h : token ∈ tokensOf source) : Reached source token.span.stop
  | fault {span : Span} (h : span ∈ faultsOf source) : Reached source span.stop
  | gap {before rest : List Char} {c : Char} (h : Reached source (byteLength before))
      (hsource : source.toList = before ++ c :: rest) (hc : Scan.isSeparator c = true) :
      Reached source (byteLength (before ++ [c]))

theorem Text.append_cancel_of_byteLength {before before' rest rest' : List Char}
    (h : before ++ rest = before' ++ rest') (hlength : byteLength before = byteLength before') :
    before = before' ∧ rest = rest' := by
  have hbefore : before = before' := by
    rw [← takeBytes_byteLength_append before rest, h, hlength, takeBytes_byteLength_append]
  rw [hbefore] at h
  exact ⟨hbefore, List.append_cancel_left h⟩

namespace Scan

/-- The end of a piece is reached, whether it is a token or a fault. -/
theorem reached_stop {source : String} {piece : Piece} (h : piece ∈ pieces source) :
    Reached source piece.span.stop := by
  obtain ⟨_ | kind, text, span⟩ := piece
  · exact .fault (List.mem_filterMap.2 ⟨_, h, rfl⟩)
  · exact .token (List.mem_filterMap.2 ⟨_, h, rfl⟩)

/-- A piece is what the scanner makes of the text from an offset on that it has reached. -/
structure IsTakenAt (source : String) (piece : Piece) (before : List Char) (c : Char)
    (tail rest : List Char) : Prop where
  source_eq : source.toList = before ++ c :: (tail ++ rest)
  text_eq : piece.text.toList = c :: tail
  span_eq : piece.span = ⟨byteLength before, byteLength before + byteLength (c :: tail)⟩
  isSeparator : Scan.isSeparator c = false
  lexeme_eq : lexeme c (tail ++ rest) = (piece.kind, tail.length)
  reached : Reached source (byteLength before)

theorem exists_isTakenAt_of_mem_piecesFrom {source : String} (before cs : List Char)
    (hsource : source.toList = before ++ cs) (hreached : Reached source (byteLength before))
    (hpieces : ∀ piece ∈ piecesFrom (byteLength before) cs, piece ∈ pieces source) :
    ∀ piece ∈ piecesFrom (byteLength before) cs, ∃ before c tail rest,
      IsTakenAt source piece before c tail rest := by
  generalize hoffset : byteLength before = offset at hpieces ⊢
  induction offset, cs using piecesFrom.induct generalizing before with
  | case1 => simp [piecesFrom]
  | case2 offset c cs hsep ih =>
    rw [piecesFrom, if_pos hsep] at hpieces ⊢
    refine ih (before ++ [c]) (by simp [hsource]) (.gap hreached hsource hsep) ?_ hpieces
    simp [byteLength, hoffset]
  | case3 offset c cs hsep kind more hlexeme taken stop ih =>
    have hmore : more ≤ cs.length := by simpa [hlexeme] using snd_lexeme_le c cs
    rw [piecesFrom, if_neg hsep, hlexeme] at hpieces ⊢
    obtain ⟨hfirst, hrest⟩ := List.forall_mem_cons.1 hpieces
    refine List.forall_mem_cons.2 ⟨⟨before, c, cs.take more, cs.drop more, ?_⟩, ?_⟩
    · refine ⟨by simp [hsource], by simp, by simp [hoffset], by simpa using hsep, ?_, hreached⟩
      simp [hlexeme, hmore]
    · have hstop : byteLength (before ++ taken) = stop := by simp [stop, hoffset]
      refine ih (before ++ taken) (by simp [hsource, taken]) ?_ hstop hrest
      rw [hstop]
      exact reached_stop hfirst

theorem exists_isTakenAt {source : String} {piece : Piece} (h : piece ∈ pieces source) :
    ∃ before c tail rest, IsTakenAt source piece before c tail rest :=
  exists_isTakenAt_of_mem_piecesFrom [] source.toList rfl .start (fun _ => id) piece h

/-- Every character but a separator belongs to a piece. -/
theorem exists_covering (offset : Nat) (cs : List Char) :
    ∀ before c rest, cs = before ++ c :: rest → isSeparator c = false →
      ∃ piece ∈ piecesFrom offset cs, piece.span.start ≤ offset + byteLength before ∧
        offset + byteLength before < piece.span.stop := by
  induction offset, cs using piecesFrom.induct with
  | case1 => simp
  | case2 offset d cs hsep ih =>
    intro before c rest hcs hc
    rw [piecesFrom, if_pos hsep]
    cases before with
    | nil =>
      cases hcs
      rw [hsep] at hc
      cases hc
    | cons _ before =>
      cases hcs
      obtain ⟨piece, hpiece, hstart, hstop⟩ := ih before c rest rfl hc
      rw [byteLength, ← Nat.add_assoc]
      exact ⟨piece, hpiece, hstart, hstop⟩
  | case3 offset d cs hsep kind more hlexeme taken stop ih =>
    intro before c rest hcs hc
    rw [piecesFrom, if_neg hsep, hlexeme]
    have hcut : taken ++ cs.drop more = before ++ c :: rest := by simp [taken, ← hcs]
    rcases List.append_eq_append_iff.1 hcut with ⟨between, rfl, hrest⟩ | ⟨inside, htaken, hrest⟩
    · obtain ⟨piece, hpiece, hstart, hstop⟩ := ih between c rest hrest hc
      refine ⟨piece, List.mem_cons_of_mem _ hpiece, ?_⟩
      rw [byteLength_append, ← Nat.add_assoc]
      exact ⟨hstart, hstop⟩
    · cases inside with
      | nil =>
        rw [List.append_nil] at htaken
        obtain ⟨piece, hpiece, hstart, hstop⟩ := ih [] c rest hrest.symm hc
        refine ⟨piece, List.mem_cons_of_mem _ hpiece, ?_⟩
        rw [← htaken]
        exact ⟨hstart, hstop⟩
      | cons _ inside =>
        obtain ⟨rfl, -⟩ := List.cons.inj hrest
        refine ⟨_, List.mem_cons_self, Nat.le_add_right _ _, ?_⟩
        have hsize := c.utf8Size_pos
        have hlength := congrArg byteLength htaken
        simp only [byteLength_append, byteLength] at hlength
        change offset + byteLength before < offset + byteLength taken
        omega

/-- No piece ends inside another. -/
theorem stop_outside {source : String} {piece other : Piece} (h : piece ∈ pieces source)
    (hother : other ∈ pieces source) :
    ¬(other.span.start < piece.span.stop ∧ piece.span.stop < other.span.stop) := by
  have hfilled := start_lt_stop_of_mem_piecesFrom 0 source.toList
  have hdisjoint := pairwise_disjoint_piecesFrom 0 source.toList
  refine List.Pairwise.forall_of_forall_of_flip (R := fun piece other : Piece =>
    ¬(other.span.start < piece.span.stop ∧ piece.span.stop < other.span.stop)) ?_ ?_ ?_ h hother
  · intro piece _
    omega
  · exact hdisjoint.imp fun hle => by omega
  · refine hdisjoint.imp_of_mem fun {piece other} hpiece hother hle => ?_
    have := hfilled other hother
    change ¬(piece.span.start < other.span.stop ∧ other.span.stop < piece.span.stop)
    omega

end Scan

theorem Reached.outside {source : String} {offset : Nat} (h : Reached source offset) :
    ∀ piece ∈ Scan.pieces source, ¬(piece.span.start < offset ∧ offset < piece.span.stop) := by
  induction h with
  | start =>
    intro piece _
    omega
  | token h =>
    intro other hother
    obtain ⟨piece, hpiece, htoken⟩ := List.mem_filterMap.1 h
    rw [← Scan.Piece.span_eq_of_token? htoken]
    exact Scan.stop_outside hpiece hother
  | fault h =>
    intro other hother
    obtain ⟨piece, hpiece, hfault⟩ := List.mem_filterMap.1 h
    rw [← Scan.Piece.span_eq_of_fault? hfault]
    exact Scan.stop_outside hpiece hother
  | @gap before rest c hreached hsource hc ih =>
    intro piece hpiece ⟨hstart, hstop⟩
    have hsize : c.utf8Size = 1 := by
      obtain ⟨byte, -, hcode⟩ := Scan.exists_separatorByte hc
      rw [← String.length_utf8EncodeChar, hcode]
      rfl
    simp only [byteLength_append, byteLength, hsize] at hstart hstop
    -- The piece cannot begin before the separator, and it cannot begin with it.
    have hbegin : piece.span.start = byteLength before := by
      have hbefore := ih piece hpiece
      omega
    obtain ⟨before', d, tail, rest', htaken⟩ := Scan.exists_isTakenAt hpiece
    rw [htaken.span_eq] at hbegin
    have hcut := hsource.symm.trans htaken.source_eq
    obtain ⟨-, hcons⟩ := append_cancel_of_byteLength hcut hbegin.symm
    have hd := htaken.isSeparator
    rw [← (List.cons.inj hcons).1, hc] at hd
    cases hd

/-- Where the scanner has come to and no separator stands, it takes a piece. -/
theorem Reached.exists_isTakenAt {source : String} {before rest : List Char} {c : Char}
    (h : Reached source (byteLength before)) (hsource : source.toList = before ++ c :: rest)
    (hc : Scan.isSeparator c = false) : ∃ piece ∈ Scan.pieces source, ∃ tail rest',
      rest = tail ++ rest' ∧ Scan.IsTakenAt source piece before c tail rest' := by
  obtain ⟨piece, hpiece, hstart, hstop⟩ :=
    Scan.exists_covering 0 source.toList before c rest hsource hc
  have houtside := h.outside piece hpiece
  obtain ⟨before', d, tail, rest', htaken⟩ := Scan.exists_isTakenAt hpiece
  have hbegin : byteLength before = byteLength before' := by
    rw [htaken.span_eq] at hstart hstop houtside
    simp only [Nat.zero_add] at hstart hstop houtside
    omega
  have hcut := hsource.symm.trans htaken.source_eq
  obtain ⟨rfl, hcons⟩ := append_cancel_of_byteLength hcut hbegin
  obtain ⟨rfl, rfl⟩ := List.cons.inj hcons
  exact ⟨piece, hpiece, tail, rest', rfl, htaken⟩

/-! ## Tokens and faults against the rules -/

/-- A token is the longest match where it stands. -/
theorem isLongestMatch_of_mem_tokensOf {source : String} {token : Token}
    (h : token ∈ tokensOf source) : ∃ before rest,
      source.toList = before ++ (token.text.toList ++ rest) ∧
      token.span = ⟨byteLength before, byteLength before + byteLength token.text.toList⟩ ∧
      IsLongestMatch token.kind token.text.toList rest := by
  obtain ⟨piece, hpiece, htoken⟩ := List.mem_filterMap.1 h
  obtain ⟨kind, hkind, rfl⟩ := Option.map_eq_some_iff.1 htoken
  obtain ⟨before, c, tail, rest, htaken⟩ := Scan.exists_isTakenAt hpiece
  have hlexeme := htaken.lexeme_eq
  rw [hkind] at hlexeme
  refine ⟨before, rest, ?_⟩
  simp only [htaken.text_eq]
  exact ⟨htaken.source_eq, htaken.span_eq, Scan.lexeme_eq_some_iff.1 hlexeme⟩

/-- The places where a fault begins: they are reached, no separator stands there, and no rule has a
text there. -/
theorem exists_fault_iff (source : String) (offset : Nat) :
    (∃ fault ∈ faultsOf source, fault.start = offset) ↔
      ∃ before c rest, source.toList = before ++ c :: rest ∧ byteLength before = offset ∧
        Reached source offset ∧ Scan.isSeparator c = false ∧
        ∀ (rule : Rule), ∀ text ∈ rule.language, ¬text <+: c :: rest := by
  constructor
  · rintro ⟨fault, hfault, rfl⟩
    obtain ⟨⟨_ | kind, text, span⟩, hpiece, hspan⟩ := List.mem_filterMap.1 hfault
    · cases hspan
      obtain ⟨before, c, tail, rest, htaken⟩ := Scan.exists_isTakenAt hpiece
      obtain rfl := htaken.span_eq
      have hnone : (Scan.lexeme c (tail ++ rest)).1 = none := by rw [htaken.lexeme_eq]
      exact ⟨before, c, tail ++ rest, htaken.source_eq, rfl, htaken.reached, htaken.isSeparator,
        Scan.lexeme_eq_none_iff.1 hnone⟩
    · cases hspan
  · rintro ⟨before, c, rest, hsource, rfl, hreached, hc, hrules⟩
    obtain ⟨piece, hpiece, tail, rest', rfl, htaken⟩ := hreached.exists_isTakenAt hsource hc
    have hnone : piece.kind = none := by
      rw [← Scan.lexeme_eq_none_iff.2 hrules, htaken.lexeme_eq]
    refine ⟨piece.span, List.mem_filterMap.2 ⟨piece, hpiece, ?_⟩, ?_⟩
    · rw [Scan.Piece.fault?, hnone]
    · rw [htaken.span_eq]

/-- A longest match is one also where less follows. -/
theorem IsLongestMatch.of_append {kind : Kind} {text rest more : List Char}
    (h : IsLongestMatch kind text (rest ++ more)) : IsLongestMatch kind text rest := by
  refine ⟨h.mem, fun rule longer hlonger hstarts => h.longest rule longer hlonger ?_, h.keyword⟩
  rw [← List.append_assoc]
  exact hstarts.trans (List.prefix_append _ more)

theorem IsLongestMatch.alone {kind : Kind} {text rest : List Char}
    (h : IsLongestMatch kind text rest) : IsLongestMatch kind text [] :=
  have h : IsLongestMatch kind text ([] ++ rest) := h
  h.of_append

/-- Alone, a longest match is one piece. -/
theorem IsLongestMatch.pieces_eq {kind : Kind} {text : String}
    (h : IsLongestMatch kind text.toList []) :
    Scan.pieces text = [⟨some kind, text, ⟨0, endOf text⟩⟩] := by
  obtain ⟨c, tail, htext⟩ := List.exists_cons_of_ne_nil (Rule.ne_nil_of_mem h.mem)
  rw [htext] at h
  have hsep : Scan.isSeparator c = false :=
    (Scan.exists_lexeme_of_mem_language h.mem List.prefix_rfl).1
  have hlexeme := Scan.lexeme_eq_some_iff.2 h
  rw [List.append_nil] at hlexeme
  have htaken : String.ofList (c :: tail) = text := by rw [← htext, String.ofList_toList]
  rw [Scan.pieces, htext, Scan.piecesFrom, if_neg (by simp [hsep])]
  simp only [hlexeme, List.take_length, List.drop_length, Scan.piecesFrom, Nat.zero_add, htaken,
    endOf, htext]

/-- **Every token is the longest match of its rule.** The text of a token is one of the rule of its
kind, no rule has a longer text where the token starts, and a word is a keyword if it spells it in
any mixture of cases. Faults start exactly where the scanner has come to, no separator stands and no
rule has a text. So a token's own text is scanned as that one token. -/
theorem scan_takes_longest_match (source : String) :
    (∀ token ∈ tokensOf source,
      (∃ before rest, source.toList = before ++ (token.text.toList ++ rest) ∧
        token.span = ⟨byteLength before, byteLength before + byteLength token.text.toList⟩ ∧
        IsLongestMatch token.kind token.text.toList rest) ∧
      scan token.text =
        [⟨token.kind, token.text, ⟨0, endOf token.text⟩⟩, .endAt (endOf token.text)] ∧
      faultsOf token.text = []) ∧
    ∀ offset, (∃ fault ∈ faultsOf source, fault.start = offset) ↔
      ∃ before c rest, source.toList = before ++ c :: rest ∧ byteLength before = offset ∧
        Reached source offset ∧ Scan.isSeparator c = false ∧
        ∀ (rule : Rule), ∀ text ∈ rule.language, ¬text <+: c :: rest := by
  refine ⟨fun token htoken => ?_, exists_fault_iff source⟩
  have hplace := isLongestMatch_of_mem_tokensOf htoken
  refine ⟨hplace, ?_⟩
  obtain ⟨before, rest, -, -, hmatch⟩ := hplace
  have hpieces := hmatch.alone.pieces_eq
  simp [scan, tokensOf, faultsOf, hpieces, Scan.Piece.token?, Scan.Piece.fault?]

/-- An exponent without digits, a point without digits, and a backtick that is not closed. -/
example : (tokensOf "1.5e+x <=> 1.`").map Token.word =
      [⟨.number, ['1', '.', '5']⟩, ⟨.name, ['e']⟩, ⟨.plus, ['+']⟩, ⟨.name, ['x']⟩,
        ⟨.lessEqual, ['<', '=']⟩, ⟨.greater, ['>']⟩, ⟨.number, ['1']⟩] ∧
    faultsOf "1.5e+x <=> 1.`" = [⟨12, 13⟩, ⟨13, 14⟩] := by
  decide +kernel

end PinQuery
