import PinQuery.Proofs.Query.Faithful
import PinQuery.Proofs.Query.Layout
import PinQuery.Proofs.Query.Shape

/-!
# The numbers of a query

Each number of a query is spelled by tokens of its own, and any other number can stand there. The rest
of the query is then read as before.

* `Query.literals` are the numbers of a query, `Query.put` is the query with another value for the
  number at a place. No two numbers stand at one place (`nodup_literals_of_parse`).
* `Admits`: among some tokens stands a number, and any other can stand for it.
* `Spells.admits`, `SpellsDraft.admits`: this holds for each number of a condition and of the clauses.
* `exists_place_of_literal`: the same for a source and its text.
-/

namespace PinQuery

/-! ## Numbers and their places -/

/-- The numbers in a condition, from left to right. -/
def Expr.literals : Expr → List Literal
  | .column _ => []
  | .literal number => [number]
  | .comparison _ left right _ => left.literals ++ right.literals
  | .logical _ left right _ => left.literals ++ right.literals
  | .negation inner _ => inner.literals

/-- The numbers of a query, from left to right. -/
def Query.literals (query : Query) : List Literal :=
  query.condition.elim [] Expr.literals ++ (query.sleep.toList ++ query.speed.toList)

/-- The number with another value, if it stands at a given place. -/
def Literal.put (span : Span) (value : Number) (literal : Literal) : Literal :=
  if literal.span = span then ⟨value, span⟩ else literal

/-- The condition with another value for the number at a place. -/
def Expr.put (span : Span) (value : Number) : Expr → Expr
  | .column name => .column name
  | .literal number => .literal (number.put span value)
  | .comparison op left right whole =>
    .comparison op (left.put span value) (right.put span value) whole
  | .logical op left right whole => .logical op (left.put span value) (right.put span value) whole
  | .negation inner whole => .negation (inner.put span value) whole

/-- The query with another value for the number at a place. -/
def Query.put (span : Span) (value : Number) (query : Query) : Query :=
  { query with
    condition := query.condition.map (Expr.put span value)
    sleep := query.sleep.map (Literal.put span value)
    speed := query.speed.map (Literal.put span value) }

section

variable {span : Span} {value : Number}

theorem Literal.put_self (literal : Literal) : literal.put literal.span value = ⟨value, literal.span⟩ :=
  if_pos rfl

theorem Literal.put_of_ne {literal : Literal} (h : literal.span ≠ span) :
    literal.put span value = literal :=
  if_neg h

/-- Nothing changes where no number stands. -/
theorem Expr.put_of_not_mem {e : Expr} (h : span ∉ e.literals.map Literal.span) :
    e.put span value = e := by
  induction e with
  | column name => rfl
  | literal number =>
    rw [put, Literal.put_of_ne]
    rintro rfl
    exact h (by simp [literals])
  | comparison op left right whole ihleft ihright | logical op left right whole ihleft ihright =>
    rw [literals, List.map_append, List.mem_append, not_or] at h
    rw [put, ihleft h.1, ihright h.2]
  | negation inner whole ih => rw [put, ih h]

theorem Literal.map_put_of_not_mem {setting : Option Literal}
    (h : span ∉ setting.toList.map Literal.span) : setting.map (Literal.put span value) = setting := by
  cases setting with
  | none => rfl
  | some literal =>
    rw [Option.map_some, put_of_ne]
    rintro rfl
    simp at h

theorem Expr.map_put_of_not_mem {condition : Option Expr}
    (h : span ∉ (condition.elim [] Expr.literals).map Literal.span) :
    condition.map (Expr.put span value) = condition := by
  cases condition with
  | none => rfl
  | some e => rw [Option.map_some, put_of_not_mem h]

end

/-! ## No two numbers stand at one place -/

/-- In a nested condition the numbers lie inside it. -/
theorem Expr.Nested.within {e : Expr} (h : e.Nested) :
    ∀ literal ∈ e.literals, literal.span.Within e.span := by
  have htrans {inner middle outer : Span} (h : inner.Within middle) (h' : middle.Within outer) :
      inner.Within outer := ⟨h'.1.trans h.1, h.2.trans h'.2⟩
  induction e with
  | column name => simp [literals]
  | literal number => simpa [literals] using ⟨le_rfl, le_rfl⟩
  | comparison op left right span ihleft ihright | logical op left right span ihleft ihright =>
    obtain ⟨⟨hleft, hright, -⟩, hnested, hnested'⟩ := h
    intro literal hliteral
    rcases List.mem_append.1 hliteral with hliteral | hliteral
    · exact htrans (ihleft hnested literal hliteral) hleft
    · exact htrans (ihright hnested' literal hliteral) hright
  | negation inner span ih => exact fun literal hliteral => htrans (ih h.2 literal hliteral) h.1

/-- In a nested condition each number ends before the next one starts. -/
theorem Expr.Nested.pairwise {e : Expr} (h : e.Nested) :
    (e.literals.map Literal.span).Pairwise fun span other => span.stop < other.start := by
  induction e with
  | column name => simp [literals]
  | literal number => simp [literals]
  | comparison op left right span ihleft ihright | logical op left right span ihleft ihright =>
    obtain ⟨⟨-, -, hlt⟩, hleft, hright⟩ := h
    rw [literals, List.map_append]
    refine List.pairwise_append.2 ⟨ihleft hleft, ihright hright, ?_⟩
    simp only [List.forall_mem_map]
    intro literal hliteral other hother
    exact ((hleft.within literal hliteral).2.trans_lt hlt).trans_le (hright.within other hother).1
  | negation inner span ih => exact ih h.2

theorem Expr.span_mem_spans_of_literal {e : Expr} {literal : Literal} (h : literal ∈ e.literals) :
    literal.span ∈ e.spans := by
  induction e with
  | column name => simp [literals] at h
  | literal number => simpa [spans] using congrArg Literal.span (List.mem_singleton.1 h)
  | comparison op left right span ihleft ihright | logical op left right span ihleft ihright =>
    rw [spans, List.mem_cons, List.mem_append]
    exact .inr ((List.mem_append.1 h).imp ihleft ihright)
  | negation inner span ih => exact List.mem_cons_of_mem span (ih h)

section

variable {source : String} {query : Query}

theorem Query.span_mem_spans_of_literal {literal : Literal} (h : literal ∈ query.literals) :
    literal.span ∈ query.spans := by
  refine List.mem_cons_of_mem _ (List.mem_append_right _ (List.mem_cons_of_mem _ ?_))
  rw [List.mem_append, List.mem_append]
  rcases List.mem_append.1 h with h | h
  · refine .inl ?_
    cases hcondition : query.condition with
    | none => simp [hcondition] at h
    | some e =>
      rw [hcondition] at h
      exact Expr.span_mem_spans_of_literal h
  · refine .inr ((List.mem_append.1 h).imp (fun h => ?_) fun h => ?_) <;>
      simp [Option.mem_toList.1 h]

/-- Each number of a query ends before the next one starts. -/
theorem pairwise_literals_of_parse (h : Query.parse source = .ok query) :
    (query.literals.map Literal.span).Pairwise fun span other => span.stop < other.start := by
  have hnested := nested_of_parse h
  obtain ⟨draft, -, -, hparts, -⟩ := exists_hasClauses_of_parse h
  obtain ⟨-, hparts, -⟩ := List.pairwise_append.1 hparts
  obtain ⟨-, hparts, -⟩ := List.pairwise_append.1 hparts
  obtain ⟨-, hsettings, hbefore⟩ := List.pairwise_append.1 hparts
  rw [Query.literals, List.map_append, List.map_append]
  cases hcondition : query.condition with
  | none => exact hsettings
  | some e =>
    have hinside := hnested e hcondition
    refine List.pairwise_append.2 ⟨hinside.pairwise, hsettings, ?_⟩
    simp only [List.forall_mem_map]
    intro literal hliteral other hother
    rw [hcondition] at hbefore
    have hlt := hbefore e.span (by simp) other hother
    exact (hinside.within literal hliteral).2.trans_lt hlt

/-- **No two numbers of a query stand at one place.** -/
theorem nodup_literals_of_parse (h : Query.parse source = .ok query) :
    (query.literals.map Literal.span).Nodup := by
  have hlies := lies_of_parse h
  refine (pairwise_literals_of_parse h).imp_of_mem fun {span other} hspan _ hlt heq => ?_
  obtain ⟨literal, hliteral, rfl⟩ := List.mem_map.1 hspan
  have hordered := (hlies _ (Query.span_mem_spans_of_literal hliteral)).ordered
  rw [← heq] at hlt
  omega

end

/-! ## Another number among the same tokens -/

/-- Among some tokens stands a number, and with any other number there the tokens spell what the
first relation says, and it becomes what the second says. -/
def Admits {α : Type} (spells : List Token → α → Prop) (becomes : Number → α → Prop)
    (tokens : List Token) (literal : Literal) : Prop :=
  ∃ front part back, tokens = front ++ (part ++ back) ∧ SpellsNumber part literal ∧
    ∀ part' literal', SpellsNumber part' literal' →
      ∃ a, spells (front ++ (part' ++ back)) a ∧ becomes literal'.value a

/-- The tokens of a phrase stand among others, which stay as they are. -/
theorem Admits.frame {α β : Type} {S : List Token → α → Prop} {B : Number → α → Prop}
    {T : List Token → β → Prop} {C : Number → β → Prop} {tokens : List Token} {literal : Literal}
    (h : Admits S B tokens literal) (lead trail : List Token)
    (hframe : ∀ tokens value a, S tokens a → B value a →
      ∃ b, T (lead ++ (tokens ++ trail)) b ∧ C value b) :
    Admits T C (lead ++ (tokens ++ trail)) literal := by
  obtain ⟨front, part, back, rfl, hpart, hother⟩ := h
  refine ⟨lead ++ front, part, back ++ trail, by simp, hpart, fun part' literal' hpart' => ?_⟩
  obtain ⟨a, ha, hbecomes⟩ := hother part' literal' hpart'
  obtain ⟨b, hb, hbecomes'⟩ := hframe _ _ a ha hbecomes
  exact ⟨b, by simpa using hb, hbecomes'⟩

/-- Up to places and quoting, a condition becomes another by another value for one of its numbers. -/
def Expr.Becomes (e : Expr) (span : Span) (value : Number) (e' : Expr) : Prop :=
  e'.bare = (e.put span value).bare

/-- The same for the condition of a query, if it has one. -/
def ConditionBecomes (condition : Option Expr) (span : Span) (value : Number)
    (condition' : Option Expr) : Prop :=
  condition'.map Expr.bare = (condition.map (Expr.put span value)).map Expr.bare

/-- The same for the number of a clause, if it has one. -/
def SettingBecomes (setting : Option Literal) (span : Span) (value : Number)
    (setting' : Option Literal) : Prop :=
  setting'.map Literal.bare = (setting.map (Literal.put span value)).map Literal.bare

/-- The same for a whole query. -/
def Query.Becomes (query : Query) (span : Span) (value : Number) (query' : Query) : Prop :=
  query'.bare = (query.put span value).bare

/-- The same for the clauses of a query, wherever it ends. -/
def Draft.Becomes (draft : Draft) (span : Span) (value : Number) (draft' : Draft) : Prop :=
  ∀ stop stop', (draft.query stop).Becomes span value (draft'.query stop')

theorem ConditionBecomes.refl {condition : Option Expr} {span : Span}
    (h : span ∉ (condition.elim [] Expr.literals).map Literal.span) (value : Number) :
    ConditionBecomes condition span value condition := by
  rw [ConditionBecomes, Expr.map_put_of_not_mem h]

theorem SettingBecomes.refl {setting : Option Literal} {span : Span}
    (h : span ∉ setting.toList.map Literal.span) (value : Number) :
    SettingBecomes setting span value setting := by
  rw [SettingBecomes, Literal.map_put_of_not_mem h]

/-- The clauses become others one by one. -/
theorem Draft.becomes_of_clauses {start : Nat} {columns : List Name} {target : TargetName}
    {condition condition' : Option Expr} {sleep sleep' speed speed' : Option Literal} {span : Span}
    {value : Number} (hcondition : ConditionBecomes condition span value condition')
    (hsleep : SettingBecomes sleep span value sleep')
    (hspeed : SettingBecomes speed span value speed') :
    Draft.Becomes ⟨start, columns, target, condition, sleep, speed⟩ span value
      ⟨start, columns, target, condition', sleep', speed'⟩ := by
  intro stop stop'
  rw [ConditionBecomes] at hcondition
  rw [SettingBecomes] at hsleep hspeed
  simp only [Query.Becomes, Query.bare, Query.put, Draft.query, hcondition, hsleep, hspeed]

section

variable {tokens : List Token} {literal : Literal}

theorem SpellsOperand.admits {e : Expr} (h : SpellsOperand tokens e) (hmem : literal ∈ e.literals) :
    Admits SpellsOperand (e.Becomes literal.span) tokens literal := by
  cases h with
  | name hname => cases hmem
  | number h =>
    obtain rfl := List.mem_singleton.1 hmem
    refine ⟨[], tokens, [], by simp, h, fun part' literal' hpart' => ?_⟩
    refine ⟨.literal literal', by simpa using SpellsOperand.number hpart', ?_⟩
    rw [Expr.Becomes, Expr.put, Literal.put_self]
    rfl

/-- The nodes of two operands, for both kinds of which forgetting places and putting a number go on
to the operands. -/
structure IsBinaryNode (node : Expr → Expr → Span → Expr) : Prop where
  literals : ∀ left right span, (node left right span).literals = left.literals ++ right.literals
  bare : ∀ left right span, (node left right span).bare = node left.bare right.bare (.empty 0)
  put : ∀ left right span place value, (node left right span).put place value =
    node (left.put place value) (right.put place value) span

theorem isBinaryNode_logical (op : Connective) : IsBinaryNode (.logical op) :=
  ⟨fun _ _ _ => rfl, fun _ _ _ => rfl, fun _ _ _ _ _ => rfl⟩

theorem isBinaryNode_comparison (op : Comparison) : IsBinaryNode (.comparison op) :=
  ⟨fun _ _ _ => rfl, fun _ _ _ => rfl, fun _ _ _ _ _ => rfl⟩

/-- A number in one operand of a node is in no other. -/
theorem IsBinaryNode.admits {node : Expr → Expr → Span → Expr} (hnode : IsBinaryNode node)
    {spellsLeft spellsRight spells : List Token → Expr → Prop} {lefts rights : List Token}
    {left right : Expr} {token : Token} (hleft : spellsLeft lefts left)
    (hright : spellsRight rights right)
    (hspells : ∀ lefts left rights right, spellsLeft lefts left → spellsRight rights right →
      spells (lefts ++ token :: rights) (node left right (left.span.cover right.span)))
    (ihleft : literal ∈ left.literals → (left.literals.map Literal.span).Nodup →
      Admits spellsLeft (left.Becomes literal.span) lefts literal)
    (ihright : literal ∈ right.literals → (right.literals.map Literal.span).Nodup →
      Admits spellsRight (right.Becomes literal.span) rights literal) {span : Span}
    (hmem : literal ∈ (node left right span).literals)
    (hnodup : ((node left right span).literals.map Literal.span).Nodup) :
    Admits spells ((node left right span).Becomes literal.span) (lefts ++ token :: rights)
      literal := by
  rw [hnode.literals] at hmem hnodup
  rw [List.map_append] at hnodup
  obtain ⟨hnodupLeft, hnodupRight, hdisjoint⟩ := List.nodup_append'.1 hnodup
  rcases List.mem_append.1 hmem with hmem | hmem
  · have hplace := List.mem_map_of_mem (f := Literal.span) hmem
    refine (ihleft hmem hnodupLeft).frame [] (token :: rights) fun tokens value left' h hleft' => ?_
    refine ⟨_, hspells tokens left' rights right h hright, ?_⟩
    rw [Expr.Becomes, hnode.put, hnode.bare, hnode.bare, hleft',
      Expr.put_of_not_mem fun h => hdisjoint hplace h]
  · have hplace := List.mem_map_of_mem (f := Literal.span) hmem
    have hadmits := (ihright hmem hnodupRight).frame (T := spells)
      (C := (node left right span).Becomes literal.span) (lefts ++ [token]) []
      fun tokens value right' h hright' => by
        refine ⟨_, by simpa using hspells lefts left tokens right' hleft h, ?_⟩
        rw [Expr.Becomes, hnode.put, hnode.bare, hnode.bare, hright',
          Expr.put_of_not_mem fun h => hdisjoint h hplace]
    simpa using hadmits

/-- **Any number can stand for a number of a condition.** -/
theorem Spells.admits {level : Level} {e : Expr} (h : Spells level tokens e)
    (hmem : literal ∈ e.literals) (hnodup : (e.literals.map Literal.span).Nodup) :
    Admits (Spells level) (e.Becomes literal.span) tokens literal := by
  induction h with
  | conjunction _ ih =>
    have hadmits := (ih hmem hnodup).frame [] [] fun tokens value e' h hbecomes =>
      ⟨e', by simpa using Spells.conjunction h, hbecomes⟩
    simpa using hadmits
  | factor _ ih =>
    have hadmits := (ih hmem hnodup).frame [] [] fun tokens value e' h hbecomes =>
      ⟨e', by simpa using Spells.factor h, hbecomes⟩
    simpa using hadmits
  | or hleft hkind hright ihleft ihright =>
    exact (isBinaryNode_logical .or).admits hleft hright
      (fun _ _ _ _ hleft hright => .or hleft hkind hright) ihleft ihright hmem hnodup
  | and hleft hkind hright ihleft ihright =>
    exact (isBinaryNode_logical .and).admits hleft hright
      (fun _ _ _ _ hleft hright => .and hleft hkind hright) ihleft ihright hmem hnodup
  | @not token tokens e hkind _ ih =>
    have hadmits := (ih hmem hnodup).frame (T := Spells .factor)
      (C := (Expr.negation e ⟨token.span.start, lastStop tokens⟩).Becomes literal.span)
      [token] [] fun tokens value e' h hbecomes => by
        refine ⟨_, by simpa using Spells.not hkind h, ?_⟩
        rw [Expr.Becomes, Expr.put, Expr.bare, Expr.bare, hbecomes]
    simpa using hadmits
  | @paren opening closing tokens e hopening _ hclosing ih =>
    exact (ih hmem hnodup).frame [opening] [closing] fun tokens value e' h hbecomes =>
      ⟨e', .paren hopening h hclosing, hbecomes⟩
  | @comparison lefts rights left right token op hleft hop hright =>
    exact (isBinaryNode_comparison op).admits hleft hright
      (fun _ _ _ _ hleft hright => .comparison hleft hop hright)
      (fun hmem _ => hleft.admits hmem) (fun hmem _ => hright.admits hmem) hmem hnodup

theorem SpellsCondition.admits {condition : Option Expr} (h : SpellsCondition tokens condition)
    (hmem : literal ∈ condition.elim [] Expr.literals)
    (hnodup : ((condition.elim [] Expr.literals).map Literal.span).Nodup) :
    Admits SpellsCondition (ConditionBecomes condition literal.span) tokens literal := by
  cases h with
  | absent => cases hmem
  | @present token tokens e hkind h =>
    have hadmits := (h.admits hmem hnodup).frame (T := SpellsCondition)
      (C := ConditionBecomes (some e) literal.span) [token] []
      fun tokens value e' h hbecomes =>
        ⟨some e', by simpa using SpellsCondition.present hkind h, congrArg some hbecomes⟩
    simpa using hadmits

theorem SpellsSetting.admits {keyword : Keyword} {setting : Option Literal}
    (h : SpellsSetting keyword tokens setting) (hmem : literal ∈ setting) :
    Admits (SpellsSetting keyword) (SettingBecomes setting literal.span) tokens literal := by
  cases h with
  | absent => cases hmem
  | @present token tokens _ hkind h =>
    obtain rfl := Option.some.inj hmem
    refine ⟨[token], tokens, [], by simp, h, fun part' literal' hpart' => ?_⟩
    refine ⟨some literal', by simpa using SpellsSetting.present hkind hpart', ?_⟩
    rw [SettingBecomes, Option.map_some, Option.map_some, Option.map_some, Literal.put_self]
    rfl

/-- **Any number can stand for a number of the clauses.** -/
theorem SpellsDraft.admits {draft : Draft} (h : SpellsDraft tokens draft) {stop : Nat}
    (hmem : literal ∈ (draft.query stop).literals)
    (hnodup : ((draft.query stop).literals.map Literal.span).Nodup) :
    Admits SpellsDraft (draft.Becomes literal.span) tokens literal := by
  cases h with
  | @clauses select from_ target columns conditions sleeps speeds names name condition sleep speed
      hselect hcolumns hfrom htarget hcondition hsleep hspeed =>
    change literal ∈ condition.elim [] Expr.literals ++ (sleep.toList ++ speed.toList) at hmem
    change ((condition.elim [] Expr.literals ++ (sleep.toList ++ speed.toList)).map
      Literal.span).Nodup at hnodup
    rw [List.map_append, List.map_append] at hnodup
    obtain ⟨hnodup, hsettings, hbefore⟩ := List.nodup_append'.1 hnodup
    obtain ⟨-, -, hapart⟩ := List.nodup_append'.1 hsettings
    rw [List.disjoint_append_right] at hbefore
    rcases List.mem_append.1 hmem with hmem | hmem
    · have hplace := List.mem_map_of_mem (f := Literal.span) hmem
      have hadmits := (hcondition.admits hmem hnodup).frame (T := SpellsDraft)
        (select :: (columns ++ [from_, target])) (sleeps ++ speeds)
        fun tokens value condition' h hbecomes => by
          have hdraft := SpellsDraft.clauses hselect hcolumns hfrom htarget h hsleep hspeed
          refine ⟨_, by simpa using hdraft, Draft.becomes_of_clauses hbecomes (.refl ?_ value)
            (.refl ?_ value)⟩
          · exact fun h => hbefore.1 hplace h
          · exact fun h => hbefore.2 hplace h
      simpa using hadmits
    · rcases List.mem_append.1 hmem with hmem | hmem
      · have hplace := List.mem_map_of_mem (f := Literal.span) hmem
        have hadmits := (hsleep.admits (Option.mem_toList.1 hmem)).frame (T := SpellsDraft)
          (select :: (columns ++ from_ :: target :: conditions)) speeds
          fun tokens value sleep' h hbecomes => by
            have hdraft := SpellsDraft.clauses hselect hcolumns hfrom htarget hcondition h hspeed
            refine ⟨_, by simpa using hdraft, Draft.becomes_of_clauses (.refl ?_ value) hbecomes
              (.refl ?_ value)⟩
            · exact fun h => hbefore.1 h hplace
            · exact fun h => hapart hplace h
        simpa using hadmits
      · have hplace := List.mem_map_of_mem (f := Literal.span) hmem
        have hadmits := (hspeed.admits (Option.mem_toList.1 hmem)).frame (T := SpellsDraft)
          (select :: (columns ++ from_ :: target :: (conditions ++ sleeps))) []
          fun tokens value speed' h hbecomes => by
            have hdraft := SpellsDraft.clauses hselect hcolumns hfrom htarget hcondition hsleep h
            refine ⟨_, by simpa using hdraft, Draft.becomes_of_clauses (.refl ?_ value)
              (.refl ?_ value) hbecomes⟩
            · exact fun h => hbefore.2 h hplace
            · exact fun h => hapart h hplace
        simpa using hadmits

end

/-! ## The same words elsewhere -/

theorem Expr.Alike.bare_eq {e e' : Expr} (h : e.Alike Name.SameText e') : e'.bare = e.bare := by
  induction h with
  | column h => rw [bare, bare, Name.bare, Name.bare, h.text]
  | literal h => rw [bare, bare, Literal.bare, Literal.bare, h]
  | comparison _ _ ihleft ihright | logical _ _ ihleft ihright => rw [bare, bare, ihleft, ihright]
  | negation _ ih => rw [bare, bare, ih]

theorem map_bare_eq_of_rel {setting setting' : Option Literal}
    (h : Option.Rel Literal.Alike setting setting') :
    setting'.map Literal.bare = setting.map Literal.bare := by
  cases h with
  | some h => exact congrArg some (congrArg (Literal.mk · (.empty 0)) h)
  | none => rfl

/-- Queries with the same numbers and the same names are the same up to places and quoting. -/
theorem Query.Alike.bare_eq {query query' : Query} (h : query.Alike Name.SameText query') :
    query'.bare = query.bare := by
  have hcolumns : query'.columns.map Name.bare = query.columns.map Name.bare := by
    refine List.forall₂_eq_eq_eq ▸ List.forall₂_map_left_iff.2 (List.forall₂_map_right_iff.2 ?_)
    exact h.columns.flip.imp fun name name' h => by rw [Name.bare, Name.bare, h.text]
  have htarget : query'.target.bare = query.target.bare := by
    obtain ⟨name, name', hname, htarget, htarget'⟩ := h.target
    rw [← htarget, ← htarget', TargetName.bare, TargetName.bare, Name.asTarget, Name.asTarget,
      hname.text]
  have hcondition : query'.condition.map Expr.bare = query.condition.map Expr.bare := by
    have hrel := h.condition
    generalize query.condition = condition, query'.condition = condition' at hrel
    cases hrel with
    | some h => exact congrArg some h.bare_eq
    | none => rfl
  rw [Query.bare, Query.bare, hcolumns, htarget, hcondition, map_bare_eq_of_rel h.sleep,
    map_bare_eq_of_rel h.speed]

/-- A text that is cut into the words of a query is read as this query. -/
theorem SpellsQuery.exists_parse {tokens : List Token} {size : Nat} {query : Query}
    {source : String} (h : SpellsQuery (tokens ++ [.endAt size]) query)
    (hcut : IsCut source.toList (tokens.map Token.word)) :
    ∃ query', Query.parse source = .ok query' ∧ query'.bare = query.bare := by
  obtain ⟨hwords, hfaults⟩ := hcut.tokensOf
  have hkept : List.Forall₂ (Token.Alike Name.SameText fun _ _ => True) tokens
      (tokensOf source) := by
    have hsame : List.Forall₂ (fun token token' : Token => token'.word = token.word) tokens
        (tokensOf source) := by
      rw [← List.forall₂_eq_eq_eq, List.forall₂_map_left_iff, List.forall₂_map_right_iff] at hwords
      exact hwords.flip
    refine hsame.imp fun token token' hword => Token.Kept.alike ⟨congrArg Word.kind hword, ?_⟩ trivial
    exact fun _ => String.toList_inj.1 (congrArg Word.text hword)
  have hagree : Agree (fun _ _ => True) (Query.Alike Name.SameText) (Query.read tokens size)
      (Query.parse source) := by
    rw [Query.parse, hfaults]
    exact read_agree hkept trivial
  rw [read_eq_ok_iff.2 h] at hagree
  generalize Query.parse source = result at hagree ⊢
  cases hagree with
  | ok h => exact ⟨_, rfl, h.bare_eq⟩

/-- **Any number can stand for a number of a source**, as far as its text is cut into the same words
around it. -/
theorem exists_place_of_literal {source : String} {query : Query} {literal : Literal}
    (h : Query.parse source = .ok query) (hmem : literal ∈ query.literals) :
    ∃ front part back, tokensOf source = front ++ (part ++ back) ∧ SpellsNumber part literal ∧
      ∀ part' literal' (source' : String), SpellsNumber part' literal' →
        IsCut source'.toList ((front ++ (part' ++ back)).map Token.word) →
          ∃ query', Query.parse source' = .ok query' ∧
            query.Becomes literal.span literal'.value query' := by
  have hnodup := nodup_literals_of_parse h
  have hspells := (parse_eq_ok_iff.1 h).2
  generalize hscan : scan source = tokens at hspells
  cases hspells with
  | @query tokens semicolons draft final hdraft hsemicolon hfinal =>
    obtain ⟨htokens, hend⟩ := List.append_inj' hscan rfl
    obtain ⟨front, part, back, rfl, hpart, hother⟩ := hdraft.admits hmem hnodup
    refine ⟨front, part, back ++ semicolons, by simp [htokens], hpart, ?_⟩
    intro part' literal' source' hpart' hcut
    obtain ⟨draft', hdraft', hbecomes⟩ := hother part' literal' hpart'
    have hquery := SpellsQuery.query hdraft' hsemicolon hfinal
    rw [← (List.cons.inj hend).1] at hquery
    have hwords : IsCut source'.toList
        ((front ++ (part' ++ back) ++ semicolons).map Token.word) := by simpa using hcut
    obtain ⟨query', hparse, hbare⟩ := hquery.exists_parse hwords
    exact ⟨query', hparse, hbare.trans (hbecomes _ _)⟩

end PinQuery
