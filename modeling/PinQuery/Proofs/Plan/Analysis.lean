import PinQuery.Plan.Analysis
import PinQuery.Proofs.Pin

/-!
# What the analysis accepts

* `Expr.IsSupported` are the conditions that can be tested, with pins of the board for names.
* `Expr.checkCondition_eq_ok_iff`: the analysis accepts these and adds their names to the pins used.
* `checkColumns_eq_ok_iff`: the same for the columns, which are also printed.
-/

namespace PinQuery

theorem bind_eq_ok_iff {ε α β : Type} {x : Except ε α} {f : α → Except ε β} {b : β} :
    (x >>= f) = .ok b ↔ ∃ a, x = .ok a ∧ f a = .ok b := by
  cases x with
  | error e => simp [bind, Except.bind]
  | ok a => simp [bind, Except.bind]

/-! ## Names -/

/-- The name of a pin of the board. -/
def IsPinName (text : String) : Prop := (Pin.lookup? text).isSome = true

instance (text : String) : Decidable (IsPinName text) := inferInstanceAs (Decidable (_ = true))

theorem isPinName_iff {text : String} :
    IsPinName text ↔ ∃ pin : Pin, pin.index ≤ Pin.maxIndex ∧ pin.name = text := by
  rw [IsPinName, Option.isSome_iff_exists]
  simp only [Pin.lookup?_eq_some_iff]

theorem checkPin_eq_ok_iff {name : Name} {u : Unit} :
    name.checkPin = .ok u ↔ IsPinName name.text := by
  unfold Name.checkPin IsPinName
  split
  next h => simp [h]
  next h => simp [h]

/-! ## Conditions -/

namespace Expr

/-- The names in a condition, from left to right. -/
def names : Expr → List String
  | .column name => [name.text]
  | .literal _ => []
  | .comparison _ left right _ => left.names ++ right.names
  | .logical _ left right _ => left.names ++ right.names
  | .negation inner _ => inner.names

/-- The operands that can be tested. -/
inductive IsSupportedOperand : Expr → Prop
  | column {name : Name} (hpin : IsPinName name.text) : IsSupportedOperand (.column name)
  | literal (number : Literal) : IsSupportedOperand (.literal number)

/-- The conditions that can be tested: comparisons of two operands, connectives of two such
conditions, and negations of a comparison or a connective. -/
inductive IsSupported : Expr → Prop
  | comparison {op : Comparison} {left right : Expr} {span : Span}
      (hleft : left.IsSupportedOperand) (hright : right.IsSupportedOperand) :
      IsSupported (.comparison op left right span)
  | logical {op : Connective} {left right : Expr} {span : Span} (hleft : left.IsSupported)
      (hright : right.IsSupported) : IsSupported (.logical op left right span)
  | negation {inner : Expr} {span : Span} (hbinary : inner.isBinary = true)
      (h : inner.IsSupported) : IsSupported (.negation inner span)

theorem isLeaf_of_isSupportedOperand {e : Expr} (h : e.IsSupportedOperand) : e.isLeaf = true := by
  cases h <;> rfl

theorem checkOperand_eq_ok_iff {e : Expr} {usage usage' : PinUsage} :
    e.checkOperand usage = .ok usage' ↔
      e.IsSupportedOperand ∧ usage' = e.names.foldl PinUsage.addInput usage := by
  cases e with
  | column name =>
    have hiff : (Expr.column name).IsSupportedOperand ↔ IsPinName name.text :=
      ⟨fun h => by cases h; assumption, .column⟩
    simp only [checkOperand, bind_eq_ok_iff, hiff, names, List.foldl_cons, List.foldl_nil,
      checkPin_eq_ok_iff]
    simp [pure, Except.pure, eq_comm (a := usage')]
  | literal number =>
    simp [checkOperand, names, IsSupportedOperand.literal, eq_comm (a := usage')]
  | comparison | logical | negation =>
    simp only [checkOperand, reduceCtorEq, false_iff]
    rintro ⟨⟨⟩, -⟩

/-- **The analysis accepts the supported conditions and adds their names to the pins used.** -/
theorem checkCondition_eq_ok_iff {e : Expr} {usage usage' : PinUsage} :
    e.checkCondition usage = .ok usage' ↔
      e.IsSupported ∧ usage' = e.names.foldl PinUsage.addInput usage := by
  induction e generalizing usage usage' with
  | column name | literal number =>
    simp only [checkCondition, reduceCtorEq, false_iff]
    rintro ⟨⟨⟩, -⟩
  | comparison op left right span _ _ =>
    have hiff : (Expr.comparison op left right span).IsSupported ↔
        left.IsSupportedOperand ∧ right.IsSupportedOperand :=
      ⟨fun h => by cases h; exact ⟨‹_›, ‹_›⟩, fun h => .comparison h.1 h.2⟩
    rw [hiff, checkCondition]
    split
    next =>
      simp only [bind_eq_ok_iff, checkOperand_eq_ok_iff, names, List.foldl_append]
      grind
    next hleaf =>
      simp only [reduceCtorEq, false_iff]
      rintro ⟨⟨hleft, hright⟩, -⟩
      simp [isLeaf_of_isSupportedOperand hleft, isLeaf_of_isSupportedOperand hright] at hleaf
  | logical op left right span ihleft ihright =>
    have hiff : (Expr.logical op left right span).IsSupported ↔
        left.IsSupported ∧ right.IsSupported :=
      ⟨fun h => by cases h; exact ⟨‹_›, ‹_›⟩, fun h => .logical h.1 h.2⟩
    simp only [hiff, checkCondition, bind_eq_ok_iff, ihleft, ihright, names, List.foldl_append]
    grind
  | negation inner span ih =>
    have hiff : (Expr.negation inner span).IsSupported ↔
        inner.isBinary = true ∧ inner.IsSupported :=
      ⟨fun h => by cases h; exact ⟨‹_›, ‹_›⟩, fun h => .negation h.1 h.2⟩
    rw [hiff, checkCondition]
    split
    next hbinary => simp [ih, names, hbinary]
    next hbinary => simp [hbinary]

/-- The names in a supported condition are those of pins. -/
theorem IsSupported.isPinName_of_mem_names {e : Expr} (h : e.IsSupported) :
    ∀ name ∈ e.names, IsPinName name := by
  have hoperand {e : Expr} (h : e.IsSupportedOperand) : ∀ name ∈ e.names, IsPinName name := by
    cases h with
    | column hpin => simpa [names] using hpin
    | literal number => simp [names]
  induction h with
  | comparison hleft hright =>
    rw [names, List.forall_mem_append]
    exact ⟨hoperand hleft, hoperand hright⟩
  | logical _ _ ihleft ihright =>
    rw [names, List.forall_mem_append]
    exact ⟨ihleft, ihright⟩
  | negation _ _ ih => exact ih

end Expr

/-! ## Columns and plans -/

theorem checkColumns_eq_ok_iff {columns : List Name} {usage usage' : PinUsage} :
    checkColumns columns usage = .ok usage' ↔ (∀ column ∈ columns, IsPinName column.text) ∧
      usage' = (columns.map Name.text).foldl PinUsage.addOutput usage := by
  induction columns generalizing usage with
  | nil => simp [checkColumns, pure, Except.pure, eq_comm (a := usage')]
  | cons column columns ih =>
    have hcons : checkColumns (column :: columns) usage = .ok usage' ↔
        IsPinName column.text ∧ checkColumns columns (usage.addOutput column.text) = .ok usage' := by
      rw [checkColumns, List.foldlM_cons]
      simp only [bind_eq_ok_iff, checkPin_eq_ok_iff, pure, Except.pure, Except.ok.injEq]
      exact ⟨fun ⟨_, ⟨_, hpin, rfl⟩, hrest⟩ => ⟨hpin, hrest⟩,
        fun ⟨hpin, hrest⟩ => ⟨_, ⟨(), hpin, rfl⟩, hrest⟩⟩
    rw [hcons, ih]
    simp [and_assoc]

namespace Query

/-- The names in the columns of a query. -/
def columnNames (query : Query) : List String := query.columns.map Name.text

/-- The names in the condition of a query. -/
def conditionNames (query : Query) : List String :=
  match query.condition with
  | none => []
  | some e => e.names

/-- The pins that a query uses. -/
def usage (query : Query) : PinUsage :=
  query.conditionNames.foldl PinUsage.addInput
    (query.columnNames.foldl PinUsage.addOutput .empty)

end Query

theorem PinUsage.mem_foldl_addOutput {names : List String} {usage : PinUsage} {name : String} :
    (name ∈ (names.foldl addOutput usage).referenced ↔ name ∈ names ∨ name ∈ usage.referenced) ∧
      (name ∈ (names.foldl addOutput usage).outputs ↔ name ∈ names ∨ name ∈ usage.outputs) := by
  induction names generalizing usage with
  | nil => simp
  | cons first names ih =>
    simp only [List.foldl_cons, ih, addOutput, OrderedSet.mem_insert, List.mem_cons]
    grind

theorem PinUsage.mem_foldl_addInput {names : List String} {usage : PinUsage} {name : String} :
    name ∈ (names.foldl addInput usage).referenced ↔ name ∈ names ∨ name ∈ usage.referenced := by
  induction names generalizing usage with
  | nil => simp
  | cons first names ih =>
    simp only [List.foldl_cons, ih, addInput, OrderedSet.mem_insert, List.mem_cons]
    grind

theorem PinUsage.outputs_foldl_addInput (names : List String) (usage : PinUsage) :
    (names.foldl addInput usage).outputs = usage.outputs := by
  induction names generalizing usage with
  | nil => rfl
  | cons first names ih => rw [List.foldl_cons, ih, addInput]

theorem Query.mem_usage {query : Query} {name : String} :
    (name ∈ query.usage.referenced ↔ name ∈ query.columnNames ∨ name ∈ query.conditionNames) ∧
      (name ∈ query.usage.outputs ↔ name ∈ query.columnNames) := by
  constructor
  · rw [usage, PinUsage.mem_foldl_addInput, PinUsage.mem_foldl_addOutput.1]
    simp [PinUsage.empty, or_comm]
  · rw [usage, PinUsage.outputs_foldl_addInput, PinUsage.mem_foldl_addOutput.2]
    simp [PinUsage.empty]

/-- What the analysis makes of a query. -/
structure Plan.Describes (plan : Plan) (query : Query) : Prop where
  columns : ∀ name ∈ query.columnNames, IsPinName name
  condition : ∀ e ∈ query.condition, e.IsSupported
  usage : plan.usage = query.usage
  pins : query.usage.partition = .ok plan.pins
  test : ∀ e ∈ query.condition, ∃ text, e.targetText = .ok text ∧ plan.condition = .test text
  always : query.condition = none → plan.condition = .always
  target : plan.target = query.target.text

theorem checkClause_eq_ok_iff {condition : Option Expr} {usage usage' : PinUsage}
    {test : LoopCondition} :
    checkClause usage condition = .ok (test, usage') ↔
      (∀ e ∈ condition, e.IsSupported ∧ ∃ text, e.targetText = .ok text ∧ test = .test text) ∧
        (condition = none → test = .always) ∧
        usage' = (match condition with | none => [] | some e => e.names).foldl PinUsage.addInput
          usage := by
  cases condition with
  | none => simp [checkClause, eq_comm (a := test), eq_comm (a := usage')]
  | some e =>
    simp only [checkClause, bind_eq_ok_iff, Expr.checkCondition_eq_ok_iff, pure, Except.pure,
      Except.ok.injEq, Prod.mk.injEq]
    grind

theorem Plan.describes_of_ofQuery {known : OrderedSet String} {query : Query} {plan : Plan}
    (h : Plan.ofQuery known query = .ok plan) : plan.Describes query := by
  simp only [Plan.ofQuery, bind_eq_ok_iff] at h
  obtain ⟨columnUsage, hcolumns, -, -, ⟨test, usage⟩, hclause, pins, hpins, hplan⟩ := h
  obtain ⟨hnames, rfl⟩ := checkColumns_eq_ok_iff.1 hcolumns
  obtain ⟨htest, halways, rfl⟩ := checkClause_eq_ok_iff.1 hclause
  cases hplan
  exact ⟨by simpa [Query.columnNames] using hnames, fun e he => (htest e he).1, rfl, hpins,
    fun e he => (htest e he).2, halways, rfl⟩

/-! ## Pins of a plan -/

/-- Where a function succeeds on all of a list, the results are those of the elements. -/
theorem mem_iff_of_mapM_eq_ok {ε α β : Type} {f : α → Except ε β} {l : List α} {l' : List β}
    (h : l.mapM f = .ok l') :
    (∀ a ∈ l, ∃ b, f a = .ok b) ∧ ∀ b, b ∈ l' ↔ ∃ a ∈ l, f a = .ok b := by
  induction l generalizing l' with
  | nil =>
    rw [List.mapM_nil] at h
    cases h
    simp
  | cons a l ih =>
    rw [List.mapM_cons] at h
    obtain ⟨b', hb', h⟩ := bind_eq_ok_iff.1 h
    obtain ⟨bs, hbs, h⟩ := bind_eq_ok_iff.1 h
    cases h
    obtain ⟨hall, hmem⟩ := ih hbs
    exact ⟨by simpa [hb'] using hall, fun b => by simp [hmem, hb', eq_comm (a := b)]⟩

theorem Pin.classify_eq_ok_iff {text : String} {pin : Pin} :
    Pin.classify text = .ok pin ↔ pin.index ≤ maxIndex ∧ pin.name = text := by
  rw [← ofName?_eq_some_iff, classify]
  cases ofName? text <;> simp

/-- Where all names are those of pins, they are the names of the pins found. -/
theorem Pin.mem_of_mapM_classify {names : List String} {pins : List Pin}
    (h : names.mapM classify = .ok pins) {pin : Pin} : pin ∈ pins ↔ pin.name ∈ names := by
  obtain ⟨hall, hmem⟩ := mem_iff_of_mapM_eq_ok h
  rw [hmem]
  constructor
  · rintro ⟨text, htext, hpin⟩
    rw [(classify_eq_ok_iff.1 hpin).2]
    exact htext
  · intro hname
    obtain ⟨pin', hpin'⟩ := hall _ hname
    obtain rfl := name_inj.1 (classify_eq_ok_iff.1 hpin').2
    exact ⟨_, hname, hpin'⟩

theorem Pin.mem_indices {kind : PinKind} {pins : List Pin} {index : Nat} :
    index ∈ Pin.indices kind pins ↔ ⟨kind, index⟩ ∈ pins := by
  simp only [indices, OrderedSet.mem_ofList, List.mem_map, List.mem_filter, beq_iff_eq]
  constructor
  · rintro ⟨pin, ⟨hmem, rfl⟩, rfl⟩
    exact hmem
  · intro hmem
    exact ⟨_, ⟨hmem, rfl⟩, rfl⟩

/-- The indices of a kind of pin are those of the names of this kind. -/
theorem PinUsage.mem_pins {usage : PinUsage} {pins : PinSets} (h : usage.partition = .ok pins)
    (index : Nat) :
    (index ∈ pins.digitalIn ↔ (Pin.mk .digital index).name ∈ usage.referenced) ∧
      (index ∈ pins.analogIn ↔ (Pin.mk .analog index).name ∈ usage.referenced) ∧
      (index ∈ pins.digitalOut ↔ (Pin.mk .digital index).name ∈ usage.outputs) ∧
      (index ∈ pins.analogOut ↔ (Pin.mk .analog index).name ∈ usage.outputs) := by
  rw [partition] at h
  obtain ⟨inputs, hinputs, h⟩ := bind_eq_ok_iff.1 h
  obtain ⟨outputs, houtputs, h⟩ := bind_eq_ok_iff.1 h
  cases h
  simp only [Pin.mem_indices, Pin.mem_of_mapM_classify hinputs,
    Pin.mem_of_mapM_classify houtputs]
  exact ⟨Iff.rfl, Iff.rfl, Iff.rfl, Iff.rfl⟩

end PinQuery
