import PinQuery.Plan.Document
import PinQuery.Proofs.Json
import PinQuery.Proofs.Target.Listing

/-!
# Documents show the whole plan

The plan can be recovered from its document, and so from the text that is shown of it.

* `Json.number?`, `Json.index?` and `Json.set?` read the parts of a plan, and `Plan.ofJson?` reads a
  plan from an object that has its keys and no others.
* `Plan.IsListable.isLegible_document` and `Plan.IsListable.ofJson?_document`: the document of a
  plan can be read, and what is read is the plan.
* `Plan.IsShownBy`: a text shows a plan if the plan is read from it and it has one item a line.
* `Plan.isShownBy_of_planSource` and `document_shows_plan`: the plans of sources are shown by their
  documents, so they are the same where these are.
-/

namespace PinQuery

open Text

/-! ## Numbers -/

/-- A text that is one numeral, without zeros in front of its whole part. -/
def isNumeral : List Char → Bool
  | [] => false
  | c :: cs => c.isDigit && isPlain (c :: cs) && Scan.numberTail cs == cs

/-- Whether there is a minus in front of a text, and what follows it. -/
def splitMinus : List Char → Bool × List Char
  | '-' :: cs => (true, cs)
  | cs => (false, cs)

/-- The number that a numeral with a sign stands for, if it fits. The sign counts, so that the least
integer fits too. -/
def Number.ofSigned? (negative : Bool) (numeral : List Char) : Option Number :=
  if numeral.any isFloatMark then
    let value := (Decimal.ofNumeral numeral).round negative
    if value.isFinite then some (.float value) else none
  else
    let size : Int := Decimal.digitsValue numeral
    let value := if negative then -size else size
    if minInt ≤ value ∧ value ≤ maxInt then some (.int (.ofInt value)) else none

/-- The number that a document is. -/
def Json.number? : Json → Option Number
  | .number text =>
    let (negative, numeral) := splitMinus text.toList
    if isNumeral numeral then Number.ofSigned? negative numeral else none
  | .string _ | .bool _ | .array _ | .object _ => none

theorem Numeral.isNumeral_text {n : Numeral} (h : isPlain n.text = true) :
    isNumeral n.text = true := by
  obtain ⟨c, tail, htext, hdigit⟩ := n.exists_text_eq_cons
  have htail := n.numberTail_append htext Breaks.nil
  rw [List.append_nil] at htail
  rw [htext] at h ⊢
  rw [isNumeral, hdigit, h, htail, beq_self_eq_true]
  rfl

theorem splitMinus_signed (negative : Bool) (n : Numeral) :
    splitMinus (signed negative n.text) = (negative, n.text) := by
  cases negative with
  | true => rfl
  | false =>
    rw [signed, if_neg Bool.false_ne_true, splitMinus]
    intro cs hminus
    exact absurd (n.isDigit_head hminus) (by decide)

theorem Json.number?_of_signed {negative : Bool} {n : Numeral} {text : String}
    (h : text.toList = signed negative n.text) (hplain : isPlain n.text = true) :
    (Json.number text).number? = Number.ofSigned? negative n.text := by
  rw [number?, h, splitMinus_signed]
  exact if_pos (Numeral.isNumeral_text hplain)

/-- Every integer is read from its text, the least one too. -/
theorem Json.number?_int (value : Int64) :
    (Json.number value.toInt.repr).number? = some (.int value) := by
  have hmark : ¬(Numeral.ofNat value.toInt.natAbs).text.any Number.isFloatMark = true := by
    simp only [List.any_eq_true, not_exists, not_and, Bool.not_eq_true]
    exact fun c hc => Numeral.isFloatMark_ofNat hc
  have hvalue : (if decide (value.toInt < 0) = true then -(value.toInt.natAbs : Int)
      else (value.toInt.natAbs : Int)) = value.toInt := by
    simp only [decide_eq_true_eq]
    split <;> omega
  have hread : (Json.number value.toInt.repr).number? = Number.ofSigned? _ _ :=
    number?_of_signed (Number.text_int value) (Numeral.isPlain_ofNat _)
  have hlow := value.le_toInt
  have hhigh := value.toInt_lt
  have hfits : Number.minInt ≤ value.toInt ∧ value.toInt ≤ Number.maxInt := by
    unfold Number.minInt Number.maxInt
    omega
  rw [hread, Number.ofSigned?, if_neg hmark]
  dsimp only
  rw [Numeral.digitsValue_ofNat, hvalue, if_pos hfits, Int64.ofInt_toInt]

/-- A number that can be written is read from its text. -/
theorem Number.IsWritable.number?_ofNumber {number : Number} (h : number.IsWritable) :
    (Json.ofNumber number).number? = some number := by
  cases number with
  | int value => exact Json.number?_int value
  | float value =>
    cases value with
    | nan => cases h
    | infinite negative => cases h
    | finite negative m =>
      obtain ⟨n, htext, hplain, hmark, hround⟩ := json_float negative m
      rw [← n.ofNumeral_text] at hround
      refine (Json.number?_of_signed htext hplain).trans ?_
      rw [ofSigned?, if_pos hmark]
      dsimp only
      rw [hround]
      rfl

/-! ### Words -/

theorem Numeral.isWordPart_of_mem (n : Numeral) {c : Char} (h : c ∈ n.text) :
    Json.isWordPart c = true := by
  have hmarks : ∀ d ∈ Number.marks, Json.isWordPart d = true := List.all_eq_true.1 rfl
  by_cases hdigit : c.isDigit = true
  · simp [Json.isWordPart, Char.isAlphanum, hdigit]
  · by_contra hpart
    have hmark : c ∉ Number.marks := fun hmem => hpart (hmarks c hmem)
    exact n.not_mem_text (Bool.eq_false_iff.2 hdigit) hmark h

/-- A numeral behind an optional minus is a word that is no other document. -/
theorem Json.isLegible_of_signed {negative : Bool} {n : Numeral} {text : String}
    (h : text.toList = signed negative n.text) : (Json.number text).IsLegible := by
  obtain ⟨c, tail, hn, hdigit⟩ := n.exists_text_eq_cons
  have hhead : ∀ d ∈ text.toList.head?, d = '-' ∨ d.isDigit = true := by
    rw [h, signed]
    split
    next => simp
    next => simp [hn, hdigit]
  have hne {word : String} {d : Char} (hword : word.toList.head? = some d) (hminus : d ≠ '-')
      (hletter : ¬d.isDigit = true) : text ≠ word := by
    rintro rfl
    exact (hhead d hword).elim hminus hletter
  have hword : IsWord text := by
    rw [IsWord, h, signed]
    split
    next => exact ⟨List.cons_ne_nil _ _, List.forall_mem_cons.2 ⟨rfl, fun d => n.isWordPart_of_mem⟩⟩
    next => exact ⟨by simp [hn], fun d => n.isWordPart_of_mem⟩
  exact .number hword (hne rfl (by decide) (by decide)) (hne rfl (by decide) (by decide))

theorem Json.isLegible_int (value : Int64) : (Json.number value.toInt.repr).IsLegible :=
  isLegible_of_signed (Number.text_int value)

theorem Number.IsWritable.isLegible_ofNumber {number : Number} (h : number.IsWritable) :
    (Json.ofNumber number).IsLegible := by
  cases number with
  | int value => exact Json.isLegible_int value
  | float value =>
    cases value with
    | nan => cases h
    | infinite negative => cases h
    | finite negative m =>
      obtain ⟨n, htext, -⟩ := json_float negative m
      exact Json.isLegible_of_signed htext

/-! ## Sets -/

/-- The set of the elements of a list in increasing order. -/
def OrderedSet.ofIncreasing? {α : Type} [LT α] [DecidableLT α] (l : List α) :
    Option (OrderedSet α) :=
  if h : l.Pairwise (· < ·) then some ⟨l, h⟩ else none

namespace Json

/-- The text that a document is. -/
def string? : Json → Option String
  | .string text => some text
  | .number _ | .bool _ | .array _ | .object _ => none

/-- The truth value that a document is. -/
def bool? : Json → Option Bool
  | .bool value => some value
  | .string _ | .number _ | .array _ | .object _ => none

/-- The integer that a document is. -/
def int? (json : Json) : Option Int64 :=
  match json.number? with
  | some (.int value) => some value
  | some (.float _) | none => none

/-- The index that a document is, in the only way to write it. -/
def index? : Json → Option Nat
  | .number text =>
    let index := Decimal.digitsValue text.toList
    if index.repr = text then some index else none
  | .string _ | .bool _ | .array _ | .object _ => none

/-- The set that an array with increasing items is. -/
def set? {α : Type} [LT α] [DecidableLT α] (read? : Json → Option α) : Json → Option (OrderedSet α)
  | .array items => (items.mapM read?).bind OrderedSet.ofIncreasing?
  | .string _ | .number _ | .bool _ | .object _ => none

/-- The values of an object with these keys and no others. -/
def values? (keys : List String) : Json → Option (List Json)
  | .object fields => if fields.map Prod.fst = keys then some (fields.map Prod.snd) else none
  | .string _ | .number _ | .bool _ | .array _ => none

theorem set?_array {α : Type} [LT α] [DecidableLT α] (write : α → Json) {read? : Json → Option α}
    (h : ∀ x, read? (write x) = some x) (set : OrderedSet α) :
    (Json.array (set.toList.map write)).set? read? = some set := by
  have hitems : (set.toList.map write).mapM read? = some set.toList := by
    have hread : read? ∘ write = some := funext h
    rw [List.mapM_map, hread]
    exact (List.mapM_pure (m := Option) (f := id)).trans (congrArg some (List.map_id _))
  rw [Json.set?, hitems, Option.bind_some, OrderedSet.ofIncreasing?, dif_pos set.increasing]

theorem index?_repr (index : Nat) : (Json.number index.repr).index? = some index := by
  rw [index?, Numeral.digitsValue_repr, if_pos rfl]

theorem set?_ofNames (names : OrderedSet String) : (ofNames names).set? string? = some names :=
  set?_array .string (fun _ => rfl) names

theorem set?_ofIndices (indices : OrderedSet Nat) :
    (ofIndices indices).set? index? = some indices :=
  set?_array _ index?_repr indices

theorem int?_repr (value : Int64) : (Json.number value.toInt.repr).int? = some value := by
  rw [int?, number?_int]

theorem isLegible_ofNames (names : OrderedSet String) : (ofNames names).IsLegible :=
  .array (List.forall_mem_map.2 fun name _ => .string name)

theorem isLegible_ofIndices (indices : OrderedSet Nat) : (ofIndices indices).IsLegible := by
  refine .array (List.forall_mem_map.2 fun index _ => ?_)
  have hindex : index.repr.toList = signed false (Numeral.ofNat index).text := by
    rw [Nat.toList_repr, Numeral.text_ofNat]
    rfl
  exact isLegible_of_signed hindex

end Json

/-! ## Plans -/

/-- The condition that a text is. -/
def LoopCondition.ofText (text : String) : LoopCondition :=
  if text = "1" then .always else .test text

theorem LoopCondition.IsTelling.ofText_text {condition : LoopCondition}
    (h : condition.IsTelling) : ofText condition.text = condition := by
  cases condition with
  | always => rfl
  | test text => exact if_neg (h text rfl)

/-- The pins that an object names. -/
def PinUsage.ofJson? (json : Json) : Option PinUsage := do
  let [referenced, outputs] ← json.values? ["referenced", "outputs"] | none
  return ⟨← referenced.set? Json.string?, ← outputs.set? Json.string?⟩

/-- The delay that an object is. -/
def Sleep.ofJson? (json : Json) : Option Sleep := do
  let [seconds, milliseconds, positive] ←
    json.values? ["seconds", "milliseconds", "positive"] | none
  return ⟨← seconds.number?, ← milliseconds.int?, ← positive.bool?⟩

/-- The plan that a document is. -/
def Plan.ofJson? (json : Json) : Option Plan := do
  let [pins, digitalIn, analogIn, digitalOut, analogOut, condition, sleep, speed, target] ←
    json.values? ["pins", "digital_in", "analog_in", "digital_out", "analog_out", "condition",
      "sleep", "speed", "target"] | none
  let [baud] ← speed.values? ["baud"] | none
  return {
    usage := ← PinUsage.ofJson? pins
    pins := ⟨← digitalIn.set? Json.index?, ← analogIn.set? Json.index?,
      ← digitalOut.set? Json.index?, ← analogOut.set? Json.index?⟩
    condition := .ofText (← condition.string?)
    sleep := ← Sleep.ofJson? sleep
    baud := ← baud.number?
    target := ← target.string? }

namespace Plan

variable {plan : Plan}

theorem IsListable.isLegible_document (h : plan.IsListable) : plan.document.IsLegible := by
  refine .object ?_
  simp only [List.forall_mem_cons]
  refine ⟨.object ?_, Json.isLegible_ofIndices _, Json.isLegible_ofIndices _,
    Json.isLegible_ofIndices _, Json.isLegible_ofIndices _, .string _, .object ?_, .object ?_,
    .string _, List.forall_mem_nil _⟩
  · simp only [List.forall_mem_cons]
    exact ⟨Json.isLegible_ofNames _, Json.isLegible_ofNames _, List.forall_mem_nil _⟩
  · simp only [List.forall_mem_cons]
    exact ⟨h.seconds.isLegible_ofNumber, Json.isLegible_int _, .bool _, List.forall_mem_nil _⟩
  · exact List.forall_mem_singleton.2 h.baud.isLegible_ofNumber

/-- **The plan is read from its document.** -/
theorem IsListable.ofJson?_document (h : plan.IsListable) : ofJson? plan.document = some plan := by
  simp [ofJson?, document, PinUsage.ofJson?, Sleep.ofJson?, Json.values?, Json.set?_ofNames,
    Json.set?_ofIndices, Json.int?_repr, h.seconds.number?_ofNumber, h.baud.number?_ofNumber,
    h.telling.ofText_text, Json.string?, Json.bool?]

/-- A text shows a plan. -/
structure IsShownBy (plan : Plan) (text : String) : Prop where
  /-- The plan is what a reader of documents finds in the text. -/
  reads : (Json.read? text.toList).bind ofJson? = some plan
  /-- The text has one item a line, two spaces deeper for each open bracket. -/
  layout : ∃ tokens, Json.lex text.toList = some tokens ∧
    text.toList = Json.layOut 0 .value tokens

theorem IsListable.isShownBy (h : plan.IsListable) : plan.IsShownBy plan.document.indented where
  reads := by rw [h.isLegible_document.read?_indented, Option.bind_some, h.ofJson?_document]
  layout := ⟨_, h.isLegible_document.lex_indented, h.isLegible_document.layOut_indented.symm⟩

/-- **The indented document shows the whole plan**, if the plan is that of a source. -/
theorem isShownBy_of_planSource {known : OrderedSet String} {source : String} {query : Query}
    (h : planSource known source = .ok (query, plan)) : plan.IsShownBy plan.document.indented :=
  (isListable_of_planSource h).isShownBy

/-- A text shows one plan only. -/
theorem IsShownBy.unique {plan' : Plan} {text : String} (h : plan.IsShownBy text)
    (h' : plan'.IsShownBy text) : plan = plan' :=
  Option.some.inj (h.reads.symm.trans h'.reads)

end Plan

/-- **Documents show the whole plan.** The plans of two sources have the same document if and only
if they are the same plan. -/
theorem document_shows_plan {known known' : OrderedSet String} {source source' : String}
    {query query' : Query} {plan plan' : Plan}
    (h : planSource known source = .ok (query, plan))
    (h' : planSource known' source' = .ok (query', plan')) :
    plan.document.indented = plan'.document.indented ↔ plan = plan' := by
  refine ⟨fun hdocument => ?_, fun hplan => hplan ▸ rfl⟩
  have hshown := Plan.isShownBy_of_planSource h
  rw [hdocument] at hshown
  exact hshown.unique (Plan.isShownBy_of_planSource h')

end PinQuery
