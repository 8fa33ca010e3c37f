import PinQuery.Proofs.Pin.Usage
import PinQuery.Proofs.Query.RoundTrip
import PinQuery.Proofs.Target.Scope

/-!
# Listings show the whole plan

No part of a listing can be taken for another one, so the plan can be recovered from it.

* `Number.IsWritable.eq_of_text`: numbers that can be written are told apart by their texts.
* `Listing.indices_inj` and `Listing.sleep_inj`: sets of indices and delays are told apart too.
* `Expr.IsSupported.blank_mem_targetText`: the text of a condition has a blank, so it is never the
  text of the condition that always holds.
* `PinUsage.eq_of_partition`: the names that are used follow from the sorted pins.
* `Plan.IsListable` are the plans whose parts fit in a listing, and `Plan.isListable_of_planSource`
  says that the plans of sources do.
* `listing_shows_plan`: the plans of sources agree where their listings do.
-/

namespace PinQuery

open Text

/-! ## Numbers -/

/-- A numeral does not begin with a sign. -/
theorem signed_inj {negative negative' : Bool} {n n' : Numeral}
    (h : signed negative n.text = signed negative' n'.text) :
    negative = negative' ∧ n.text = n'.text := by
  have hdigit {n n' : Numeral} : n.text ≠ '-' :: n'.text := fun hminus =>
    absurd (n.isDigit_head hminus) (by decide)
  cases negative <;> cases negative' <;> simp_all [signed, Ne.symm hdigit]

/-- **Numbers that can be written are told apart by their texts.** -/
theorem Number.IsWritable.eq_of_text {number number' : Number} (h : number.IsWritable)
    (h' : number'.IsWritable) (htext : number.text = number'.text) : number = number' := by
  obtain ⟨negative, n, value, hvalue, hsigned, hnumber⟩ := h.exists_numeral
  obtain ⟨negative', n', value', hvalue', hsigned', hnumber'⟩ := h'.exists_numeral
  rw [htext, hsigned'] at hsigned
  obtain ⟨hnegative, hnumeral⟩ := signed_inj hsigned
  rw [hnumeral, ← ofNumeral?_eq_some_iff] at hvalue'
  rw [← ofNumeral?_eq_some_iff, hvalue'] at hvalue
  rw [hnumber, hnumber', hnegative, Option.some.inj hvalue]

/-! ## Sets of indices and delays -/

namespace Listing

/-- The numbers in the text of a set are its elements, in a dash there are none. -/
theorem namesIn_indices (set : OrderedSet Nat) :
    Dialect.namesIn (indices set).toList = set.toList.map Nat.repr := by
  unfold indices
  split
  next hempty =>
    rw [List.isEmpty_iff.1 hempty]
    rfl
  next =>
    refine Dialect.namesIn_intercalate ?_
    rw [List.forall_mem_map]
    exact fun index _ => Dialect.namesIn_repr index

/-- A set can be read from its text. -/
theorem map_digitsValue_namesIn (set : OrderedSet Nat) :
    (Dialect.namesIn (indices set).toList).map (fun name => Decimal.digitsValue name.toList) =
      set.toList := by
  rw [namesIn_indices, List.map_map]
  exact List.map_id'' Numeral.digitsValue_repr _

theorem indices_inj {set set' : OrderedSet Nat} (h : indices set = indices set') : set = set' := by
  have hlist : set.toList = set'.toList := by
    rw [← map_digitsValue_namesIn, h, map_digitsValue_namesIn]
  exact OrderedSet.ext_mem fun index => by rw [OrderedSet.mem_def, OrderedSet.mem_def, hlist]

theorem isLine_indices (set : OrderedSet Nat) : IsLine (indices set) := by
  unfold indices
  split
  · decide
  · refine isLine_intercalate (by decide) ?_
    rw [List.forall_mem_map]
    exact fun index _ => isLine_repr index

theorem sleep_of_positive {delay : Sleep} (h : delay.positive = true) : (sleep delay).toList =
    (delay.seconds.text.toList ++ ['s', ' ']) ++
      '(' :: ((Number.int delay.milliseconds).text.toList ++ ['m', 's', ')']) := by
  simp [sleep, h, Number.text]

/-- A parenthesis follows the seconds, and there is none where there is no delay. -/
theorem mem_sleep_iff {delay : Sleep} : '(' ∈ (sleep delay).toList ↔ delay.positive = true := by
  constructor
  · intro hmem
    by_contra hpositive
    rw [sleep, if_neg hpositive] at hmem
    exact absurd hmem (by decide)
  · intro hpositive
    rw [sleep_of_positive hpositive]
    exact List.mem_append_right _ List.mem_cons_self

/-- Delays are told apart by their seconds, which stand in front of the parenthesis. -/
theorem sleep_inj {delay delay' : Sleep} (h : sleep delay = sleep delay')
    (hseconds : delay.seconds.IsWritable) (hseconds' : delay'.seconds.IsWritable) :
    delay.positive = delay'.positive ∧
      (delay.positive = true → delay.seconds = delay'.seconds) := by
  have hpositive : delay.positive = delay'.positive := by
    rw [Bool.eq_iff_iff, ← mem_sleep_iff, ← mem_sleep_iff, h]
  refine ⟨hpositive, fun hdelay => ?_⟩
  have hopening (number : Number) : '(' ∉ number.text.toList := number.not_mem_text rfl (by decide)
  have hlist := congrArg String.toList h
  rw [sleep_of_positive hdelay, sleep_of_positive (hpositive ▸ hdelay),
    List.append_cons_inj_of_notMem (by simp [hopening]) (by simp [hopening])] at hlist
  exact hseconds.eq_of_text hseconds' (String.toList_inj.1 (List.append_cancel_right hlist.1))

theorem isLine_sleep (delay : Sleep) : IsLine (sleep delay) := by
  unfold sleep
  split
  · exact (((Number.isLine_text _).append (by decide)).append
      (Number.isLine_text (.int delay.milliseconds))).append (by decide)
  · decide

end Listing

/-! ## Conditions -/

/-- A blank stands on both sides of every comparison. -/
theorem Expr.IsSupported.blank_mem_targetText {e : Expr} (h : e.IsSupported) {text : String}
    (htext : e.targetText = .ok text) : ' ' ∈ text.toList := by
  induction h generalizing text with
  | comparison _ _ | logical _ _ _ _ =>
    obtain ⟨leftText, -, htext⟩ := bind_eq_ok_iff.1 htext
    obtain ⟨rightText, -, htext⟩ := bind_eq_ok_iff.1 htext
    cases htext
    simp
  | negation hbinary _ ih =>
    rw [targetText, if_pos hbinary] at htext
    obtain ⟨innerText, hinner, htext⟩ := bind_eq_ok_iff.1 htext
    cases htext
    split <;> simp [ih hinner]

/-- A condition that is tested does not look like the one that always holds. -/
def LoopCondition.IsTelling (condition : LoopCondition) : Prop :=
  ∀ text, condition = .test text → text ≠ LoopCondition.always.text

theorem LoopCondition.IsTelling.eq_of_text {condition condition' : LoopCondition}
    (h : condition.IsTelling) (h' : condition'.IsTelling)
    (htext : condition.text = condition'.text) : condition = condition' := by
  cases condition with
  | always =>
    cases condition' with
    | always => rfl
    | test text' => exact absurd htext.symm (h' text' rfl)
  | test text =>
    cases condition' with
    | always => exact absurd htext (h text rfl)
    | test text' => exact congrArg LoopCondition.test htext

theorem Plan.Describes.isTelling_condition {plan : Plan} {query : Query}
    (h : plan.Describes query) : plan.condition.IsTelling := by
  rintro text htest rfl
  cases hcondition : query.condition with
  | none =>
    rw [h.always hcondition] at htest
    cases htest
  | some e =>
    obtain ⟨text', htext, htest'⟩ := h.test e hcondition
    rw [htest, LoopCondition.test.injEq] at htest'
    rw [← htest'] at htext
    exact absurd ((h.condition e hcondition).blank_mem_targetText htext) (by decide)

/-! ## Names of the pins -/

/-- What is sorted to the same pins is the same. -/
theorem PinUsage.eq_of_partition {usage usage' : PinUsage} {pins : PinSets}
    (hsubset : ∀ name ∈ usage.outputs, name ∈ usage.referenced)
    (hsubset' : ∀ name ∈ usage'.outputs, name ∈ usage'.referenced)
    (h : usage.partition = .ok pins) (h' : usage'.partition = .ok pins) : usage = usage' := by
  have hsorted := sorted_of_partition hsubset h
  have hsorted' := sorted_of_partition hsubset' h'
  have hreferenced : usage.referenced = usage'.referenced := OrderedSet.ext_mem <|
    Set.ext_iff.1 (hsorted.inputs.image_eq.symm.trans hsorted'.inputs.image_eq)
  have houtputs : usage.outputs = usage'.outputs := OrderedSet.ext_mem <|
    Set.ext_iff.1 (hsorted.outputs.image_eq.symm.trans hsorted'.outputs.image_eq)
  cases usage
  cases usage'
  simp_all

/-! ## Plans -/

namespace Plan

/-- The plans whose parts fit in a listing: every part stays on its line and is written in a way
that nothing else is. -/
structure IsListable (plan : Plan) : Prop where
  target : IsLine plan.target
  condition : IsLine plan.condition.text
  telling : plan.condition.IsTelling
  baud : plan.baud.IsWritable
  seconds : plan.sleep.seconds.IsWritable
  sleep : plan.sleep = .ofSeconds plan.sleep.seconds
  partition : plan.usage.partition = .ok plan.pins
  subset : ∀ name ∈ plan.usage.outputs, name ∈ plan.usage.referenced

/-- Two plans ask the same of a board. The seconds of a delay only count if they are positive. -/
structure Agrees (plan plan' : Plan) : Prop where
  target : plan.target = plan'.target
  baud : plan.baud = plan'.baud
  pins : plan.pins = plan'.pins
  usage : plan.usage = plan'.usage
  condition : plan.condition = plan'.condition
  positive : plan.sleep.positive = plan'.sleep.positive
  delay : plan.sleep.positive = true → plan.sleep = plan'.sleep

theorem isListable_of_planSource {known : OrderedSet String} {source : String} {query : Query}
    {plan : Plan} (h : planSource known source = .ok (query, plan)) : plan.IsListable := by
  obtain ⟨hparse, hplan⟩ := planSource_eq_ok_iff.1 h
  have hshaped := wellShaped_of_parse hparse
  have hdescribes := describes_of_ofQuery hplan
  have hanswers := answers_of_ofQuery hplan
  refine ⟨?_, hdescribes.isLine_condition, hdescribes.isTelling_condition, ?_, ?_, ?_, ?_, ?_⟩
  · rw [hdescribes.target]
    exact fun hmem => absurd (hshaped.target _ hmem) (by decide)
  · rw [hanswers.baud]
    cases hspeed : query.speed with
    | none => decide
    | some literal => exact hshaped.speed literal hspeed
  · rw [hanswers.sleep]
    cases hsleep : query.sleep with
    | none => decide
    | some literal => exact hshaped.sleep literal hsleep
  · rw [hanswers.sleep]
    cases query.sleep <;> rfl
  · rw [hdescribes.usage]
    exact hdescribes.pins
  · exact fun name hname => (hanswers.mem_referenced name).2 (.inl hname)

end Plan

/-! ## Listings -/

/-- The lines of a text are told apart by the text. -/
theorem unlines_inj {lines lines' : List String} (h : ∀ line ∈ lines, IsLine line)
    (h' : ∀ line ∈ lines', IsLine line) (heq : unlines lines = unlines lines') :
    lines = lines' := by
  have hsplit := congrArg (fun text : String => split '\n' text.toList) heq
  simp only [split_unlines h, split_unlines h'] at hsplit
  have hlists := List.append_cancel_right hsplit
  exact List.map_injective_iff.2 (fun _ _ => String.toList_injective) hlists

namespace Plan.IsListable

variable {plan plan' : Plan}

theorem isLine_of_mem_lines (h : plan.IsListable) :
    ∀ line ∈ Listing.lines plan, IsLine line := by
  have hindices {heading : String} (hheading : IsLine heading) (set : OrderedSet Nat) :
      IsLine (heading ++ Listing.indices set) := hheading.append (Listing.isLine_indices set)
  simp only [Listing.lines, List.forall_mem_cons]
  exact ⟨IsLine.append (by decide) h.target, IsLine.append (by decide) plan.baud.isLine_text,
    IsLine.append (by decide) (Listing.isLine_sleep _), hindices (by decide) _,
    hindices (by decide) _, hindices (by decide) _, hindices (by decide) _,
    IsLine.append (by decide) h.condition, List.forall_mem_nil _⟩

/-- The lines of a listing, each read behind its heading, are the parts of the plan. -/
theorem agrees_of_lines (h : plan.IsListable) (h' : plan'.IsListable)
    (hlines : Listing.lines plan = Listing.lines plan') : plan.Agrees plan' := by
  simp only [Listing.lines, List.cons.injEq, String.append_right_inj, and_true] at hlines
  obtain ⟨htarget, hbaud, hsleep, hdigitalIn, hanalogIn, hdigitalOut, hanalogOut, hcondition⟩ :=
    hlines
  have hpins : plan.pins = plan'.pins := by
    rw [PinSets.mk.injEq]
    exact ⟨Listing.indices_inj hdigitalIn, Listing.indices_inj hanalogIn,
      Listing.indices_inj hdigitalOut, Listing.indices_inj hanalogOut⟩
  obtain ⟨hpositive, hseconds⟩ := Listing.sleep_inj hsleep h.seconds h'.seconds
  refine ⟨htarget, h.baud.eq_of_text h'.baud hbaud, hpins,
    PinUsage.eq_of_partition h.subset h'.subset h.partition (hpins ▸ h'.partition),
    h.telling.eq_of_text h'.telling hcondition, hpositive, fun hdelay => ?_⟩
  rw [h.sleep, h'.sleep, hseconds hdelay]

end Plan.IsListable

theorem Plan.Agrees.lines_eq {plan plan' : Plan} (h : plan.Agrees plan') :
    Listing.lines plan = Listing.lines plan' := by
  have hsleep : Listing.sleep plan.sleep = Listing.sleep plan'.sleep := by
    unfold Listing.sleep
    rw [← h.positive]
    split
    next hpositive => rw [h.delay hpositive]
    next => rfl
  rw [Listing.lines, Listing.lines, h.target, h.baud, hsleep, h.pins, h.condition]

/-- **Listings show the whole plan.** Whatever the known targets are, two sources have the same
listing if and only if their plans agree: in the target, the speed, the pins with their names, the
condition and the delay, if there is one. -/
theorem listing_shows_plan {known known' : OrderedSet String} {source source' : String}
    {query query' : Query} {plan plan' : Plan}
    (h : planSource known source = .ok (query, plan))
    (h' : planSource known' source' = .ok (query', plan')) :
    Listing.renderer.render plan = Listing.renderer.render plan' ↔ plan.Agrees plan' := by
  have hlistable := Plan.isListable_of_planSource h
  have hlistable' := Plan.isListable_of_planSource h'
  refine ⟨fun hrender => ?_, fun hagrees => congrArg unlines hagrees.lines_eq⟩
  exact hlistable.agrees_of_lines hlistable'
    (unlines_inj hlistable.isLine_of_mem_lines hlistable'.isLine_of_mem_lines hrender)

/-- The listing of a query in two spellings. -/
def spellingsLines : List String :=
  ["target: lab", "speed: 9600", "sleep: 1.5s (1500ms)", "digital in: 1", "analog in: 2",
    "digital out: 1", "analog out: 2", "condition: !(din1 == 0)"]

theorem listing_shows_plan_spellings : ∃ planned planned' : Query × Plan,
    planSource (.ofList ["lab"]) "SELECT din1, ain2 FROM lab WHERE NOT din1 = 0 RSLEEP 1.5" =
        .ok planned ∧
      planSource (.ofList ["dev", "lab"])
          "SELECT ain2, din1, din1 FROM \x60lab\x60 WHERE (NOT (din1 = 0)) RSLEEP +15e-1" =
        .ok planned' ∧
      planned.2.Agrees planned'.2 := by
  have hplanned {result : Except CompileError (Query × Plan)}
      (h : result.toOption.map (fun planned => Listing.lines planned.2) = some spellingsLines) :
      ∃ planned, result = .ok planned ∧ Listing.lines planned.2 = spellingsLines := by
    cases result with
    | error e => cases h
    | ok planned => exact ⟨planned, rfl, Option.some.inj h⟩
  obtain ⟨planned, h, hlines⟩ := @hplanned (planSource (.ofList ["lab"])
    "SELECT din1, ain2 FROM lab WHERE NOT din1 = 0 RSLEEP 1.5") (by decide +kernel)
  obtain ⟨planned', h', hlines'⟩ := @hplanned (planSource (.ofList ["dev", "lab"])
    "SELECT ain2, din1, din1 FROM \x60lab\x60 WHERE (NOT (din1 = 0)) RSLEEP +15e-1")
    (by decide +kernel)
  exact ⟨planned, planned', h, h',
    (listing_shows_plan h h').1 (congrArg unlines (hlines.trans hlines'.symm))⟩

end PinQuery
