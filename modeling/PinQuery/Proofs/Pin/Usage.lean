import Mathlib.Data.List.Induction
import Mathlib.Data.Set.Function
import PinQuery.Proofs.Plan.Exactness
import PinQuery.Proofs.Text.Order

/-!
# The pins that are collected are the pins that are sorted

Names are collected one mention after another, also names of no pin. Sorting them by kind then neither
loses nor merges any.

* `PinUsage.record`, `PinUsage.ofMentions`: collecting one mention, and a whole run of them.
* `PinUsage.Records`: what is collected are the names mentioned. One mention keeps this
  (`PinUsage.Records.record`), and so does a run (`PinUsage.records_ofMentions`).
* `PinUsage.partition_eq_error_iff`: sorting fails for the first name of no pin.
* `PinUsage.Sorted`: the sorted pins and the names collected are the same, one for one.
* `pins_sorted_of_mentions`: all of it for a run from nothing.
-/

namespace PinQuery

/-! ## Collecting -/

namespace PinUsage

/-- A pin is mentioned, to print it or to test it. -/
inductive Mention
  | output (name : String)
  | input (name : String)
deriving DecidableEq

/-- The name in a mention. -/
def Mention.name : Mention → String
  | .output name => name
  | .input name => name

/-- One more mention. -/
def record (usage : PinUsage) : Mention → PinUsage
  | .output name => usage.addOutput name
  | .input name => usage.addInput name

/-- The pins mentioned in a run. -/
def ofMentions (mentions : List Mention) : PinUsage := mentions.foldl record empty

/-- The names collected are those mentioned, and those printed are those mentioned for it. -/
structure Records (usage : PinUsage) (mentions : List Mention) : Prop where
  mem_outputs : ∀ name, name ∈ usage.outputs ↔ .output name ∈ mentions
  mem_referenced : ∀ name, name ∈ usage.referenced ↔ ∃ mention ∈ mentions, mention.name = name

variable {usage : PinUsage} {mentions : List Mention}

theorem Records.record (h : usage.Records mentions) (mention : Mention) :
    (usage.record mention).Records (mentions ++ [mention]) := by
  obtain ⟨houtputs, hreferenced⟩ := h
  cases mention with
  | output name =>
    refine ⟨fun other => ?_, fun other => ?_⟩
    · simp [PinUsage.record, addOutput, houtputs, or_comm]
    · simp [PinUsage.record, addOutput, hreferenced, Mention.name, or_comm, or_and_right, exists_or,
        eq_comm (a := other)]
  | input name =>
    refine ⟨fun other => ?_, fun other => ?_⟩
    · simp [PinUsage.record, addInput, houtputs]
    · simp [PinUsage.record, addInput, hreferenced, Mention.name, or_comm, or_and_right, exists_or,
        eq_comm (a := other)]

theorem records_ofMentions (mentions : List Mention) : (ofMentions mentions).Records mentions := by
  induction mentions using List.reverseRecOn with
  | nil => exact ⟨by simp [ofMentions, empty], by simp [ofMentions, empty]⟩
  | append_singleton mentions mention ih =>
    rw [ofMentions, List.foldl_append]
    exact ih.record mention

/-- What is printed is also collected. -/
theorem Records.outputs_subset (h : usage.Records mentions) :
    ∀ name ∈ usage.outputs, name ∈ usage.referenced := by
  intro name hname
  exact (h.mem_referenced name).2 ⟨_, (h.mem_outputs name).1 hname, rfl⟩

end PinUsage

/-! ## Names of no pin -/

/-- Where a function fails on a list, it fails on one element after it succeeds on those in front. -/
theorem exists_append_of_mapM_eq_error {ε α β : Type} {f : α → Except ε β} {l : List α} {error : ε}
    (h : l.mapM f = .error error) : ∃ before a after, l = before ++ a :: after ∧
      (∀ b ∈ before, ∃ result, f b = .ok result) ∧ f a = .error error := by
  induction l with
  | nil => cases h
  | cons a l ih =>
    rw [List.mapM_cons] at h
    cases ha : f a with
    | error e =>
      rw [ha] at h
      cases h
      exact ⟨[], a, l, rfl, by simp, ha⟩
    | ok result =>
      rw [ha] at h
      have hrest : l.mapM f = .error error := by
        cases hl : l.mapM f with
        | error e =>
          rw [hl] at h
          cases h
          rfl
        | ok results =>
          rw [hl] at h
          cases h
      obtain ⟨before, b, after, rfl, hbefore, hb⟩ := ih hrest
      exact ⟨a :: before, b, after, rfl, List.forall_mem_cons.2 ⟨⟨result, ha⟩, hbefore⟩, hb⟩

theorem Pin.classify_eq_error_iff {text : String} {error : SemanticError} :
    Pin.classify text = .error error ↔ ¬IsPinName text ∧ error = .unsupported text ⟨0, 0⟩ := by
  rw [IsPinName, lookup?_eq_ofName?, classify]
  cases ofName? text <;> simp [eq_comm (a := error)]

theorem Pin.isPinName_iff_classify {text : String} :
    IsPinName text ↔ ∃ pin, classify text = .ok pin := by
  simp only [isPinName_iff, classify_eq_ok_iff]

theorem Pin.isPinName_of_mapM_classify {names : List String} {pins : List Pin}
    (h : names.mapM classify = .ok pins) : ∀ name ∈ names, IsPinName name :=
  fun name hname => isPinName_iff_classify.2 ((mem_iff_of_mapM_eq_ok h).1 name hname)

/-- The first name in a set that is not that of a pin, in the order of bytes. -/
structure IsFirstUnknown (names : OrderedSet String) (name : String) : Prop where
  mem : name ∈ names
  unknown : ¬IsPinName name
  least : ∀ other ∈ names, ¬IsPinName other → Text.bytes name ≤ Text.bytes other

theorem IsFirstUnknown.unique {names : OrderedSet String} {name name' : String}
    (h : IsFirstUnknown names name) (h' : IsFirstUnknown names name') : name = name' := by
  have hle := h.least name' h'.mem h'.unknown
  have hle' := h'.least name h.mem h.unknown
  rw [← List.not_lt, ← Text.lt_iff_bytes_lt] at hle hle'
  exact eq_of_not_lt_of_not_lt hle' hle

/-- Where a set of names cannot be taken apart, its first unknown name is to blame. -/
theorem Pin.exists_isFirstUnknown {names : OrderedSet String} {error : SemanticError}
    (h : names.toList.mapM classify = .error error) :
    ∃ name, IsFirstUnknown names name ∧ error = .unsupported name ⟨0, 0⟩ := by
  obtain ⟨before, name, after, hcut, hbefore, hname⟩ := exists_append_of_mapM_eq_error h
  obtain ⟨hunknown, rfl⟩ := classify_eq_error_iff.1 hname
  refine ⟨name, ⟨?_, hunknown, fun other hother hne => ?_⟩, rfl⟩
  · rw [OrderedSet.mem_def, hcut]
    simp
  · have hincreasing := names.increasing
    rw [OrderedSet.mem_def, hcut] at hother
    rw [hcut] at hincreasing
    rcases List.mem_append.1 hother with hother | hother
    · exact absurd (isPinName_iff_classify.2 (hbefore other hother)) hne
    · rcases List.mem_cons.1 hother with rfl | hother
      · exact List.le_refl _
      · have hafter := (List.pairwise_cons.1 (List.pairwise_append.1 hincreasing).2.1).1
        exact List.le_of_lt (Text.lt_iff_bytes_lt.1 (hafter other hother))

namespace PinUsage

variable {usage : PinUsage} {pins : PinSets}

/-- Sorting succeeds only if all names are those of pins. -/
theorem isPinName_of_partition (h : usage.partition = .ok pins) :
    ∀ name ∈ usage.referenced, IsPinName name := by
  obtain ⟨inputs, hinputs, -⟩ := bind_eq_ok_iff.1 h
  exact Pin.isPinName_of_mapM_classify hinputs

/-- Sorting fails for the first name that is not that of a pin, and only for this one. -/
theorem partition_eq_error_iff (hsubset : ∀ name ∈ usage.outputs, name ∈ usage.referenced)
    {error : SemanticError} : usage.partition = .error error ↔
      ∃ name, IsFirstUnknown usage.referenced name ∧ error = .unsupported name ⟨0, 0⟩ := by
  constructor
  · intro h
    cases hinputs : usage.referenced.toList.mapM Pin.classify with
    | error e =>
      have herror : usage.partition = .error e := by
        rw [partition, hinputs]
        rfl
      rw [herror, Except.error.injEq] at h
      exact h ▸ Pin.exists_isFirstUnknown hinputs
    | ok inputs =>
      -- All names collected are those of pins, so those printed are, and nothing fails.
      have hall : ∀ name ∈ usage.referenced, IsPinName name :=
        Pin.isPinName_of_mapM_classify hinputs
      obtain ⟨pins, hpins⟩ := exists_partition hall fun name hname => hall name (hsubset name hname)
      rw [hpins] at h
      cases h
  · rintro ⟨name, hfirst, rfl⟩
    cases hinputs : usage.referenced.toList.mapM Pin.classify with
    | error e =>
      obtain ⟨name', hfirst', rfl⟩ := Pin.exists_isFirstUnknown hinputs
      rw [hfirst.unique hfirst', partition, hinputs]
      rfl
    | ok inputs =>
      exact absurd (Pin.isPinName_of_mapM_classify hinputs name hfirst.mem) hfirst.unknown

/-! ## Sorting -/

/-- The pins with an index in the set of their kind. -/
def pinsOf (digital analog : OrderedSet Nat) : Set Pin
  | ⟨.digital, index⟩ => index ∈ digital
  | ⟨.analog, index⟩ => index ∈ analog

/-- The sorted pins are those of the names collected: writing their names down again gives each name
once, and what is printed is also read. -/
structure Sorted (usage : PinUsage) (pins : PinSets) : Prop where
  inputs : Set.BijOn Pin.name (pinsOf pins.digitalIn pins.analogIn) {name | name ∈ usage.referenced}
  outputs : Set.BijOn Pin.name (pinsOf pins.digitalOut pins.analogOut) {name | name ∈ usage.outputs}
  digital : ∀ index ∈ pins.digitalOut, index ∈ pins.digitalIn
  analog : ∀ index ∈ pins.analogOut, index ∈ pins.analogIn

/-- Pins that are told apart by their names, and all names of pins: a bijection. -/
theorem bijOn_name {pins : Set Pin} {names : OrderedSet String}
    (hpins : ∀ pin, pin ∈ pins ↔ pin.name ∈ names) (hnames : ∀ name ∈ names, IsPinName name) :
    Set.BijOn Pin.name pins {name | name ∈ names} := by
  refine ⟨fun pin hpin => (hpins pin).1 hpin, fun _ _ _ _ h => Pin.name_inj.1 h, ?_⟩
  intro name hname
  obtain ⟨pin, -, rfl⟩ := isPinName_iff.1 (hnames name hname)
  exact ⟨pin, (hpins pin).2 hname, rfl⟩

theorem sorted_of_partition (hsubset : ∀ name ∈ usage.outputs, name ∈ usage.referenced)
    (h : usage.partition = .ok pins) : usage.Sorted pins := by
  have hmem := mem_pins h
  have hreferenced := isPinName_of_partition h
  refine ⟨bijOn_name ?_ hreferenced, bijOn_name ?_ fun name hname =>
    hreferenced name (hsubset name hname), fun index hindex => ?_, fun index hindex => ?_⟩
  · rintro ⟨kind, index⟩
    cases kind with
    | digital => exact (hmem index).1
    | analog => exact (hmem index).2.1
  · rintro ⟨kind, index⟩
    cases kind with
    | digital => exact (hmem index).2.2.1
    | analog => exact (hmem index).2.2.2
  · exact (hmem index).1.2 (hsubset _ ((hmem index).2.2.1.1 hindex))
  · exact (hmem index).2.1.2 (hsubset _ ((hmem index).2.2.2.1 hindex))

end PinUsage

/-- **Over any run of mentions no pin is lost, merged or doubled.** What is printed is collected, and
what is collected are the names mentioned. Sorting succeeds if and only if all of them are names of
pins, else it fails for the first that is not. Sorted, the pins are those of the names, one for one. -/
theorem pins_sorted_of_mentions (mentions : List PinUsage.Mention) :
    (∀ name ∈ (PinUsage.ofMentions mentions).outputs,
      name ∈ (PinUsage.ofMentions mentions).referenced) ∧
    (PinUsage.ofMentions mentions).Records mentions ∧
    ((∃ pins, (PinUsage.ofMentions mentions).partition = .ok pins) ↔
      ∀ name ∈ (PinUsage.ofMentions mentions).referenced, IsPinName name) ∧
    (∀ error, (PinUsage.ofMentions mentions).partition = .error error ↔
      ∃ name, IsFirstUnknown (PinUsage.ofMentions mentions).referenced name ∧
        error = .unsupported name ⟨0, 0⟩) ∧
    ∀ pins, (PinUsage.ofMentions mentions).partition = .ok pins →
      (PinUsage.ofMentions mentions).Sorted pins := by
  have hrecords := PinUsage.records_ofMentions mentions
  have hsubset := hrecords.outputs_subset
  refine ⟨hsubset, hrecords, ⟨fun ⟨pins, hpins⟩ => PinUsage.isPinName_of_partition hpins,
    fun hall => ?_⟩, fun error => PinUsage.partition_eq_error_iff hsubset,
    fun pins hpins => PinUsage.sorted_of_partition hsubset hpins⟩
  exact PinUsage.exists_partition hall fun name hname => hall name (hsubset name hname)

example : (PinUsage.ofMentions [.output "din3", .output "ain1", .input "din10",
    .input "ain7"]).partition = .ok ⟨.ofList [3, 10], .ofList [1, 7], .ofList [3], .ofList [1]⟩ := by
  decide +kernel

end PinQuery
