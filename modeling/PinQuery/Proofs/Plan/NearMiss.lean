import PinQuery.Proofs.Compile
import PinQuery.Proofs.Plan.Suggestion

/-!
# Near misses

Candidates are compared with the name in lower case, but are not put in lower case themselves. Each
capital letter of the name or of the candidate may so cost one more edit, but no more than that.

* `Text.distance_toLower_le`: how far putting the name in lower case can take it from a candidate.
* `Text.IsNearMiss`: near enough to be found all the same.
* `near_miss_is_suggested`: a near miss is found, and an unknown target that is one is answered with
  the name of a registered target.
* `near_miss_in_capitals`: where both have capitals, a near miss is not found.
-/

namespace PinQuery

/-! ## The distance to a name in lower case -/

namespace Text

/-- The number of capital letters in a text. -/
def capitalCount (text : String) : Nat := text.toList.countP Char.isUpper

theorem toList_toLower (text : String) : text.toLower.toList = text.toList.map Char.toLower := by
  delta String.toLower
  exact String.toList_map

/-- Only capital letters change in lower case. -/
theorem isUpper_of_toLower_ne {c : Char} (h : c.toLower ≠ c) : c.isUpper = true := by
  by_contra hupper
  refine h ?_
  delta Char.toLower
  refine dif_neg fun hbounds => hupper ?_
  delta Char.isUpper
  simpa using hbounds

/-- A text is as far from itself in lower case as it has capital letters, at most. -/
theorem distance_map_toLower_le (text : String) :
    distance (text.toList.map Char.toLower) text.toList ≤ capitalCount text ∧
      distance text.toList (text.toList.map Char.toLower) ≤ capitalCount text := by
  have hlower := distance_map_map_le Char.toLower id text.toList
  have hraise := distance_map_map_le id Char.toLower text.toList
  rw [List.map_id] at hlower hraise
  constructor
  · refine hlower.trans (List.countP_mono_left fun c _ hne => ?_)
    exact isUpper_of_toLower_ne (by simpa using hne)
  · refine hraise.trans (List.countP_mono_left fun c _ hne => ?_)
    exact isUpper_of_toLower_ne (Ne.symm (by simpa using hne))

/-- Putting a name in lower case takes it no further from a candidate than either of the two has
capital letters. -/
theorem distance_toLower_le (name candidate : String) :
    distance name.toLower.toList candidate.toList ≤ distance name.toList candidate.toList +
      min (capitalCount name) (capitalCount candidate) := by
  rw [toList_toLower]
  -- Over the name as it is written, or over the candidate in lower case.
  have hname : distance (name.toList.map Char.toLower) candidate.toList ≤
      capitalCount name + distance name.toList candidate.toList :=
    (distance_triangle _ name.toList _).trans
      (Nat.add_le_add_right (distance_map_toLower_le name).1 _)
  have hcandidate : distance (name.toList.map Char.toLower) candidate.toList ≤
      distance name.toList candidate.toList + capitalCount candidate :=
    (distance_triangle _ (candidate.toList.map Char.toLower) _).trans
      (Nat.add_le_add (distance_map_le _ _ _) (distance_map_toLower_le candidate).1)
  omega

/-- A candidate at most two edits away, where a capital letter counts as one more edit if both the
name and the candidate have some. -/
def IsNearMiss (name candidate : String) : Prop :=
  distance name.toList candidate.toList + min (capitalCount name) (capitalCount candidate) ≤ 2

instance (name candidate : String) : Decidable (IsNearMiss name candidate) :=
  inferInstanceAs (Decidable (_ ≤ 2))

/-- Where there is a near miss, some candidate is found. -/
theorem exists_closest?_of_isNearMiss {name candidate : String} {candidates : List String}
    (hmem : candidate ∈ candidates) (h : IsNearMiss name candidate) :
    ∃ found ∈ candidates, closest? name candidates = some found := by
  cases hfound : closest? name candidates with
  | none =>
    have hfar := closest?_eq_none_iff.1 hfound candidate hmem
    have hle := distance_toLower_le name candidate
    unfold IsNearMiss at h
    omega
  | some found => exact ⟨found, (closest?_eq_some_iff.1 hfound).2.mem, rfl⟩

end Text

/-! ## Unknown targets -/

/-- **A near miss is never left without a suggestion**, as long as one of the two names has no
capital letters or these are few. Some candidate is found then, and if compiling fails for a target
that is a near miss of a registered one, the name of a registered one is suggested. -/
theorem near_miss_is_suggested {name candidate : String} (h : Text.IsNearMiss name candidate) :
    (∀ candidates : List String, candidate ∈ candidates →
      ∃ found ∈ candidates, Text.closest? name candidates = some found) ∧
    ∀ (registry : Registry) (source : String) (span : Span) (known : List String),
      compile registry source = .error (.planning (.unknownTarget name span known)) →
        candidate ∈ registry.names →
          ∃ found ∈ registry.names, (SemanticError.unknownTarget name span known).suggestion =
            SemanticError.didYouMean found := by
  refine ⟨fun candidates hmem => Text.exists_closest?_of_isNearMiss hmem h,
    fun registry source span known herror hmem => ?_⟩
  obtain ⟨found, hfound, hclosest⟩ := Text.exists_closest?_of_isNearMiss hmem h
  refine ⟨found, hfound, ?_⟩
  rw [TargetName.known_eq_of_compile herror, SemanticError.suggestion, hclosest]

/-- A registry with one target, whose programs are empty. -/
def Registry.single (name : String) : Registry := .register .empty ⟨name, "txt", fun _ => ""⟩

theorem near_miss_is_suggested_oneCapital :
    Text.IsNearMiss "esp3" "Esp32" ∧ Text.closest? "esp3" ["host", "Esp32"] ≠ none ∧
      ∃ span, compile (.single "Esp32") "SELECT din1 FROM esp3" =
          .error (.planning (.unknownTarget "esp3" span ["Esp32"])) ∧
        (SemanticError.unknownTarget "esp3" span ["Esp32"]).suggestion ≠ "Known targets: Esp32" := by
  have hmiss : Text.IsNearMiss "esp3" "Esp32" := by decide +kernel
  have herror : planSource (Registry.single "Esp32").names "SELECT din1 FROM esp3" =
      .error (.planning (.unknownTarget "esp3" ⟨17, 21⟩ ["Esp32"])) := by decide +kernel
  obtain ⟨hclosest, hsuggestion⟩ := near_miss_is_suggested hmiss
  obtain ⟨found, -, hfound⟩ := hclosest ["host", "Esp32"] (by decide)
  obtain ⟨target, -, htarget⟩ := hsuggestion (.single "Esp32") _ _ _
    (compile_eq_error_iff.2 herror) (by decide +kernel)
  refine ⟨hmiss, by simp [hfound], _, compile_eq_error_iff.2 herror, fun hknown => ?_⟩
  rw [htarget, ← String.toList_inj, SemanticError.toList_didYouMean] at hknown
  cases hknown

/-- Where both names have capitals, one edit is enough to be missed. -/
theorem near_miss_in_capitals :
    Text.distance "ESP33".toList "ESP32".toList = 1 ∧ Text.closest? "ESP33" ["ESP32"] = none ∧
      ∃ span, compile (.single "ESP32") "SELECT din1 FROM ESP33" =
          .error (.planning (.unknownTarget "ESP33" span ["ESP32"])) ∧
        (SemanticError.unknownTarget "ESP33" span ["ESP32"]).suggestion =
          "Known targets: ESP32" := by
  refine ⟨by decide +kernel, by decide +kernel, ⟨17, 22⟩, ?_, by decide +kernel⟩
  exact compile_eq_error_iff.2 (by decide +kernel)

end PinQuery
