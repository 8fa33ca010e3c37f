import Mathlib.Data.List.Induction
import PinQuery.Proofs.Text.Distance

/-!
# The closest candidate is the first of the nearest

The candidates are folded from left to right with the better of the best one so far and the next.
After each candidate the best one is the first of the nearest among those seen, if one of these is at
most two edits away.

* `IsFirstNearest` and `Best`: what is kept of the candidates seen.
* `Best.better`, `best_foldl`: it is kept with one more candidate, and over a whole list.
* `closest_is_first_of_nearest`: the closest candidate by the least number of edits.
-/

namespace PinQuery.Text

/-- No candidate is nearer to the name, and those in front of this one are further away. -/
def IsFirstNearest (name : List Char) (candidates : List String) (candidate : String) : Prop :=
  ∃ before after, candidates = before ++ candidate :: after ∧
    (∀ other ∈ before, distance name candidate.toList < distance name other.toList) ∧
    ∀ other ∈ after, distance name candidate.toList ≤ distance name other.toList

/-- What is best among candidates: none if all are too far away, else the first of the nearest. -/
inductive Best (name : List Char) (candidates : List String) : Option (Nat × String) → Prop
  | far (hfar : ∀ candidate ∈ candidates, 2 < distance name candidate.toList) :
      Best name candidates none
  | near {candidate : String} (hnear : distance name candidate.toList ≤ 2)
      (hfirst : IsFirstNearest name candidates candidate) :
      Best name candidates (some (distance name candidate.toList, candidate))

variable {name : List Char} {candidates : List String} {candidate : String}

namespace IsFirstNearest

theorem mem (h : IsFirstNearest name candidates candidate) : candidate ∈ candidates := by
  obtain ⟨before, after, rfl, -, -⟩ := h
  simp

theorem distance_le (h : IsFirstNearest name candidates candidate) :
    ∀ other ∈ candidates, distance name candidate.toList ≤ distance name other.toList := by
  obtain ⟨before, after, rfl, hbefore, hafter⟩ := h
  intro other hother
  rcases List.mem_append.1 hother with hother | hother
  · exact (hbefore other hother).le
  · rcases List.mem_cons.1 hother with rfl | hother
    · exact le_rfl
    · exact hafter other hother

/-- Further candidates that are no nearer change nothing. -/
theorem append (h : IsFirstNearest name candidates candidate) {more : List String}
    (hmore : ∀ other ∈ more, distance name candidate.toList ≤ distance name other.toList) :
    IsFirstNearest name (candidates ++ more) candidate := by
  obtain ⟨before, after, rfl, hbefore, hafter⟩ := h
  refine ⟨before, after ++ more, by simp, hbefore, fun other hother => ?_⟩
  rcases List.mem_append.1 hother with hother | hother
  · exact hafter other hother
  · exact hmore other hother

/-- A last candidate that is nearer than all others is the first of the nearest. -/
theorem last (h : ∀ other ∈ candidates,
    distance name candidate.toList < distance name other.toList) :
    IsFirstNearest name (candidates ++ [candidate]) candidate :=
  ⟨candidates, [], rfl, h, by simp⟩

/-- Of two candidates in one list neither is in front of the other. -/
theorem unique {candidate' : String} (h : IsFirstNearest name candidates candidate)
    (h' : IsFirstNearest name candidates candidate') : candidate = candidate' := by
  have hle := h.distance_le candidate' h'.mem
  have hle' := h'.distance_le candidate h.mem
  obtain ⟨before, after, hcut, hbefore, -⟩ := h
  obtain ⟨before', after', hcut', hbefore', -⟩ := h'
  rw [hcut] at hcut'
  rcases List.append_eq_append_iff.1 hcut' with ⟨front, rfl, hfront⟩ | ⟨front, rfl, hfront⟩
  · cases front with
    | nil => exact (List.cons.inj hfront).1
    | cons other front =>
      obtain rfl := (List.cons.inj hfront).1
      exact absurd hle (Nat.not_le.2 (hbefore' candidate (by simp)))
  · cases front with
    | nil => exact (List.cons.inj hfront).1.symm
    | cons other front =>
      obtain rfl := (List.cons.inj hfront).1
      exact absurd hle' (Nat.not_le.2 (hbefore candidate' (by simp)))

end IsFirstNearest

namespace Best

variable {best : Option (Nat × String)}

/-- The better of the best candidate and one more is the best of them all. -/
theorem better (h : Best name candidates best) (candidate : String) :
    Best name (candidates ++ [candidate]) (better name best candidate) := by
  unfold Text.better
  dsimp only
  split
  next hfar =>
    cases h with
    | far hall =>
      refine .far fun other hother => ?_
      rcases List.mem_append.1 hother with hother | hother
      · exact hall other hother
      · rwa [List.mem_singleton.1 hother]
    | near hnear hfirst =>
      refine .near hnear (hfirst.append fun other hother => ?_)
      rw [List.mem_singleton.1 hother]
      omega
  next hfar =>
    have hnear' : distance name candidate.toList ≤ 2 := by omega
    cases h with
    | far hall =>
      refine .near hnear' (.last fun other hother => ?_)
      have hother := hall other hother
      omega
    | near hnear hfirst =>
      dsimp only
      split
      next hless =>
        refine .near hnear' (.last fun other hother => ?_)
        exact hless.trans_le (hfirst.distance_le other hother)
      next hless =>
        refine .near hnear (hfirst.append fun other hother => ?_)
        rw [List.mem_singleton.1 hother]
        omega

theorem eq_none_iff (h : Best name candidates best) :
    best = none ↔ ∀ candidate ∈ candidates, 2 < distance name candidate.toList := by
  cases h with
  | far hfar => exact ⟨fun _ => hfar, fun _ => rfl⟩
  | near hnear hfirst =>
    refine ⟨nofun, fun hfar => ?_⟩
    exact absurd hnear (Nat.not_le.2 (hfar _ hfirst.mem))

theorem map_snd_eq_some_iff (h : Best name candidates best) :
    best.map (·.2) = some candidate ↔
      distance name candidate.toList ≤ 2 ∧ IsFirstNearest name candidates candidate := by
  cases h with
  | far hfar =>
    refine ⟨nofun, fun ⟨hnear, hfirst⟩ => ?_⟩
    exact absurd hnear (Nat.not_le.2 (hfar _ hfirst.mem))
  | near hnear hfirst =>
    refine ⟨fun hsome => ?_, fun ⟨_, hfirst'⟩ => ?_⟩
    · obtain rfl := Option.some.inj hsome
      exact ⟨hnear, hfirst⟩
    · rw [hfirst.unique hfirst', Option.map_some]

end Best

/-- Folding a list of candidates keeps the best of them. -/
theorem best_foldl (name : List Char) (candidates : List String) :
    Best name candidates (candidates.foldl (better name) none) := by
  induction candidates using List.reverseRecOn with
  | nil => exact .far (by simp)
  | append_singleton candidates candidate ih =>
    rw [List.foldl_append]
    exact ih.better candidate

theorem closest?_eq_none_iff {name : String} :
    closest? name candidates = none ↔
      ∀ candidate ∈ candidates, 2 < distance name.toLower.toList candidate.toList := by
  rw [closest?, Option.map_eq_none_iff]
  exact (best_foldl _ _).eq_none_iff

theorem closest?_eq_some_iff {name : String} :
    closest? name candidates = some candidate ↔
      distance name.toLower.toList candidate.toList ≤ 2 ∧
        IsFirstNearest name.toLower.toList candidates candidate :=
  (best_foldl _ _).map_snd_eq_some_iff

/-- **The closest candidate is the first of those that the fewest edits of the name in lower case
lead to.** There is none if and only if each candidate takes more than two. -/
theorem closest_is_first_of_nearest (name : String) (candidates : List String) :
    (∀ candidate : String, IsLeast {n | Edits n name.toLower.toList candidate.toList}
      (distance name.toLower.toList candidate.toList)) ∧
    (closest? name candidates = none ↔
      ∀ candidate ∈ candidates, 2 < distance name.toLower.toList candidate.toList) ∧
    ∀ candidate, closest? name candidates = some candidate ↔
      distance name.toLower.toList candidate.toList ≤ 2 ∧
        ∃ before after, candidates = before ++ candidate :: after ∧
          (∀ other ∈ before, distance name.toLower.toList candidate.toList <
            distance name.toLower.toList other.toList) ∧
          ∀ other ∈ after, distance name.toLower.toList candidate.toList ≤
            distance name.toLower.toList other.toList :=
  ⟨fun _ => distance_isLeast _ _, closest?_eq_none_iff, fun _ => closest?_eq_some_iff⟩

end PinQuery.Text
