import PinQuery.Text.Line

/-!
# Stretches of a text

The stretches between the marks of a text hold no mark, and a text that is put together from two
with a mark between them has the stretches of both.
-/

namespace PinQuery.Text

theorem exists_split_eq_cons (mark : Char) (cs : List Char) :
    ∃ piece rest, split mark cs = piece :: rest := by
  cases cs with
  | nil => exact ⟨[], [], rfl⟩
  | cons c cs =>
    rw [split]
    split
    next => exact ⟨_, _, rfl⟩
    next => split <;> exact ⟨_, _, rfl⟩

theorem split_cons_of_ne {mark c : Char} (hc : c ≠ mark) (cs : List Char) :
    ∃ piece rest, split mark cs = piece :: rest ∧
      split mark (c :: cs) = (c :: piece) :: rest := by
  obtain ⟨piece, rest, hsplit⟩ := exists_split_eq_cons mark cs
  exact ⟨piece, rest, hsplit, by simp [split, hc, hsplit]⟩

theorem split_ne_singleton_nil (mark c : Char) (cs : List Char) :
    split mark (c :: cs) ≠ [[]] := by
  by_cases hc : c = mark
  · obtain ⟨piece, rest, hsplit⟩ := exists_split_eq_cons mark cs
    simp [split, hc, hsplit]
  · obtain ⟨piece, rest, -, hsplit⟩ := split_cons_of_ne hc cs
    simp [hsplit]

/-- The last stretch of a text is empty where the text ends in the mark. -/
theorem getLast?_split {mark : Char} {cs : List Char} (h : cs ≠ []) :
    (split mark cs).getLast? = some [] ↔ cs.getLast? = some mark := by
  induction cs with
  | nil => exact absurd rfl h
  | cons c cs ih =>
    cases cs with
    | nil => by_cases hc : c = mark <;> simp [split, hc]
    | cons d ds =>
      rw [List.getLast?_cons_cons, ← ih (by simp)]
      by_cases hc : c = mark
      · obtain ⟨piece, rest, hsplit⟩ := exists_split_eq_cons mark (d :: ds)
        have hsplit' : split mark (c :: d :: ds) = [] :: piece :: rest := by
          rw [split, hsplit]
          simp [hc]
        simp [hsplit, hsplit']
      · obtain ⟨piece, rest, hsplit, hsplit'⟩ := split_cons_of_ne hc (d :: ds)
        have hne := split_ne_singleton_nil mark d ds
        rw [hsplit] at hne
        rw [hsplit, hsplit']
        cases rest with
        | nil => simpa using hne
        | cons next rest => simp

theorem split_append (mark : Char) (cs ds : List Char) :
    split mark (cs ++ mark :: ds) = split mark cs ++ split mark ds := by
  induction cs with
  | nil => simp [split]
  | cons c cs ih =>
    by_cases hc : c = mark
    · simp [split, hc, ih]
    · obtain ⟨piece, rest, hsplit⟩ := exists_split_eq_cons mark cs
      simp [split, hc, ih, hsplit]

theorem split_of_not_mem {mark : Char} {cs : List Char} (h : mark ∉ cs) : split mark cs = [cs] := by
  induction cs with
  | nil => rfl
  | cons c cs ih =>
    have hc : c ≠ mark := fun hc => h (by simp [hc])
    have hcs : mark ∉ cs := fun hcs => h (by simp [hcs])
    simp [split, hc, ih hcs]

theorem not_mem_of_mem_split {mark : Char} {cs piece : List Char} (h : piece ∈ split mark cs) :
    mark ∉ piece ∧ ∀ c ∈ piece, c ∈ cs := by
  induction cs generalizing piece with
  | nil => simp_all [split]
  | cons c cs ih =>
    by_cases hc : c = mark
    · simp only [split, hc, beq_self_eq_true, if_true, List.mem_cons] at h
      rcases h with rfl | h
      · simp
      · exact ⟨(ih h).1, fun d hd => List.mem_cons_of_mem c ((ih h).2 d hd)⟩
    · obtain ⟨first, rest, hsplit, hsplit'⟩ := split_cons_of_ne hc cs
      rw [hsplit'] at h
      rw [hsplit] at ih
      rcases List.mem_cons.1 h with rfl | h
      · obtain ⟨hmark, hmem⟩ := ih (List.mem_cons_self)
        refine ⟨by simp [hmark, Ne.symm hc], ?_⟩
        intro d hd
        rcases List.mem_cons.1 hd with rfl | hd
        · exact List.mem_cons_self
        · exact List.mem_cons_of_mem c (hmem d hd)
      · obtain ⟨hmark, hmem⟩ := ih (List.mem_cons_of_mem first h)
        exact ⟨hmark, fun d hd => List.mem_cons_of_mem c (hmem d hd)⟩

/-- The stretches of a text with the mark between them are the text. -/
theorem intercalate_split (mark : Char) (cs : List Char) :
    [mark].intercalate (split mark cs) = cs := by
  induction cs with
  | nil => rfl
  | cons c cs ih =>
    by_cases hc : c = mark
    · obtain ⟨piece, rest, hsplit⟩ := exists_split_eq_cons mark cs
      have hcons : split mark (c :: cs) = [] :: piece :: rest := by simp [split, hc, hsplit]
      rw [hcons, List.intercalate_cons_cons, ← hsplit, ih, hc]
      rfl
    · obtain ⟨piece, rest, hsplit, hcons⟩ := split_cons_of_ne hc cs
      rw [hsplit] at ih
      rw [hcons, ← ih]
      cases rest with
      | nil => rfl
      | cons next rest => simp [List.intercalate_cons_cons]

/-- With a mark behind each of them, the stretches of a text are the text and a mark. -/
theorem flatMap_split (mark : Char) (cs : List Char) :
    (split mark cs).flatMap (· ++ [mark]) = cs ++ [mark] := by
  induction cs with
  | nil => rfl
  | cons c cs ih =>
    by_cases hc : c = mark
    · have hcons : split mark (c :: cs) = [] :: split mark cs := by simp [split, hc]
      rw [hcons, List.flatMap_cons, ih, hc]
      rfl
    · obtain ⟨piece, rest, hsplit, hcons⟩ := split_cons_of_ne hc cs
      rw [hsplit, List.flatMap_cons] at ih
      rw [hcons, List.flatMap_cons, List.cons_append, List.cons_append, ih]
      rfl

/-- A text without the mark in front belongs to the first stretch. -/
theorem split_append_left {mark : Char} {head : List Char} (h : mark ∉ head) (cs : List Char) :
    ∃ piece rest, split mark (head ++ cs) = (head ++ piece) :: rest := by
  induction head with
  | nil => exact exists_split_eq_cons mark cs
  | cons c head ih =>
    obtain ⟨hc, hhead⟩ := not_or.1 (mt List.mem_cons.2 h)
    obtain ⟨piece, rest, hsplit⟩ := ih hhead
    obtain ⟨piece', rest', hsplit', hcons⟩ := split_cons_of_ne (Ne.symm hc) (head ++ cs)
    rw [hsplit] at hsplit'
    cases hsplit'
    exact ⟨piece, rest, hcons⟩

/-- A text without the mark at the end belongs to the last stretch. -/
theorem split_append_right {mark : Char} {tail : List Char} (h : mark ∉ tail) (cs : List Char) :
    ∃ front last, split mark (cs ++ tail) = front ++ [last ++ tail] := by
  induction cs with
  | nil => exact ⟨[], [], split_of_not_mem h⟩
  | cons c cs ih =>
    obtain ⟨front, last, hsplit⟩ := ih
    by_cases hc : c = mark
    · exact ⟨[] :: front, last, by simp [split, hc, hsplit]⟩
    · obtain ⟨piece, rest, hsplit', hcons⟩ := split_cons_of_ne hc (cs ++ tail)
      rw [hsplit] at hsplit'
      cases front with
      | nil =>
        cases hsplit'
        exact ⟨[], c :: last, hcons⟩
      | cons first front =>
        cases hsplit'
        exact ⟨(c :: piece) :: front, last, hcons⟩

end PinQuery.Text
