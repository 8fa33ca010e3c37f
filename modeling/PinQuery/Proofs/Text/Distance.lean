import Mathlib.Order.Bounds.Defs
import Mathlib.Order.MinMax
import PinQuery.Text.Distance

/-!
# The edit distance counts edits

An edit inserts, deletes or replaces one character. The row-by-row distance of two texts is the least
number of edits from one to the other.

* `distance_cons_cons`: the recursion that the rows compute.
* `edits_distance`: that many edits are enough.
* `Edit.distance_le`: one edit changes the distances of a text by at most one, so no fewer are.
* `distance_isLeast`: both together, with the triangle inequality `distance_triangle` from it.
-/

namespace PinQuery.Text

/-! ## Edits -/

/-- One character is inserted, deleted or replaced. -/
inductive Edit : List Char → List Char → Prop
  | insert (before : List Char) (c : Char) (after : List Char) :
      Edit (before ++ after) (before ++ c :: after)
  | delete (before : List Char) (c : Char) (after : List Char) :
      Edit (before ++ c :: after) (before ++ after)
  | replace (before : List Char) (c d : Char) (after : List Char) :
      Edit (before ++ c :: after) (before ++ d :: after)

/-- So many edits, one after another. -/
inductive Edits : Nat → List Char → List Char → Prop
  | refl (xs : List Char) : Edits 0 xs xs
  | step {n : Nat} {xs ys zs : List Char} (h : Edit xs ys) (hs : Edits n ys zs) :
      Edits (n + 1) xs zs

variable {xs ys zs : List Char}

theorem Edit.cons (c : Char) (h : Edit xs ys) : Edit (c :: xs) (c :: ys) := by
  cases h with
  | insert before d after => exact .insert (c :: before) d after
  | delete before d after => exact .delete (c :: before) d after
  | replace before d e after => exact .replace (c :: before) d e after

theorem Edit.map (f : Char → Char) (h : Edit xs ys) : Edit (xs.map f) (ys.map f) := by
  cases h with
  | insert before c after =>
    rw [List.map_append, List.map_append, List.map_cons]
    exact .insert _ _ _
  | delete before c after =>
    rw [List.map_append, List.map_append, List.map_cons]
    exact .delete _ _ _
  | replace before c d after =>
    rw [List.map_append, List.map_append, List.map_cons, List.map_cons]
    exact .replace _ _ _ _

namespace Edits

variable {m n : Nat}

theorem cons (c : Char) (h : Edits n xs ys) : Edits n (c :: xs) (c :: ys) := by
  induction h with
  | refl xs => exact .refl (c :: xs)
  | step h _ ih => exact .step (h.cons c) ih

theorem map (f : Char → Char) (h : Edits n xs ys) : Edits n (xs.map f) (ys.map f) := by
  induction h with
  | refl xs => exact .refl (xs.map f)
  | step h _ ih => exact .step (h.map f) ih

theorem trans (h : Edits m xs ys) (h' : Edits n ys zs) : Edits (m + n) xs zs := by
  induction h with
  | refl => rwa [Nat.zero_add]
  | step h _ ih =>
    rw [Nat.add_right_comm]
    exact .step h (ih h')

end Edits

/-! ## The recursion -/

/-- The rows are nested: that of a shorter text stands at the end. -/
theorem tail_distances (xs : List Char) (y : Char) (ys : List Char) :
    (distances xs (y :: ys)).tail = distances xs ys := by
  induction xs with
  | nil => rfl
  | cons x xs ih => rw [distances, extendRow, List.tail_cons, ih, distances]

@[simp] theorem distance_nil_left (ys : List Char) : distance [] ys = ys.length := by
  cases ys <;> rfl

@[simp] theorem distance_nil_right (xs : List Char) : distance xs [] = xs.length := by
  induction xs with
  | nil => rfl
  | cons x xs ih =>
    change distance xs [] + 1 = xs.length + 1
    rw [ih]

theorem distance_cons_cons (x : Char) (xs : List Char) (y : Char) (ys : List Char) :
    distance (x :: xs) (y :: ys) =
      min (min (distance xs (y :: ys) + 1) (distance (x :: xs) ys + 1))
        (distance xs ys + if x == y then 0 else 1) := by
  rw [distance, distances, extendRow, tail_distances]
  rfl

/-! ## So many edits are enough -/

theorem edits_length_left (ys : List Char) : Edits ys.length [] ys := by
  induction ys with
  | nil => exact .refl []
  | cons y ys ih => exact .step (.insert [] y []) (ih.cons y)

theorem edits_length_right (xs : List Char) : Edits xs.length xs [] := by
  induction xs with
  | nil => exact .refl []
  | cons x xs ih => exact .step (.delete [] x xs) ih

/-- Each of the three ways to the distance of two texts is taken by edits. -/
theorem edits_distance (xs ys : List Char) : Edits (distance xs ys) xs ys := by
  induction xs generalizing ys with
  | nil =>
    rw [distance_nil_left]
    exact edits_length_left ys
  | cons x xs ihx =>
    induction ys with
    | nil =>
      rw [distance_nil_right]
      exact edits_length_right (x :: xs)
    | cons y ys ihy =>
      rw [distance_cons_cons]
      rcases min_choice (min (distance xs (y :: ys) + 1) (distance (x :: xs) ys + 1))
        (distance xs ys + if x == y then 0 else 1) with h | h <;> rw [h]
      · rcases min_choice (distance xs (y :: ys) + 1) (distance (x :: xs) ys + 1) with h | h <;>
          rw [h]
        · exact .step (.delete [] x xs) (ihx (y :: ys))
        · exact .step (.insert [] y (x :: xs)) (ihy.cons y)
      · split
        next heq =>
          rw [beq_iff_eq.1 heq, Nat.add_zero]
          exact (ihx ys).cons y
        next => exact .step (.replace [] x y xs) ((ihx ys).cons y)

/-! ## Fewer are not -/

theorem distance_cons_left_le (x : Char) (xs zs : List Char) :
    distance (x :: xs) zs ≤ distance xs zs + 1 := by
  cases zs with
  | nil => simp
  | cons z zs =>
    rw [distance_cons_cons]
    omega

theorem distance_cons_right_le (xs : List Char) (z : Char) (zs : List Char) :
    distance xs (z :: zs) ≤ distance xs zs + 1 := by
  cases xs with
  | nil => simp
  | cons x xs =>
    rw [distance_cons_cons]
    omega

theorem distance_le_cons_left (x : Char) (xs zs : List Char) :
    distance xs zs ≤ distance (x :: xs) zs + 1 := by
  induction zs with
  | nil =>
    simp only [distance_nil_right, List.length_cons]
    omega
  | cons z zs ih =>
    have hright := distance_cons_right_le xs z zs
    rw [distance_cons_cons]
    omega

theorem distance_replace_le (x y : Char) (xs zs : List Char) :
    distance (x :: xs) zs ≤ distance (y :: xs) zs + 1 := by
  induction zs with
  | nil => simp
  | cons z zs ih =>
    rw [distance_cons_cons, distance_cons_cons]
    split <;> split <;> omega

theorem distance_cons_le_of_forall (x : Char) (h : ∀ zs, distance xs zs ≤ distance ys zs + 1)
    (zs : List Char) : distance (x :: xs) zs ≤ distance (x :: ys) zs + 1 := by
  induction zs with
  | nil => simpa using h []
  | cons z zs ih =>
    have hkeep := h (z :: zs)
    have hdrop := h zs
    rw [distance_cons_cons, distance_cons_cons]
    omega

theorem distance_append_le_of_forall (before : List Char)
    (h : ∀ zs, distance xs zs ≤ distance ys zs + 1) (zs : List Char) :
    distance (before ++ xs) zs ≤ distance (before ++ ys) zs + 1 := by
  induction before generalizing zs with
  | nil => exact h zs
  | cons c before ih => exact distance_cons_le_of_forall c ih zs

/-- One edit brings a text nearer to another by at most one. -/
theorem Edit.distance_le (h : Edit xs ys) (zs : List Char) :
    distance xs zs ≤ distance ys zs + 1 := by
  cases h with
  | insert before c after =>
    exact distance_append_le_of_forall before (distance_le_cons_left c after) zs
  | delete before c after =>
    exact distance_append_le_of_forall before (distance_cons_left_le c after) zs
  | replace before c d after =>
    exact distance_append_le_of_forall before (distance_replace_le c d after) zs

theorem distance_self (xs : List Char) : distance xs xs = 0 := by
  induction xs with
  | nil => rfl
  | cons x xs ih => rw [distance_cons_cons, ih, beq_self_eq_true, if_pos rfl, Nat.min_zero]

theorem Edits.distance_le {n : Nat} (h : Edits n xs ys) : distance xs ys ≤ n := by
  induction h with
  | refl xs => exact (distance_self xs).le
  | @step n xs ys zs h _ ih => exact (h.distance_le zs).trans (Nat.add_le_add_right ih 1)

/-! ## The least number of edits -/

/-- **The distance of two texts is the least number of edits from one to the other.** -/
theorem distance_isLeast (xs ys : List Char) : IsLeast {n | Edits n xs ys} (distance xs ys) :=
  ⟨edits_distance xs ys, fun _ h => h.distance_le⟩

theorem distance_triangle (xs ys zs : List Char) :
    distance xs zs ≤ distance xs ys + distance ys zs :=
  ((edits_distance xs ys).trans (edits_distance ys zs)).distance_le

theorem distance_map_le (f : Char → Char) (xs ys : List Char) :
    distance (xs.map f) (ys.map f) ≤ distance xs ys :=
  ((edits_distance xs ys).map f).distance_le

/-- Two images of one text are as far apart as there are characters with different images. -/
theorem distance_map_map_le (f g : Char → Char) (xs : List Char) :
    distance (xs.map f) (xs.map g) ≤ xs.countP fun x => f x != g x := by
  induction xs with
  | nil => exact Nat.le_refl 0
  | cons x xs ih =>
    rw [List.map_cons, List.map_cons, distance_cons_cons, List.countP_cons, bne]
    cases f x == g x <;> simp <;> omega

end PinQuery.Text
