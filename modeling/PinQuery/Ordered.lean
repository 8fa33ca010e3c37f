/-!
# Collections in increasing order

* `insertBy key x l` puts `x` into a list that is increasing in its keys; an entry with the same
  key is replaced. The result is increasing again (`pairwise_insertBy`) and holds `x` and the
  entries with other keys (`mem_insertBy`, and for look-ups `find?_insertBy`).
* `OrderedSet α` are the finite sets of `α`, kept as increasing lists, so two sets with the same
  elements are equal (`OrderedSet.ext_mem`).
-/

namespace PinQuery

variable {α κ : Type} [LT κ] [DecidableLT κ]

/-- Put an entry into a list that is increasing in its keys, in place of one with the same key. -/
def insertBy (key : α → κ) (x : α) : List α → List α
  | [] => [x]
  | y :: ys =>
    if key x < key y then x :: y :: ys
    else if key y < key x then y :: insertBy key x ys
    else x :: ys

theorem mem_of_mem_insertBy {key : α → κ} {x z : α} {l : List α} (h : z ∈ insertBy key x l) :
    z = x ∨ z ∈ l := by
  induction l with
  | nil => simpa [insertBy] using h
  | cons y ys ih =>
    rw [insertBy] at h
    split at h
    · simpa using h
    · split at h
      · rcases List.mem_cons.1 h with rfl | h
        · exact .inr (by simp)
        · exact (ih h).imp_right (List.mem_cons_of_mem y)
      · exact (List.mem_cons.1 h).imp_right (List.mem_cons_of_mem y)

variable [LE κ] [Std.IsLinearOrder κ] [Std.LawfulOrderLT κ]

omit [DecidableLT κ] in
theorem eq_of_not_lt_of_not_lt {a b : κ} (h : ¬a < b) (h' : ¬b < a) : a = b :=
  Std.le_antisymm (Std.not_lt.1 h') (Std.not_lt.1 h)

theorem pairwise_insertBy {key : α → κ} (x : α) {l : List α}
    (h : l.Pairwise (key · < key ·)) : (insertBy key x l).Pairwise (key · < key ·) := by
  induction l with
  | nil => simp [insertBy]
  | cons y ys ih =>
    obtain ⟨hy, hys⟩ := List.pairwise_cons.1 h
    rw [insertBy]
    split
    next hxy =>
      refine List.pairwise_cons.2 ⟨fun z hz => ?_, h⟩
      rcases List.mem_cons.1 hz with rfl | hz
      · exact hxy
      · exact Std.lt_trans hxy (hy z hz)
    next hxy =>
      split
      next hyx =>
        refine List.pairwise_cons.2 ⟨fun z hz => ?_, ih hys⟩
        rcases mem_of_mem_insertBy hz with rfl | hz
        · exact hyx
        · exact hy z hz
      next hyx =>
        have heq : key x = key y := eq_of_not_lt_of_not_lt hxy hyx
        exact List.pairwise_cons.2 ⟨fun z hz => heq ▸ hy z hz, hys⟩

theorem mem_insertBy {key : α → κ} {x z : α} {l : List α} (h : l.Pairwise (key · < key ·)) :
    z ∈ insertBy key x l ↔ z = x ∨ (z ∈ l ∧ key z ≠ key x) := by
  induction l with
  | nil => simp [insertBy]
  | cons y ys ih =>
    obtain ⟨hy, hys⟩ := List.pairwise_cons.1 h
    have hne {a b : κ} (hab : a < b) : a ≠ b := fun he => Std.lt_irrefl (he ▸ hab)
    rw [insertBy]
    split
    next hxy =>
      have hlater : ∀ w ∈ y :: ys, key w ≠ key x := fun w hw => by
        rcases List.mem_cons.1 hw with rfl | hw
        · exact (hne hxy).symm
        · exact (hne (Std.lt_trans hxy (hy w hw))).symm
      grind
    next hxy =>
      split
      next hyx => grind
      next hyx =>
        have heq : key x = key y := eq_of_not_lt_of_not_lt hxy hyx
        have hlater : ∀ w ∈ ys, key w ≠ key x := fun w hw => (hne (heq ▸ hy w hw)).symm
        grind

/-- Looking a key up finds the entry that was put there last. -/
theorem find?_insertBy [BEq κ] [LawfulBEq κ] {key : α → κ} (x : α) (k : κ) (l : List α) :
    (insertBy key x l).find? (key · == k) =
      if key x == k then some x else l.find? (key · == k) := by
  induction l with
  | nil => by_cases hk : key x = k <;> simp [insertBy, hk]
  | cons y ys ih =>
    have hne {a b : κ} (hab : a < b) : a ≠ b := fun he => Std.lt_irrefl (he ▸ hab)
    rw [insertBy]
    split
    next hxy => by_cases hk : key x = k <;> simp [hk]
    next hxy =>
      split
      next hyx =>
        have hkey : key y ≠ key x := hne hyx
        by_cases hy : key y = k
        · simp [hy, hy ▸ hkey.symm]
        · simp [hy, ih]
      next hyx =>
        have heq : key x = key y := eq_of_not_lt_of_not_lt hxy hyx
        by_cases hk : key x = k <;> simp [hk, ← heq]

omit [Std.IsLinearOrder κ] in
/-- Of two entries with one key only the later is kept. -/
theorem insertBy_insertBy {key : α → κ} {x y : α} (h : key x = key y) (l : List α) :
    insertBy key x (insertBy key y l) = insertBy key x l := by
  have irrefl {a : κ} : ¬a < a := Std.lt_irrefl
  induction l with
  | nil => simp [insertBy, h, irrefl]
  | cons z zs ih =>
    rw [insertBy.eq_2 key y, insertBy.eq_2 key x z, h]
    split
    next hyz => simp [insertBy, h, irrefl]
    next hyz =>
      split
      next hzy => simp [insertBy, h, hyz, hzy, ih]
      next hzy => simp [insertBy, h, irrefl]

/-- Taking out an entry with a new key leaves the list it was put into. -/
theorem filter_insertBy [BEq κ] [LawfulBEq κ] {key : α → κ} {x : α} {l : List α}
    (h : ∀ y ∈ l, key y ≠ key x) : (insertBy key x l).filter (key · != key x) = l := by
  have hfilter : l.filter (key · != key x) = l := by simpa using h
  induction l with
  | nil => simp [insertBy]
  | cons y ys ih =>
    have hys : ∀ z ∈ ys, key z ≠ key x := fun z hz => h z (by simp [hz])
    rw [insertBy]
    split
    next hxy => simpa using hfilter
    next hxy =>
      split
      next hyx => simp [h y (by simp), ih hys (by simpa using hys)]
      next hyx => exact absurd (eq_of_not_lt_of_not_lt hyx hxy) (h y (by simp))

/-! ## Sets -/

/-- A finite set, as the increasing list of its elements. -/
structure OrderedSet (α : Type) [LT α] where
  toList : List α
  increasing : toList.Pairwise (· < ·)

namespace OrderedSet

variable {α : Type} [LT α]

instance [DecidableEq α] : DecidableEq (OrderedSet α) := fun s t =>
  decidable_of_iff (s.toList = t.toList) ⟨fun h => by cases s; cases t; simp_all, fun h => h ▸ rfl⟩

/-- The set without elements. -/
def empty : OrderedSet α := ⟨[], .nil⟩

instance : Membership α (OrderedSet α) := ⟨fun s x => x ∈ s.toList⟩

instance [DecidableEq α] (x : α) (s : OrderedSet α) : Decidable (x ∈ s) :=
  inferInstanceAs (Decidable (x ∈ s.toList))

theorem mem_def {x : α} {s : OrderedSet α} : x ∈ s ↔ x ∈ s.toList := Iff.rfl

@[simp] theorem mem_empty {x : α} : x ∉ (empty : OrderedSet α) := by simp [mem_def, empty]

variable [DecidableLT α] [LE α] [Std.IsLinearOrder α] [Std.LawfulOrderLT α]

/-- The set with one more element. -/
def insert (s : OrderedSet α) (x : α) : OrderedSet α :=
  ⟨insertBy id x s.toList, pairwise_insertBy x s.increasing⟩

/-- The set of the elements of a list. -/
def ofList (l : List α) : OrderedSet α := l.foldl insert empty

@[simp] theorem mem_insert {x y : α} {s : OrderedSet α} : y ∈ s.insert x ↔ y = x ∨ y ∈ s := by
  have h : y ∈ insertBy id x s.toList ↔ y = x ∨ (y ∈ s.toList ∧ id y ≠ id x) :=
    mem_insertBy s.increasing
  rw [mem_def, mem_def, insert, h]
  by_cases hyx : y = x <;> simp [hyx]

theorem mem_foldl_insert {x : α} {l : List α} {s : OrderedSet α} :
    x ∈ l.foldl insert s ↔ x ∈ l ∨ x ∈ s := by
  induction l generalizing s with
  | nil => simp
  | cons y ys ih => simp [ih, or_left_comm, or_assoc]

@[simp] theorem mem_ofList {x : α} {l : List α} : x ∈ ofList l ↔ x ∈ l := by
  simp [ofList, mem_foldl_insert]

omit [DecidableLT α] in
/-- **Sets with the same elements are equal.** -/
theorem ext_mem {s t : OrderedSet α} (h : ∀ x, x ∈ s ↔ x ∈ t) : s = t := by
  obtain ⟨l, hl⟩ := s
  obtain ⟨m, hm⟩ := t
  have : l = m := by
    simp only [mem_def] at h
    induction l generalizing m with
    | nil =>
      cases m with
      | nil => rfl
      | cons y ys => simpa using h y
    | cons x xs ih =>
      cases m with
      | nil => simpa using h x
      | cons y ys =>
        obtain ⟨hx, hxs⟩ := List.pairwise_cons.1 hl
        obtain ⟨hy, hys⟩ := List.pairwise_cons.1 hm
        have irrefl {a : α} : ¬a < a := Std.lt_irrefl
        have hxy : x = y := by
          rcases List.mem_cons.1 ((h x).1 (by simp)) with rfl | h₁
          · rfl
          · rcases List.mem_cons.1 ((h y).2 (by simp)) with rfl | h₂
            · rfl
            · exact absurd (Std.lt_trans (hy x h₁) (hx y h₂)) irrefl
        subst hxy
        congr 1
        refine ih hxs ys hys fun z => ⟨fun hz => ?_, fun hz => ?_⟩
        · rcases List.mem_cons.1 ((h z).1 (List.mem_cons_of_mem x hz)) with rfl | h'
          · exact absurd (hx z hz) irrefl
          · exact h'
        · rcases List.mem_cons.1 ((h z).2 (List.mem_cons_of_mem x hz)) with rfl | h'
          · exact absurd (hy z hz) irrefl
          · exact h'
  subst this
  rfl

end OrderedSet

end PinQuery
