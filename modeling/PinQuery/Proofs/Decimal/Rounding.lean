import Mathlib.Algebra.Order.Field.Basic
import Mathlib.Data.Rat.Cast.Order
import Mathlib.Tactic.FieldSimp
import Mathlib.Tactic.Linarith
import Mathlib.Tactic.Ring
import PinQuery.Decimal.Shortest

/-!
# Decimals that round to a given binary number

A magnitude has an interval of values around it, up to the midpoints to its neighbours. This module
shows that the interval does what it is for, and that the shortest decimal lies in it.

* `Magnitude.roundUnits_of_contains`: a quotient in the interval is rounded to the magnitude. Only
  just below a power of two is the spacing at the quotient another one than at the magnitude.
* `Decimal.round_of_mem`: so is a decimal in the interval, and never by its size alone.
* `Magnitude.shortest_mem`: the search for the shortest decimal ends in the interval, whichever
  power of ten it ends at.
-/

namespace PinQuery

/-! ## Rounding a quotient -/

namespace Binary64

/-- A quotient within a half of `k` is rounded to `k`, an exact half only if `k` is even. -/
theorem roundHalfEven_eq {num den k : Nat} (hlow : 2 * (k * den) ≤ 2 * num + den)
    (hhigh : 2 * num ≤ 2 * (k * den) + den)
    (htie : 2 * (k * den) = 2 * num + den ∨ 2 * num = 2 * (k * den) + den → k % 2 = 0)
    (hden : 0 < den) : roundHalfEven num den = k := by
  have hdiv : den * (num / den) + num % den = num := Nat.div_add_mod num den
  have hmod : num % den < den := Nat.mod_lt num hden
  unfold roundHalfEven
  generalize num / den = q at *
  generalize num % den = r at *
  have hle : q ≤ k := by
    by_contra hlt
    have : den * (k + 1) ≤ den * q := Nat.mul_le_mul_left den (by omega)
    rw [Nat.mul_comm k den] at hhigh
    rw [Nat.mul_add] at this
    omega
  have hge : k ≤ q + 1 := by
    by_contra hlt
    have : den * (q + 2) ≤ den * k := Nat.mul_le_mul_left den (by omega)
    rw [Nat.mul_comm k den] at hlow
    rw [Nat.mul_add] at this
    omega
  rcases Nat.lt_or_ge q k with hlt | hge
  · obtain rfl : k = q + 1 := by omega
    have hexp : (q + 1) * den = den * q + den := by ring
    dsimp only
    rw [hexp] at hlow htie
    split_ifs <;> omega
  · obtain rfl : k = q := by omega
    have hexp : k * den = den * k := Nat.mul_comm k den
    dsimp only
    rw [hexp] at hhigh htie
    split_ifs <;> omega

/-- A count of units with at most 53 bits above `2 ^ t` has the spacing `2 ^ t`. -/
theorem spacing_eq {n t : Nat} (hlow : t = 0 ∨ 2 ^ 52 * 2 ^ t ≤ n) (hhigh : n < 2 ^ 53 * 2 ^ t) :
    spacing n = 2 ^ t := by
  unfold spacing
  rcases Nat.eq_zero_or_pos n with rfl | hn
  · rcases hlow with rfl | hlow
    · rfl
    · have := Nat.two_pow_pos t
      omega
  · rw [← Nat.pow_add] at hhigh
    have hlt : n.log2 < 53 + t := (Nat.log2_lt (by omega)).2 hhigh
    suffices n.log2 - 52 = t from congrArg (Nat.pow 2) this
    rcases hlow with rfl | hlow
    · omega
    · rw [← Nat.pow_add] at hlow
      have : 52 + t ≤ n.log2 := (Nat.le_log2 (by omega)).2 hlow
      omega

theorem lt_pow_mul_spacing (n : Nat) : n < 2 ^ 53 * spacing n := by
  have hlt : n < 2 ^ (n.log2 + 1) := Nat.lt_log2_self
  refine hlt.trans_le ?_
  change _ ≤ 2 ^ 53 * 2 ^ (n.log2 - 52)
  rw [← Nat.pow_add]
  exact Nat.pow_le_pow_right (by omega) (by omega)

/-- A multiple of the spacing is followed by one that fits into 53 bits or is a power of two. -/
theorem add_spacing_le {n k : Nat} (hk : n = k * spacing n) :
    n + spacing n ≤ 2 ^ 53 * spacing n := by
  have hpos : 0 < spacing n := Nat.two_pow_pos _
  have hlt : k * spacing n < 2 ^ 53 * spacing n := hk ▸ lt_pow_mul_spacing n
  have : k + 1 ≤ 2 ^ 53 := Nat.lt_of_mul_lt_mul_right hlt
  calc n + spacing n = (k + 1) * spacing n := by rw [Nat.succ_mul, ← hk]
    _ ≤ 2 ^ 53 * spacing n := Nat.mul_le_mul_right _ this

theorem spacing_eq_one_or_le {n : Nat} (hn : n ≠ 0) : spacing n = 1 ∨ 2 ^ 52 * spacing n ≤ n := by
  rcases Nat.lt_or_ge n.log2 52 with hlt | hge
  · left
    simp [spacing, Nat.sub_eq_zero_of_le hlt.le]
  · right
    change 2 ^ 52 * 2 ^ (n.log2 - 52) ≤ n
    rw [← Nat.pow_add, Nat.add_sub_cancel' hge]
    exact Nat.log2_self_le hn

end Binary64

/-! ## Intervals -/

namespace Magnitude

/-- The bounds of a rounding interval, whether or not it is closed. -/
theorem bounds_of_contains {i : RoundingInterval} {num den : Nat} (h : i.contains num den = true) :
    i.low * den ≤ 4 * num ∧ 4 * num ≤ i.high * den ∧
      (i.low * den = 4 * num ∨ 4 * num = i.high * den → i.closed = true) := by
  unfold RoundingInterval.contains at h
  split at h
  next hclosed =>
    simp only [Bool.and_eq_true, decide_eq_true_eq] at h
    exact ⟨h.1, h.2, fun _ => hclosed⟩
  next =>
    simp only [Bool.and_eq_true, decide_eq_true_eq] at h
    exact ⟨h.1.le, h.2.le, fun htie => by omega⟩

variable {m : Magnitude} {num den : Nat}

/-- A magnitude is a multiple of its spacing. -/
theorem exists_units_eq (m : Magnitude) : ∃ k, m.units = k * Binary64.spacing m.units := by
  obtain ⟨k, hk⟩ := m.representable.1
  exact ⟨k, by rw [Nat.mul_comm]; exact hk⟩

theorem interval_closed {k : Nat} (hk : m.units = k * Binary64.spacing m.units) :
    m.interval.closed = (k % 2 == 0) := by
  have hpos : 0 < Binary64.spacing m.units := Nat.two_pow_pos _
  have : m.units / Binary64.spacing m.units = k := by
    nth_rewrite 1 [hk]
    exact Nat.mul_div_cancel k hpos
  simp only [interval, this]

theorem interval_high (m : Magnitude) (den : Nat) :
    m.interval.high * den = 4 * (m.units * den) + 2 * (Binary64.spacing m.units * den) := by
  simp only [interval]
  ring

/-- The lower end of the interval of a power of two. -/
theorem interval_low_of_pow (h : m.units = 2 ^ 52 * Binary64.spacing m.units)
    (hs : 1 < Binary64.spacing m.units) (den : Nat) :
    m.interval.low * den = 4 * (m.units * den) - Binary64.spacing m.units * den := by
  have hif : m.units = Nat.pow 2 52 * Binary64.spacing m.units ∧ 1 < Binary64.spacing m.units :=
    ⟨h, hs⟩
  simp only [interval, if_pos hif, Nat.sub_mul, Nat.mul_assoc]

/-- The lower end of the interval of any other magnitude. -/
theorem interval_low_of_not_pow
    (h : ¬(m.units = 2 ^ 52 * Binary64.spacing m.units ∧ 1 < Binary64.spacing m.units))
    (den : Nat) :
    m.interval.low * den = 4 * (m.units * den) - 2 * (Binary64.spacing m.units * den) := by
  have hif : ¬(m.units = Nat.pow 2 52 * Binary64.spacing m.units ∧ 1 < Binary64.spacing m.units) :=
    h
  simp only [interval, if_neg hif, Nat.sub_mul, Nat.mul_assoc]

/-- A value in the interval of a magnitude is at most half the spacing away from it, and exactly
half the spacing only from an even multiple. -/
theorem near_of_contains {k : Nat} (hk : m.units = k * Binary64.spacing m.units) (hden : 0 < den)
    (h : m.interval.contains num den = true) :
    2 * (m.units * den) ≤ 2 * num + Binary64.spacing m.units * den ∧
      2 * num ≤ 2 * (m.units * den) + Binary64.spacing m.units * den ∧
      (2 * (m.units * den) = 2 * num + Binary64.spacing m.units * den ∨
        2 * num = 2 * (m.units * den) + Binary64.spacing m.units * den → k % 2 = 0) := by
  obtain ⟨hlow, hhigh, htie⟩ := bounds_of_contains h
  have hstep : 0 < Binary64.spacing m.units * den := Nat.mul_pos (Nat.two_pow_pos _) hden
  have heven : m.interval.closed = true → k % 2 = 0 := by
    rw [interval_closed hk, beq_iff_eq]
    exact id
  rw [interval_high] at hhigh htie
  by_cases hpow : m.units = 2 ^ 52 * Binary64.spacing m.units ∧ 1 < Binary64.spacing m.units
  · rw [interval_low_of_pow hpow.1 hpow.2] at hlow htie
    refine ⟨by omega, by omega, fun htie' => heven (htie ?_)⟩
    omega
  · rw [interval_low_of_not_pow hpow] at hlow htie
    refine ⟨by omega, by omega, fun htie' => heven (htie ?_)⟩
    omega

/-- Where the spacing at a value is that of the magnitude, a value in the interval is rounded to
the magnitude. -/
theorem roundUnits_of_spacing_eq (hden : 0 < den) (h : m.interval.contains num den = true)
    (hq : Binary64.spacing (num / den) = Binary64.spacing m.units) :
    Binary64.roundUnits num den = m.units := by
  obtain ⟨k, hk⟩ := m.exists_units_eq
  obtain ⟨hlow, hhigh, htie⟩ := near_of_contains hk hden h
  have hprod : k * (den * Binary64.spacing m.units) = m.units * den := by
    nth_rewrite 2 [hk]
    ring
  have hround : Binary64.roundHalfEven num (den * Binary64.spacing m.units) = k := by
    refine Binary64.roundHalfEven_eq ?_ ?_ ?_ (Nat.mul_pos hden (Nat.two_pow_pos _))
    · rwa [hprod, Nat.mul_comm den]
    · rwa [hprod, Nat.mul_comm den]
    · rwa [hprod, Nat.mul_comm den]
  simp only [Binary64.roundUnits, hq, hround]
  exact hk.symm

/-- The only magnitude whose interval reaches below the least one with its spacing is that one, a
power of two. -/
theorem units_eq_pow (hden : 0 < den) (h : m.interval.contains num den = true)
    (hs : 1 < Binary64.spacing m.units) (hbelow : num < 2 ^ 52 * (Binary64.spacing m.units * den)) :
    m.units = 2 ^ 52 * Binary64.spacing m.units := by
  obtain ⟨k, hk⟩ := m.exists_units_eq
  have hnear := (near_of_contains hk hden h).1
  have hle : 2 ^ 52 * Binary64.spacing m.units ≤ m.units := by
    refine (Binary64.spacing_eq_one_or_le ?_).resolve_left (by omega)
    intro hu
    rw [hu] at hs
    exact absurd hs (by decide)
  by_contra hne
  have hk53 : 2 ^ 52 + 1 ≤ k := by
    refine Nat.lt_of_mul_lt_mul_right (a := Binary64.spacing m.units) ?_
    rw [← hk]
    omega
  have : (2 ^ 52 + 1) * (Binary64.spacing m.units * den) ≤ m.units * den := by
    rw [← Nat.mul_assoc]
    refine Nat.mul_le_mul_right den ?_
    nth_rewrite 2 [hk]
    exact Nat.mul_le_mul_right _ hk53
  have hstep : 0 < Binary64.spacing m.units * den := Nat.mul_pos (by omega) hden
  omega

/-- Below a power of two the spacing is half as large, and a value in the interval is still rounded
to the power. -/
theorem roundUnits_below_pow (hden : 0 < den) (h : m.interval.contains num den = true)
    (hs : 1 < Binary64.spacing m.units) (hbelow : num < 2 ^ 52 * (Binary64.spacing m.units * den)) :
    Binary64.roundUnits num den = m.units := by
  have hpow := units_eq_pow hden h hs hbelow
  obtain ⟨hlow, -, -⟩ := bounds_of_contains h
  rw [interval_low_of_pow hpow hs] at hlow
  obtain ⟨t, ht⟩ : ∃ t, Binary64.spacing m.units = 2 ^ t * 2 := by
    obtain ⟨t, ht⟩ : ∃ t, m.units.log2 - 52 = t + 1 := by
      refine Nat.exists_eq_succ_of_ne_zero fun hzero => ?_
      simp [Binary64.spacing, hzero] at hs
    exact ⟨t, by rw [← Nat.pow_succ]; exact congrArg (Nat.pow 2) ht⟩
  have hunits : m.units = 2 ^ 53 * 2 ^ t := by
    rw [hpow, ht]
    ring
  have hprod : m.units * den = 2 ^ 53 * (2 ^ t * den) := by
    rw [hunits]
    ring
  have hstep : Binary64.spacing m.units * den = 2 * (2 ^ t * den) := by
    rw [ht]
    ring
  have hpos : 0 < 2 ^ t * den := Nat.mul_pos (Nat.two_pow_pos t) hden
  rw [hprod, hstep] at hlow
  rw [hstep] at hbelow
  have hspacing : Binary64.spacing (num / den) = 2 ^ t := by
    refine Binary64.spacing_eq (.inr ?_) ?_
    · rw [Nat.le_div_iff_mul_le hden, Nat.mul_assoc]
      omega
    · rw [Nat.div_lt_iff_lt_mul hden, Nat.mul_assoc]
      omega
  have hround : Binary64.roundHalfEven num (den * 2 ^ t) = 2 ^ 53 := by
    rw [Nat.mul_comm den]
    exact Binary64.roundHalfEven_eq (by omega) (by omega) (by omega) hpos
  simp only [Binary64.roundUnits, hspacing, hround]
  exact hunits.symm

/-- **Every value in the interval of a magnitude is rounded to the magnitude.** -/
theorem roundUnits_of_contains (hden : 0 < den)
    (h : m.interval.contains num den = true) : Binary64.roundUnits num den = m.units := by
  obtain ⟨k, hk⟩ := m.exists_units_eq
  have hnear := (near_of_contains hk hden h).2.1
  have hstep : 0 < Binary64.spacing m.units * den := Nat.mul_pos (Nat.two_pow_pos _) hden
  have hhigh : num < 2 ^ 53 * (Binary64.spacing m.units * den) := by
    have := Nat.mul_le_mul_right den (Binary64.add_spacing_le hk)
    rw [Nat.add_mul, Nat.mul_assoc] at this
    omega
  have hspacing (hlow : m.units.log2 - 52 = 0 ∨ 2 ^ 52 * (Binary64.spacing m.units * den) ≤ num) :
      Binary64.spacing (num / den) = Binary64.spacing m.units := by
    refine Binary64.spacing_eq (hlow.imp_right fun hlow => ?_) ?_
    · rw [Nat.le_div_iff_mul_le hden, Nat.mul_assoc]
      exact hlow
    · rw [Nat.div_lt_iff_lt_mul hden, Nat.mul_assoc]
      exact hhigh
  by_cases hone : m.units.log2 - 52 = 0
  · exact roundUnits_of_spacing_eq hden h (hspacing (.inl hone))
  rcases Nat.lt_or_ge num (2 ^ 52 * (Binary64.spacing m.units * den)) with hlt | hge
  · exact roundUnits_below_pow hden h (Nat.one_lt_two_pow hone) hlt
  · exact roundUnits_of_spacing_eq hden h (hspacing (.inr hge))

end Magnitude

/-! ## Values -/

/-- The value of a decimal. -/
def Decimal.value (d : Decimal) : ℚ := d.coefficient * (10 : ℚ) ^ d.exponent

/-- The values of an interval, in units. -/
def RoundingInterval.Mem (i : RoundingInterval) (x : ℚ) : Prop :=
  if i.closed then (i.low : ℚ) ≤ 4 * x ∧ 4 * x ≤ i.high else (i.low : ℚ) < 4 * x ∧ 4 * x < i.high

theorem RoundingInterval.contains_iff_mem {i : RoundingInterval} {num den : Nat} (hden : 0 < den) :
    i.contains num den = true ↔ i.Mem (num / den : ℚ) := by
  have hden' : (0 : ℚ) < den := by exact_mod_cast hden
  have hle (a : Nat) : (a : ℚ) ≤ 4 * (num / den : ℚ) ↔ a * den ≤ 4 * num := by
    rw [← mul_div_assoc, le_div_iff₀ hden']
    exact_mod_cast Iff.rfl
  have hge (a : Nat) : 4 * (num / den : ℚ) ≤ a ↔ 4 * num ≤ a * den := by
    rw [← mul_div_assoc, div_le_iff₀ hden']
    exact_mod_cast Iff.rfl
  have hlt (a : Nat) : (a : ℚ) < 4 * (num / den : ℚ) ↔ a * den < 4 * num := by
    rw [← not_le, hge, not_le]
  have hgt (a : Nat) : 4 * (num / den : ℚ) < a ↔ 4 * num < a * den := by
    rw [← not_le, hle, not_le]
  unfold RoundingInterval.contains RoundingInterval.Mem
  split
  · simp [hle, hge]
  · simp [hlt, hgt]

theorem RoundingInterval.Mem.bounds {i : RoundingInterval} {x : ℚ} (h : i.Mem x) :
    (i.low : ℚ) ≤ 4 * x ∧ 4 * x ≤ i.high := by
  unfold RoundingInterval.Mem at h
  split at h
  · exact h
  · exact ⟨h.1.le, h.2.le⟩

theorem Binary64.one_pos : 0 < Binary64.one := by decide +kernel

namespace Magnitude

theorem unitsAt_den_pos (c : Nat) (power : Int) : 0 < (unitsAt c power).2 := by
  cases power with
  | ofNat p => exact Nat.one_pos
  | negSucc p => exact Nat.pow_pos (by decide)

/-- The quotient that stands for a decimal is its value in units. -/
theorem unitsAt_quotient (c : Nat) (power : Int) :
    ((unitsAt c power).1 / (unitsAt c power).2 : ℚ) =
      Decimal.value ⟨c, power⟩ * Binary64.one := by
  cases power with
  | ofNat p =>
    simp only [unitsAt, Decimal.value, Int.ofNat_eq_natCast, zpow_natCast, Nat.pow_eq]
    push_cast
    ring
  | negSucc p =>
    simp only [unitsAt, Decimal.value, zpow_negSucc, Nat.pow_eq]
    push_cast
    ring

theorem admits_iff_mem {m : Magnitude} {power : Int} {c : Nat} :
    m.admits power c = true ↔ m.interval.Mem (Decimal.value ⟨c, power⟩ * Binary64.one) := by
  rw [← unitsAt_quotient, ← RoundingInterval.contains_iff_mem (unitsAt_den_pos c power)]
  rfl

theorem spacing_le_units {m : Magnitude} (hu : m.units ≠ 0) :
    Binary64.spacing m.units ≤ m.units := by
  obtain ⟨k, hk⟩ := m.exists_units_eq
  have hk0 : 0 < k := by
    refine Nat.pos_of_ne_zero fun hzero => hu ?_
    rw [hk, hzero, Nat.zero_mul]
  calc Binary64.spacing m.units ≤ k * Binary64.spacing m.units := Nat.le_mul_of_pos_left _ hk0
    _ = m.units := hk.symm

theorem interval_bounds {m : Magnitude} (hu : m.units ≠ 0) :
    2 * m.units ≤ m.interval.low ∧ m.interval.low < 4 * m.units ∧
      4 * m.units < m.interval.high ∧ m.interval.high ≤ 6 * m.units := by
  have hle := spacing_le_units hu
  have hpos : 0 < Binary64.spacing m.units := Nat.two_pow_pos _
  simp only [interval]
  split <;> omega

/-- A magnitude lies in its own interval. -/
theorem mem_interval_units {m : Magnitude} (hu : m.units ≠ 0) : m.interval.Mem m.units := by
  obtain ⟨-, hlow, hhigh, -⟩ := interval_bounds hu
  have hlow' : (m.interval.low : ℚ) < 4 * m.units := by exact_mod_cast hlow
  have hhigh' : (4 * m.units : ℚ) < m.interval.high := by exact_mod_cast hhigh
  unfold RoundingInterval.Mem
  split
  · exact ⟨hlow'.le, hhigh'.le⟩
  · exact ⟨hlow', hhigh'⟩

end Magnitude

namespace Decimal

theorem value_lt (d : Decimal) : d.value < (10 : ℚ) ^ (digitCount d.coefficient + d.exponent) := by
  have hlt : d.coefficient < 10 ^ digitCount d.coefficient :=
    (Nat.length_toDigits_le_iff (by decide) Nat.length_toDigits_pos).1 le_rfl
  rw [zpow_add₀ (by norm_num), zpow_natCast]
  refine mul_lt_mul_of_pos_right ?_ (zpow_pos (by norm_num) _)
  exact_mod_cast hlt

theorem le_value {d : Decimal} (hd : d.coefficient ≠ 0) :
    (10 : ℚ) ^ (digitCount d.coefficient + d.exponent - 1) ≤ d.value := by
  have hle : 10 ^ (digitCount d.coefficient - 1) ≤ d.coefficient := by
    by_contra hlt
    rcases Nat.eq_zero_or_pos (digitCount d.coefficient - 1) with hzero | hpos
    · rw [hzero] at hlt
      omega
    · have := (Nat.length_toDigits_le_iff (by decide) hpos).2 (Nat.lt_of_not_le hlt)
      unfold digitCount at *
      omega
  have hpos : 0 < digitCount d.coefficient := Nat.length_toDigits_pos
  have hsplit : (digitCount d.coefficient + d.exponent - 1 : Int) =
      ((digitCount d.coefficient - 1 : Nat) : Int) + d.exponent := by omega
  rw [hsplit, zpow_add₀ (by norm_num), zpow_natCast]
  refine mul_le_mul_of_nonneg_right ?_ (zpow_pos (by norm_num) _).le
  exact_mod_cast hle

/-- A decimal of so small a size is less than half a unit. -/
theorem tiny_le : (10 : ℚ) ^ (-331 : Int) * Binary64.one ≤ 1 / 2 := by
  have h : 2 * Binary64.one ≤ 10 ^ 331 := by decide +kernel
  have h' : (2 * Binary64.one : ℚ) ≤ (10 : ℚ) ^ 331 := by exact_mod_cast h
  rw [zpow_neg, inv_mul_eq_div, div_le_div_iff₀ (zpow_pos (by norm_num) _) (by norm_num)]
  rw [mul_comm, one_mul]
  exact_mod_cast h'

/-- A decimal of so large a size exceeds every magnitude. -/
theorem le_huge (m : Magnitude) : (2 * m.units : ℚ) ≤ (10 : ℚ) ^ (310 : Int) * Binary64.one := by
  have h : 2 * Nat.pow 2 2098 ≤ 10 ^ 310 * Binary64.one := by decide +kernel
  have h' : 2 * m.units ≤ 10 ^ 310 * Binary64.one := by
    have := m.representable.2
    omega
  exact_mod_cast h'

/-- A decimal in the interval of a magnitude is neither so small nor so large that its size alone
decides. -/
theorem size_of_mem {d : Decimal} {m : Magnitude} (hu : m.units ≠ 0)
    (h : m.interval.Mem (d.value * Binary64.one)) :
    d.coefficient ≠ 0 ∧ -330 ≤ (digitCount d.coefficient + d.exponent : Int) ∧
      (digitCount d.coefficient + d.exponent : Int) ≤ 310 := by
  obtain ⟨hlow, hhigh⟩ := h.bounds
  obtain ⟨hlow', -, -, hhigh'⟩ := Magnitude.interval_bounds hu
  have hone : (0 : ℚ) < Binary64.one := by exact_mod_cast Binary64.one_pos
  have hunits : (1 : ℚ) ≤ m.units := by exact_mod_cast Nat.one_le_iff_ne_zero.2 hu
  have hlow'' : (2 * m.units : ℚ) ≤ m.interval.low := by exact_mod_cast hlow'
  have hhigh'' : (m.interval.high : ℚ) ≤ 6 * m.units := by exact_mod_cast hhigh'
  have hcoefficient : d.coefficient ≠ 0 := by
    intro hzero
    simp only [value, hzero, Nat.cast_zero, zero_mul, mul_zero] at hlow
    linarith
  refine ⟨hcoefficient, ?_, ?_⟩
  · by_contra hlt
    have hvalue : d.value < (10 : ℚ) ^ (-331 : Int) :=
      d.value_lt.trans_le (zpow_le_zpow_right₀ (by norm_num) (by omega))
    have := (mul_lt_mul_of_pos_right hvalue hone).trans_le tiny_le
    linarith
  · by_contra hgt
    have hvalue : (10 : ℚ) ^ (310 : Int) ≤ d.value :=
      (zpow_le_zpow_right₀ (by norm_num) (by omega)).trans (le_value hcoefficient)
    have := (le_huge m).trans (mul_le_mul_of_nonneg_right hvalue hone.le)
    linarith

/-- **A decimal in the interval of a magnitude is rounded to the magnitude.** -/
theorem round_of_mem {d : Decimal} {m : Magnitude} (negative : Bool) (hu : m.units ≠ 0)
    (h : m.interval.Mem (d.value * Binary64.one)) : d.round negative = .finite negative m := by
  obtain ⟨hcoefficient, hsmall, hlarge⟩ := size_of_mem hu h
  have hcontains : m.interval.contains (Magnitude.unitsAt d.coefficient d.exponent).1
      (Magnitude.unitsAt d.coefficient d.exponent).2 = true := Magnitude.admits_iff_mem.2 h
  have hround := Magnitude.roundUnits_of_contains (Magnitude.unitsAt_den_pos _ _) hcontains
  unfold round
  dsimp only
  rw [if_neg hcoefficient, if_neg (by omega), if_neg (by omega)]
  have hquotient : Binary64.ofQuotient negative (Magnitude.unitsAt d.coefficient d.exponent).1
      (Magnitude.unitsAt d.coefficient d.exponent).2 = .finite negative m := by
    rw [Binary64.ofQuotient, hround, Binary64.ofUnits, dif_pos m.representable]
  rw [← hquotient]
  cases d.exponent with
  | ofNat p => simp only [Magnitude.unitsAt, Nat.mul_assoc, Nat.mul_comm Binary64.one]
  | negSucc p => rfl

end Decimal

/-! ## The shortest decimal -/

namespace Magnitude

theorem admits_of_nearest {m : Magnitude} {tie : Tie} {power : Int} {c : Nat}
    (h : m.nearest? tie power = some c) : m.admits power c = true := by
  unfold nearest? at h
  dsimp only at h
  generalize (m.multiple power).1 = num at h
  generalize (m.multiple power).2 = den at h
  generalize num / den = down at h
  cases hdown : m.admits power down <;> cases hup : m.admits power (down + 1) <;>
    simp only [hdown, hup] at h
  · cases h
  · cases h
    exact hup
  · cases h
    exact hdown
  · -- both neighbours are admitted, so any choice between them will do
    have hc : c = down ∨ c = down + 1 := by
      split_ifs at h <;> cases tie <;> grind
    rcases hc with rfl | rfl
    · exact hdown
    · exact hup

/-- The exact expansion has the value of the magnitude. -/
theorem exact_value (m : Magnitude) : m.exact.value * Binary64.one = m.units := by
  have key (n : Nat) : ((m.units * Nat.pow 5 n : Nat) : ℚ) * (10 : ℚ) ^ (-(n : Int)) *
      (Nat.pow 2 n : Nat) = m.units := by
    have hten : (10 : ℚ) ^ n = 5 ^ n * 2 ^ n := by rw [← mul_pow]; norm_num
    rw [zpow_neg, zpow_natCast, hten, Nat.pow_eq, Nat.pow_eq]
    push_cast
    field_simp
  exact key 1074

/-- Whatever power of ten the search stops at, its decimal rounds to the magnitude. -/
theorem search_mem {m : Magnitude} (hu : m.units ≠ 0) (tie : Tie) (count : Nat) (power : Int) :
    m.interval.Mem ((m.search tie count power).value * Binary64.one) := by
  induction count generalizing power with
  | zero =>
    rw [search, exact_value]
    exact mem_interval_units hu
  | succ count ih =>
    rw [search]
    split
    next c h => exact admits_iff_mem.1 (admits_of_nearest h)
    next => exact ih (power - 1)

theorem shortest_mem {m : Magnitude} (hu : m.units ≠ 0) (tie : Tie) :
    m.interval.Mem ((m.shortest tie).value * Binary64.one) :=
  search_mem hu tie 17 m.leadingPower

end Magnitude

end PinQuery
