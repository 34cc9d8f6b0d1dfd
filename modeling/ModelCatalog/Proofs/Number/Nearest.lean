/-
  ModelCatalog/Proofs/Number/Nearest.lean
  =======================================
  **The double nearest to a number.**

  A double is nearest to a rational number if none is nearer, and if of two that are as
  near it is the one whose last bit is zero (`IsNearest`); infinity takes part in this as
  2 ^ 1024, the number that would come next.  That determines the value of the double
  (`IsNearest.value_unique`), and rounding does not pass a number that is a double
  (`IsNearest.le_of_le`).  Integers and decimals denote the double nearest to them
  (`isNearest_ofInt`, `isNearest_toDouble`).
-/
import ModelCatalog.Number.Decimal
import ModelCatalog.Proofs.Number.Rounding

namespace ModelCatalog.Double

/-! ### Values -/

/-- A sign as a factor. -/
def signFactor (negative : Bool) : ℚ := if negative then -1 else 1

/-- The number that a double is.  Infinity counts as 2 ^ 1024. -/
def value (d : Double) : ℚ := signFactor d.negative * (d.scaled / unitsPerOne)

/-- No double is nearer to a number, and if another one is as near the last bit is zero. -/
def IsNearest (d : Double) (q : ℚ) : Prop :=
  d.isNaN = false ∧ ∀ e : Double, e.isNaN = false → |d.value - q| ≤ |e.value - q| ∧
    (|d.value - q| = |e.value - q| → e.value = d.value ∨ Even d.magnitude)

/-! ### The nearest double -/

theorem units_pos : (0 : ℚ) < unitsPerOne := by exact_mod_cast unitsPerOne_pos

theorem abs_signFactor (negative : Bool) : |signFactor negative| = 1 := by
  cases negative <;> norm_num [signFactor]

theorem le_infiniteMagnitude {d : Double} (h : d.isNaN = false) :
    d.magnitude ≤ infiniteMagnitude := by
  simpa [isNaN] using h

/-- The distance of numbers of one sign, counted in units. -/
theorem abs_sub_signed (negative : Bool) (a b : ℚ) :
    |signFactor negative * (a / unitsPerOne) - signFactor negative * (b / unitsPerOne)| =
      |a - b| / unitsPerOne := by
  rw [← mul_sub, abs_mul, abs_signFactor, one_mul, ← sub_div, abs_div, abs_of_pos units_pos]

/-- **The nearest magnitude, with the sign of a number, is the nearest double.** -/
theorem isNearest_of_nearestUnits {d : Double} {units : ℚ} (hnan : d.isNaN = false)
    (hunits : 0 ≤ units) (h : NearestUnits d.magnitude units) :
    d.IsNearest (signFactor d.negative * (units / unitsPerOne)) := by
  refine ⟨hnan, ?_⟩
  intro e he
  rw [value, value, scaled_eq_unitsOf, scaled_eq_unitsOf, abs_sub_signed]
  by_cases hsign : e.negative = d.negative
  · obtain ⟨hnear, htie⟩ := h e.magnitude (le_infiniteMagnitude he)
    rw [hsign, abs_sub_signed, div_le_div_iff_of_pos_right units_pos,
      div_left_inj' units_pos.ne']
    refine ⟨hnear, fun heq => ?_⟩
    rcases htie heq with hsame | heven
    · exact Or.inl (by rw [hsame])
    · exact Or.inr heven
  · -- zero is between a double of the other sign and the number
    have hflip : signFactor e.negative = -signFactor d.negative := by
      cases hd : d.negative <;> cases hneg : e.negative <;> simp_all [signFactor]
    obtain ⟨hnear, htie⟩ := h 0 (Nat.zero_le _)
    have hpositive : (0 : ℚ) ≤ unitsOf e.magnitude := Nat.cast_nonneg _
    have hdistance : |signFactor e.negative * ((unitsOf e.magnitude : ℚ) / unitsPerOne) -
        signFactor d.negative * (units / unitsPerOne)| =
          (unitsOf e.magnitude + units) / unitsPerOne := by
      rw [hflip, show ∀ s a b : ℚ, -s * a - s * b = -(s * (a + b)) by intros; ring, abs_neg,
        abs_mul, abs_signFactor, one_mul, ← add_div,
        abs_of_nonneg (div_nonneg (add_nonneg hpositive hunits) units_pos.le)]
    rw [hdistance, div_le_div_iff_of_pos_right units_pos, div_left_inj' units_pos.ne']
    rw [unitsOf_zero, Nat.cast_zero, zero_sub, abs_neg, abs_of_nonneg hunits] at hnear htie
    refine ⟨by linarith, fun heq => ?_⟩
    have hzero : (unitsOf e.magnitude : ℚ) = 0 := by linarith
    rcases htie (by linarith) with hsame | heven
    · left
      rw [hzero, ← hsame, zero_div, mul_zero, Nat.cast_zero, zero_div, mul_zero]
    · exact Or.inr heven

/-- The nearest magnitude, for a number that is not counted in units. -/
theorem isNearest_of_scaled {d : Double} {q : ℚ} (hnan : d.isNaN = false) (hq : 0 ≤ q)
    (h : NearestUnits d.magnitude (q * unitsPerOne)) :
    d.IsNearest (signFactor d.negative * q) := by
  have hnear := isNearest_of_nearestUnits hnan (mul_nonneg hq units_pos.le) h
  rwa [mul_div_cancel_right₀ _ units_pos.ne'] at hnear

theorem isNaN_ofRatio (negative : Bool) (num den : Nat) :
    (ofRatio negative num den).isNaN = false := by
  exact decide_eq_false (Nat.not_lt.mpr (roundMagnitude_le num den))

/-- **A quotient is rounded to the nearest double.** -/
theorem isNearest_ofRatio (negative : Bool) (num : Nat) {den : Nat} (hden : 0 < den) :
    (ofRatio negative num den).IsNearest (signFactor negative * (num / den)) := by
  refine isNearest_of_scaled (d := ofRatio negative num den) (isNaN_ofRatio negative num den)
    (div_nonneg (Nat.cast_nonneg _) (Nat.cast_nonneg _)) ?_
  have hnear := nearestUnits_roundMagnitude num hden
  rwa [Nat.cast_mul, mul_div_right_comm] at hnear

/-! ### Order -/

/-- A double as a signed count of units. -/
theorem value_eq_units (d : Double) :
    d.value = (if d.negative then -(d.scaled : ℤ) else d.scaled : ℤ) / unitsPerOne := by
  have hsigned : signFactor d.negative * d.scaled =
      (if d.negative then -(d.scaled : ℤ) else d.scaled : ℤ) := by
    cases d.negative <;> simp [signFactor]
  rw [value, ← mul_div_assoc, hsigned]

theorem scaled_pos_iff (d : Double) : 0 < d.scaled ↔ 0 < d.magnitude := by
  have hleast : zero.scaled = 0 ∧ zero.magnitude = 0 := ⟨rfl, rfl⟩
  simpa only [hleast] using scaled_lt_scaled_iff (a := zero) (b := d)

/-- **Doubles are ordered as the numbers that they are.** -/
theorem value_lt_value_iff (a b : Double) : a.value < b.value ↔ a.rank < b.rank := by
  have hab : a.scaled < b.scaled ↔ a.magnitude < b.magnitude := scaled_lt_scaled_iff
  have hba : b.scaled < a.scaled ↔ b.magnitude < a.magnitude := scaled_lt_scaled_iff
  have ha := scaled_pos_iff a
  have hb := scaled_pos_iff b
  rw [value_eq_units, value_eq_units, div_lt_div_iff_of_pos_right units_pos, Int.cast_lt, rank,
    rank]
  cases a.negative with
  | false =>
    cases b.negative with
    | false => simp [hab]
    | true =>
      simp only [if_true, Bool.false_eq_true, if_false]
      omega
  | true =>
    cases b.negative with
    | false =>
      simp only [if_true, Bool.false_eq_true, if_false]
      omega
    | true => simp [hba]

theorem lt_iff_value_lt {a b : Double} (ha : a.isNaN = false) (hb : b.isNaN = false) :
    a.lt b = true ↔ a.value < b.value := by
  rw [value_lt_value_iff, lt, ha, hb]
  simp

/-- Finite are the doubles between the two infinities. -/
theorem isFinite_iff_value (d : Double) : d.isFinite = true ↔
    (infinity true).value < d.value ∧ d.value < (infinity false).value := by
  have hrank : d.isFinite = true ↔
      (infinity true).rank < d.rank ∧ d.rank < (infinity false).rank := by
    simp only [isFinite, rank, infinity, decide_eq_true_eq]
    cases d.negative
    · simp
      omega
    · simp
      omega
  rw [hrank, value_lt_value_iff, value_lt_value_iff]

namespace IsNearest

variable {d e : Double} {q : ℚ}

/-- Rounding does not pass a double that is not above the number. -/
theorem le_of_le (h : d.IsNearest q) (he : e.isNaN = false) (hle : e.value ≤ q) :
    e.value ≤ d.value := by
  by_contra hlt
  rw [not_le] at hlt
  obtain ⟨hnear, -⟩ := h.2 e he
  rw [abs_of_nonpos (by linarith), abs_of_nonpos (by linarith)] at hnear
  linarith

theorem ge_of_ge (h : d.IsNearest q) (he : e.isNaN = false) (hge : q ≤ e.value) :
    d.value ≤ e.value := by
  by_contra hlt
  rw [not_le] at hlt
  obtain ⟨hnear, -⟩ := h.2 e he
  rw [abs_of_nonneg (by linarith), abs_of_nonneg (by linarith)] at hnear
  linarith

/-- A number that is a double is rounded to it. -/
theorem value_eq_of_eq (h : d.IsNearest q) (he : e.isNaN = false) (heq : e.value = q) :
    d.value = q := by
  rw [← heq]
  exact le_antisymm (h.ge_of_ge he heq.ge) (h.le_of_le he heq.le)

/-- Between two doubles whose last bits are zero there is another one. -/
theorem exists_between (hd : d.isNaN = false) (he : e.isNaN = false)
    (hdeven : Even d.magnitude) (heeven : Even e.magnitude) (hlt : d.value < e.value) :
    ∃ c : Double, c.isNaN = false ∧ d.value < c.value ∧ c.value < e.value := by
  rw [value_lt_value_iff] at hlt
  have hrank : ∀ a : Double, Even a.magnitude → Even a.rank := by
    intro a ha
    rw [rank]
    split
    · exact (Int.even_coe_nat _).mpr ha |>.neg
    · exact (Int.even_coe_nat _).mpr ha
  have hbound : ∀ a : Double, a.isNaN = false →
      a.rank ≤ infiniteMagnitude ∧ -(infiniteMagnitude : ℤ) ≤ a.rank := by
    intro a ha
    have hle := le_infiniteMagnitude ha
    rw [rank]
    split <;> omega
  obtain ⟨i, hi⟩ := hrank d hdeven
  obtain ⟨j, hj⟩ := hrank e heeven
  have hlow := (hbound d hd).2
  have hhigh := (hbound e he).1
  have hmagnitude : (d.rank + 1).natAbs ≤ infiniteMagnitude := by omega
  let c : Double := ⟨decide (d.rank + 1 < 0), (d.rank + 1).natAbs,
    Nat.lt_of_le_of_lt hmagnitude (by decide)⟩
  have hc : c.rank = d.rank + 1 := by
    change (if decide (d.rank + 1 < 0) = true then -((d.rank + 1).natAbs : ℤ)
      else (d.rank + 1).natAbs) = _
    simp only [decide_eq_true_eq]
    split <;> omega
  refine ⟨c, ?_, ?_, ?_⟩
  · exact decide_eq_false (Nat.not_lt.mpr hmagnitude)
  · rw [value_lt_value_iff, hc]
    omega
  · rw [value_lt_value_iff, hc]
    omega

/-- **A number is rounded to one value only.** -/
theorem value_unique (hd : d.IsNearest q) (he : e.IsNearest q) : d.value = e.value := by
  have hless : ∀ {d e : Double}, d.IsNearest q → e.IsNearest q → ¬ d.value < e.value := by
    intro d e hd he hlt
    obtain ⟨hnear, htie⟩ := hd.2 e he.1
    obtain ⟨hnear', htie'⟩ := he.2 d hd.1
    have hdistance : |d.value - q| = |e.value - q| := le_antisymm hnear hnear'
    have hdeven := (htie hdistance).resolve_left hlt.ne'
    have heeven := (htie' hdistance.symm).resolve_left hlt.ne
    obtain ⟨c, hc, hdc, hce⟩ := exists_between hd.1 he.1 hdeven heeven hlt
    have hmiddle : q - d.value = e.value - q := by
      rcases abs_eq_abs.mp hdistance with heq | heq <;> linarith
    have hcloser : |c.value - q| < |d.value - q| := by
      rw [abs_of_nonpos (by linarith : d.value - q ≤ 0), abs_lt]
      constructor <;> linarith
    exact absurd (hd.2 c hc).1 (not_le.mpr hcloser)
  exact le_antisymm (not_lt.mp (hless he hd)) (not_lt.mp (hless hd he))

/-- Rounding keeps the order of numbers. -/
theorem mono {r : ℚ} (hd : d.IsNearest q) (he : e.IsNearest r) (hle : q ≤ r) :
    d.value ≤ e.value := by
  by_contra hlt
  rw [not_le] at hlt
  obtain ⟨hnear, -⟩ := hd.2 e he.1
  obtain ⟨hnear', -⟩ := he.2 d hd.1
  -- both numbers would be in the middle between the two doubles
  have hlow : (d.value - e.value) * (d.value + e.value - 2 * q) ≤ 0 := by
    have hsquare := sq_le_sq.mpr hnear
    linarith
  have hhigh : 0 ≤ (d.value - e.value) * (d.value + e.value - 2 * r) := by
    have hsquare := sq_le_sq.mpr hnear'
    linarith
  have hq := nonpos_of_mul_nonpos_right hlow (sub_pos.mpr hlt)
  have hr := nonneg_of_mul_nonneg_right hhigh (sub_pos.mpr hlt)
  obtain rfl : q = r := le_antisymm hle (by linarith)
  exact hlt.ne (value_unique he hd)

end IsNearest

/-- A double is its sign and its value. -/
theorem eq_of_value {a b : Double} (hsign : a.negative = b.negative) (hvalue : a.value = b.value) :
    a = b := by
  have hscaled : a.scaled = b.scaled := by
    have hfactor : signFactor b.negative ≠ 0 := by
      cases b.negative <;> norm_num [signFactor]
    rw [value, value, hsign, mul_right_inj' hfactor, div_left_inj' units_pos.ne'] at hvalue
    exact_mod_cast hvalue
  have hmagnitude : a.magnitude = b.magnitude := by
    apply Nat.le_antisymm
    · exact Nat.le_of_not_lt fun hlt => absurd hscaled (scaled_lt_scaled hlt).ne'
    · exact Nat.le_of_not_lt fun hlt => absurd hscaled (scaled_lt_scaled hlt).ne
  cases a
  cases b
  simp_all

/-! ### Natural numbers -/

theorem value_eq_natCast_iff {d : Double} {n : Nat} :
    d.value = n ↔ (d.negative = false ∨ d.magnitude = 0) ∧ d.scaled = n * unitsPerOne := by
  have hpos := scaled_pos_iff d
  have hcast : (n : ℚ) * unitsPerOne = ((n * unitsPerOne : Nat) : ℤ) := by push_cast; rfl
  rw [value_eq_units, div_eq_iff units_pos.ne', hcast, Int.cast_inj]
  generalize n * unitsPerOne = units
  cases d.negative with
  | false =>
    simp only [Bool.false_eq_true, if_false, true_or, true_and]
    omega
  | true =>
    simp only [if_true, Bool.true_eq_false, false_or]
    omega

/-- **A finite double is read as the natural number that it is.** -/
theorem natural?_eq_some_iff {d : Double} {n : Nat} :
    d.natural? = some n ↔ d.isFinite = true ∧ d.value = n := by
  rw [value_eq_natCast_iff]
  constructor
  · exact natural?_eq_some
  · rintro ⟨hfinite, hsign, hscaled⟩
    have hcond : (!d.negative || d.magnitude == 0) = true := by
      rcases hsign with h | h <;> simp [h]
    simp [natural?, hfinite, hcond, hscaled, Nat.mul_div_cancel _ unitsPerOne_pos]

theorem value_ofNat {n : Nat} (h : n < 2 ^ 53) : (ofNat n).value = n :=
  (natural?_eq_some_iff.mp (natural?_ofNat h)).2

theorem signFactor_natAbs (z : Int) : signFactor (decide (z < 0)) * (z.natAbs : ℚ) = z := by
  rw [Nat.cast_natAbs, Int.cast_abs]
  by_cases h : z < 0
  · have hneg : (z : ℚ) < 0 := by exact_mod_cast h
    rw [signFactor, if_pos (decide_eq_true h), abs_of_neg hneg, neg_one_mul, neg_neg]
  · have hnonneg : (0 : ℚ) ≤ z := by exact_mod_cast Int.not_lt.mp h
    rw [signFactor, if_neg (by simpa using h), abs_of_nonneg hnonneg, one_mul]

/-- An integer below 2 ^ 53 is a double exactly. -/
theorem value_ofInt {z : Int} (h : z.natAbs < 2 ^ 53) : (ofInt z).value = z := by
  have hscaled : (ofInt z).scaled = z.natAbs * unitsPerOne := scaled_ofNat h
  have hnegative : (ofInt z).negative = decide (z < 0) := rfl
  rw [value, hscaled, Nat.cast_mul, mul_div_cancel_right₀ _ units_pos.ne', hnegative,
    signFactor_natAbs]

theorem isNearest_ofInt (z : Int) : (ofInt z).IsNearest z := by
  have hnear := isNearest_ofRatio (decide (z < 0)) z.natAbs Nat.one_pos
  rwa [Nat.cast_one, div_one, signFactor_natAbs] at hnear

theorem isNaN_ofInt (z : Int) : (ofInt z).isNaN = false := isNaN_ofRatio _ _ 1

/-- An integer that is a double is rounded to itself. -/
theorem IsNearest.value_eq_integer {d : Double} {z : Int} (h : d.IsNearest z)
    (hz : z.natAbs < 2 ^ 53) : d.value = z :=
  h.value_eq_of_eq (isNaN_ofInt z) (value_ofInt hz)

/-- Rounding does not pass an integer that is a double. -/
theorem IsNearest.integer_le {d : Double} {q : ℚ} (h : d.IsNearest q) {z : Int}
    (hz : z.natAbs < 2 ^ 53) (hle : z ≤ q) : z ≤ d.value := by
  rw [← value_ofInt hz] at hle ⊢
  exact h.le_of_le (isNaN_ofInt z) hle

theorem IsNearest.le_integer {d : Double} {q : ℚ} (h : d.IsNearest q) {z : Int}
    (hz : z.natAbs < 2 ^ 53) (hge : q ≤ z) : d.value ≤ z := by
  rw [← value_ofInt hz] at hge ⊢
  exact h.ge_of_ge (isNaN_ofInt z) hge

theorem abs_value (d : Double) : |d.value| = d.scaled / unitsPerOne := by
  rw [value, abs_mul, abs_signFactor, one_mul,
    abs_of_nonneg (div_nonneg (Nat.cast_nonneg _) units_pos.le)]

/-- A double as large as its significand can be has no bits behind the point. -/
theorem dvd_scaled_of_large {d : Double} (h : binade * unitsPerOne ≤ d.scaled) :
    unitsPerOne ∣ d.scaled := by
  obtain ⟨k, hunits⟩ : ∃ k, unitsPerOne = 2 ^ k := ⟨_, unitsPerOne_eq⟩
  rw [hunits] at h ⊢
  have hpow : 2 ^ k < 2 ^ (d.magnitude / binade) :=
    Nat.lt_of_mul_lt_mul_left (Nat.lt_of_le_of_lt h (scaled_lt d))
  have hexponent : k < d.magnitude / binade := (Nat.pow_lt_pow_iff_right (by decide)).mp hpow
  unfold scaled
  simp only [show d.magnitude / binade ≠ 0 by omega, if_false]
  exact Dvd.dvd.mul_left (Nat.pow_dvd_pow 2 (by omega)) _

/-- **An integer is rounded to an integer.** -/
theorem IsNearest.whole {d : Double} {z : Int} (h : d.IsNearest z) : ∃ w : Int, d.value = w := by
  by_cases hz : z.natAbs < 2 ^ 53
  · exact ⟨z, h.value_eq_integer hz⟩
  · have hlarge : (binade : ℚ) ≤ |d.value| := by
      have hbinade : (binade : ℚ) = (2 ^ 52 : Int) := by norm_num [binade]
      rw [hbinade]
      rcases Int.le_total 0 z with hsign | hsign
      · have hle : (2 ^ 52 : Int) ≤ z := by omega
        exact le_abs.mpr (Or.inl (h.integer_le (by decide) (Int.cast_le.mpr hle)))
      · have hle : z ≤ -(2 ^ 52) := by omega
        have hvalue := h.le_integer (by decide) (Int.cast_le.mpr hle)
        rw [Int.cast_neg, le_neg] at hvalue
        exact le_abs.mpr (Or.inr hvalue)
    rw [abs_value, le_div_iff₀ units_pos] at hlarge
    obtain ⟨k, hk⟩ := dvd_scaled_of_large (by exact_mod_cast hlarge)
    refine ⟨if d.negative then -k else k, ?_⟩
    rw [value, hk, Nat.cast_mul, mul_div_cancel_left₀ _ units_pos.ne']
    cases d.negative <;> simp [signFactor]

/-! ### Decimals -/

end ModelCatalog.Double

namespace ModelCatalog

/-- The number that a decimal is. -/
def Decimal.value (d : Decimal) : ℚ :=
  Double.signFactor d.negative * (d.coefficient * 10 ^ d.exponent)

namespace Double

theorem zpow_ten (e : Nat) : (10 : ℚ) ^ (Int.ofNat e) = (10 ^ e : Nat) := by
  rw [Int.ofNat_eq_natCast, zpow_natCast]
  push_cast
  rfl

theorem zpow_ten_neg (e : Nat) : (10 : ℚ) ^ (Int.negSucc e) = 1 / (10 ^ (e + 1) : Nat) := by
  rw [zpow_negSucc, one_div]
  push_cast
  rfl

/-- **A decimal denotes the double nearest to it.** -/
theorem isNearest_toDouble (d : Decimal) : d.toDouble.IsNearest d.value := by
  obtain ⟨negative, c, exponent⟩ := d
  unfold Decimal.toDouble Decimal.value
  dsimp only
  split_ifs with hc
  · rw [hc, Nat.cast_zero, zero_mul]
    refine isNearest_of_scaled (d := signedZero negative) rfl le_rfl ?_
    rw [zero_mul]
    exact nearestUnits_zero le_rfl (by norm_num)
  · cases exponent with
    | ofNat e =>
      dsimp only
      rw [zpow_ten, ← Nat.cast_mul]
      split_ifs with he
      · refine isNearest_of_scaled (d := infinity negative) rfl (Nat.cast_nonneg _) ?_
        apply nearestUnits_infinity
        exact_mod_cast infinite_of_exponent hc he
      · have hnear := isNearest_ofRatio negative (c * 10 ^ e) Nat.one_pos
        rwa [Nat.cast_one, div_one] at hnear
    | negSucc e =>
      dsimp only
      have hpos : (0 : ℚ) < (10 ^ (e + 1) : Nat) := by positivity
      rw [zpow_ten_neg, mul_one_div]
      split_ifs with he
      · have hnonneg : (0 : ℚ) ≤ c / (10 ^ (e + 1) : Nat) := div_nonneg (Nat.cast_nonneg _) hpos.le
        refine isNearest_of_scaled (d := signedZero negative) rfl hnonneg ?_
        apply nearestUnits_zero (mul_nonneg hnonneg units_pos.le)
        rw [div_mul_eq_mul_div, div_le_div_iff₀ hpos two_pos, one_mul]
        exact_mod_cast tiny_of_places he
      · exact isNearest_ofRatio negative c (Nat.pow_pos (by decide))

end Double

end ModelCatalog
