/-
  ModelCatalog/Proofs/Number/Rounding.lean
  ========================================
  **Rounding gives the nearest magnitude.**

  Everything here is counted in units of the least positive double.  Cut to 53 significant
  bits, a quotient is rounded to a multiple of a power of two.  What a magnitude encodes is
  such a multiple, or less than all of them that matter (`dvd_unitsOf_or_lt`), so the
  nearest multiple is nearer than every double (`nearest_multiple`); and what goes beyond
  the last exponent is nearest to infinity (`nearestUnits_of_multiple`).
-/
import Mathlib.Algebra.Order.Field.Basic
import Mathlib.Tactic.Linarith
import Mathlib.Tactic.Positivity
import ModelCatalog.Proofs.Number.Exact

namespace ModelCatalog.Double

/-! ### Magnitudes in units -/

/-- What a magnitude encodes, in units of the least positive double. -/
def unitsOf (magnitude : Nat) : Nat :=
  if magnitude / binade = 0 then magnitude % binade
  else (binade + magnitude % binade) * 2 ^ (magnitude / binade - 1)

theorem scaled_eq_unitsOf (d : Double) : d.scaled = unitsOf d.magnitude := rfl

theorem binade_pos : 0 < binade := by decide

theorem unitsOf_zero : unitsOf 0 = 0 := rfl

/-- The encoding of a significand in units of a power of two.  One that runs over into the
    next exponent is encoded by the next exponent. -/
theorem unitsOf_significand {k m : Nat} (hm : m ≤ 2 * binade) (hk : k = 0 ∨ binade ≤ m) :
    unitsOf (k * binade + m) = m * 2 ^ k := by
  have hbinade := binade_pos
  rcases Nat.lt_or_ge m binade with hlt | hge
  · obtain rfl : k = 0 := hk.resolve_right (Nat.not_le.mpr hlt)
    rw [unitsOf, Nat.zero_mul, Nat.zero_add, if_pos (Nat.div_eq_of_lt hlt),
      Nat.mod_eq_of_lt hlt, Nat.pow_zero, Nat.mul_one]
  · rcases Nat.lt_or_eq_of_le hm with hlt | heq
    · obtain ⟨f, rfl⟩ := Nat.exists_eq_add_of_le hge
      have hf : f < binade := by omega
      have hmagnitude : k * binade + (binade + f) = f + (k + 1) * binade := by ring
      have hexponent : (k * binade + (binade + f)) / binade = k + 1 := by
        rw [hmagnitude, Nat.add_mul_div_right _ _ hbinade, Nat.div_eq_of_lt hf, Nat.zero_add]
      have hfraction : (k * binade + (binade + f)) % binade = f := by
        rw [hmagnitude, Nat.add_mul_mod_self_right, Nat.mod_eq_of_lt hf]
      rw [unitsOf, hexponent, hfraction, if_neg (Nat.succ_ne_zero k), Nat.add_sub_cancel]
    · have hmagnitude : k * binade + m = (k + 2) * binade := by
        rw [heq]
        ring
      rw [unitsOf, hmagnitude, Nat.mul_div_cancel _ hbinade, Nat.mul_mod_left,
        if_neg (Nat.succ_ne_zero _), heq, Nat.add_zero]
      change binade * 2 ^ (k + 1) = _
      ring

/-- Every double is a multiple of a power of two, or too small to have all of its
    significant bits at or above it. -/
theorem dvd_unitsOf_or_lt (k m : Nat) :
    2 ^ k ∣ unitsOf m ∨ 0 < k ∧ unitsOf m < binade * 2 ^ k := by
  have hfraction : m % binade < binade := Nat.mod_lt _ binade_pos
  rcases Nat.eq_zero_or_pos k with rfl | hk
  · exact Or.inl (Nat.one_dvd _)
  by_cases hexponent : m / binade = 0
  · right
    rw [unitsOf, if_pos hexponent]
    exact ⟨hk, Nat.lt_of_lt_of_le hfraction (Nat.le_mul_of_pos_right _ (Nat.two_pow_pos k))⟩
  · rw [unitsOf, if_neg hexponent]
    rcases Nat.lt_or_ge (m / binade - 1) k with hlt | hge
    · right
      refine ⟨hk, ?_⟩
      calc (binade + m % binade) * 2 ^ (m / binade - 1)
          < (binade + binade) * 2 ^ (m / binade - 1) :=
            Nat.mul_lt_mul_of_pos_right (by omega) (Nat.two_pow_pos _)
        _ = binade * 2 ^ (m / binade - 1 + 1) := by ring
        _ ≤ binade * 2 ^ k := Nat.mul_le_mul_left _ (Nat.pow_le_pow_right (by decide) hlt)
    · exact Or.inl (Nat.dvd_mul_left_of_dvd (Nat.pow_dvd_pow 2 hge) _)

theorem unitsOf_infiniteMagnitude : unitsOf infiniteMagnitude = binade * 2 ^ 2046 := by
  have hmagnitude : infiniteMagnitude = 2046 * binade + binade := by
    unfold infiniteMagnitude
    ring
  rw [hmagnitude]
  exact unitsOf_significand (by omega) (Or.inr (Nat.le_refl _))

/-- No number is greater than infinity. -/
theorem unitsOf_le {m : Nat} (h : m ≤ infiniteMagnitude) :
    unitsOf m ≤ unitsOf infiniteMagnitude := by
  rcases Nat.lt_or_eq_of_le h with hlt | rfl
  · let d : Double := ⟨false, m, Nat.lt_trans hlt (by decide)⟩
    have hscaled := scaled_lt_scaled (a := d) (b := infinity false) hlt
    rw [scaled_eq_unitsOf, scaled_eq_unitsOf] at hscaled
    exact Nat.le_of_lt hscaled
  · exact Nat.le_refl _

/-! ### Rounding to a whole number -/

/-- What a quotient has beyond its whole part: the comparisons that rounding makes are those
    of this rest with a half. -/
theorem exists_rest (num : Nat) {den : Nat} (hden : 0 < den) :
    ∃ rest : ℚ, (num : ℚ) / den = (num / den : Nat) + rest ∧ 0 ≤ rest ∧ rest < 1 ∧
      (rest < 1 / 2 ↔ 2 * (num % den) < den) ∧ (1 / 2 < rest ↔ den < 2 * (num % den)) := by
  have hpos : (0 : ℚ) < den := by exact_mod_cast hden
  refine ⟨(num % den : Nat) / (den : ℚ), ?_, by positivity, ?_, ?_, ?_⟩
  · have hsplit : (num : ℚ) = (num / den : Nat) * den + (num % den : Nat) := by
      exact_mod_cast (Nat.div_add_mod' num den).symm
    rw [div_eq_iff hpos.ne', add_mul, div_mul_cancel₀ _ hpos.ne']
    exact hsplit
  · rw [div_lt_one hpos]
    exact_mod_cast Nat.mod_lt num hden
  · rw [div_lt_div_iff₀ hpos two_pos, mul_comm _ (2 : ℚ), one_mul]
    exact_mod_cast Iff.rfl
  · rw [div_lt_div_iff₀ two_pos hpos, mul_comm _ (2 : ℚ), one_mul]
    exact_mod_cast Iff.rfl

/-- A quotient is rounded by no more than a half, and by a half to an even number. -/
theorem roundQuotient_half (num : Nat) {den : Nat} (hden : 0 < den) :
    |(roundQuotient num den : ℚ) - num / den| ≤ 1 / 2 ∧
      (|(roundQuotient num den : ℚ) - num / den| = 1 / 2 → Even (roundQuotient num den)) := by
  obtain ⟨rest, hquotient, hrest, hless, hlow, hhigh⟩ := exists_rest num hden
  rw [hquotient]
  unfold roundQuotient
  dsimp only
  split_ifs with hbelow habove
  · rw [← hlow] at hbelow
    rw [show ((num / den : Nat) : ℚ) - ((num / den : Nat) + rest) = -rest by ring, abs_neg,
      abs_of_nonneg hrest]
    exact ⟨hbelow.le, fun h => absurd h hbelow.ne⟩
  · rw [← hhigh] at habove
    push_cast
    rw [show ((num / den : Nat) : ℚ) + 1 - ((num / den : Nat) + rest) = 1 - rest by ring,
      abs_of_pos (by linarith)]
    exact ⟨by linarith, fun h => by linarith⟩
  · rw [← hlow, not_lt] at hbelow
    rw [← hhigh, not_lt] at habove
    obtain rfl : rest = 1 / 2 := le_antisymm habove hbelow
    have heven : Even (num / den + num / den % 2) := by
      rw [Nat.even_iff]
      omega
    refine ⟨?_, fun _ => heven⟩
    rcases Nat.mod_two_eq_zero_or_one (num / den) with h | h
    · rw [h, Nat.add_zero, sub_add_cancel_left, abs_neg, abs_of_pos one_half_pos]
    · rw [h]
      push_cast
      rw [add_sub_add_left_eq_sub, abs_of_pos (by norm_num)]
      norm_num

/-- **Rounding in steps of any size gives the nearest step**, and of two that are as near
    the even one. -/
theorem nearest_step {size q : ℚ} (hsize : 0 < size) {t : Nat}
    (hhalf : |(t : ℚ) - q / size| ≤ 1 / 2) (heven : |(t : ℚ) - q / size| = 1 / 2 → Even t)
    (j : Nat) : |t * size - q| ≤ |j * size - q| ∧
      (|t * size - q| = |j * size - q| → j = t ∨ Even t) := by
  have hscale : ∀ x : ℚ, |x * size - q| = |x - q / size| * size := by
    intro x
    rw [← abs_of_pos hsize, ← abs_mul, abs_of_pos hsize, sub_mul, div_mul_cancel₀ _ hsize.ne']
  rw [hscale, hscale, mul_le_mul_iff_left₀ hsize, mul_left_inj' hsize.ne']
  by_cases hj : j = t
  · exact ⟨by rw [hj], fun _ => Or.inl hj⟩
  · -- steps are one apart, so the other one is at least a half away
    have hapart : (1 : ℚ) ≤ |(j : ℚ) - t| := by
      have hint : (1 : ℤ) ≤ |(j : ℤ) - t| := Int.one_le_abs (by omega)
      exact_mod_cast hint
    have htriangle : |(j : ℚ) - t| ≤ |(j : ℚ) - q / size| + |(t : ℚ) - q / size| := by
      rw [abs_sub_comm (t : ℚ)]
      exact abs_sub_le _ _ _
    exact ⟨by linarith, fun h => Or.inr (heven (by linarith))⟩

/-! ### Rounding to a double -/

/-- A magnitude is nearest to a count of units, and if another one is as near the last bit
    is zero. -/
def NearestUnits (r : Nat) (units : ℚ) : Prop :=
  ∀ m ≤ infiniteMagnitude, |(unitsOf r : ℚ) - units| ≤ |(unitsOf m : ℚ) - units| ∧
    (|(unitsOf r : ℚ) - units| = |(unitsOf m : ℚ) - units| → unitsOf m = unitsOf r ∨ Even r)

/-- The bits that are dropped leave at most 53, and if there are any at least 53. -/
theorem dropped_bounds (units : Nat) {den : Nat} (hden : 0 < den) :
    units < 2 * binade * 2 ^ ((units / den).log2 - 52) * den ∧
      (0 < (units / den).log2 - 52 → binade * 2 ^ ((units / den).log2 - 52) * den ≤ units) := by
  generalize hk : (units / den).log2 - 52 = k
  constructor
  · have hlog : units / den < 2 ^ ((units / den).log2 + 1) := Nat.lt_log2_self
    have hpow : (2 : Nat) ^ ((units / den).log2 + 1) ≤ 2 ^ (53 + k) :=
      Nat.pow_le_pow_right (by decide) (by omega)
    have hsplit : 2 ^ (53 + k) = 2 * binade * 2 ^ k := Nat.pow_add 2 53 k
    rw [← hsplit]
    exact (Nat.div_lt_iff_lt_mul hden).mp (Nat.lt_of_lt_of_le hlog hpow)
  · intro hpos
    have hne : units / den ≠ 0 := by
      intro hzero
      rw [hzero] at hk
      have hlog : Nat.log2 0 = 0 := rfl
      omega
    have hpow : 2 ^ (52 + k) ≤ units / den := by
      have hexponent : 52 + k = (units / den).log2 := by omega
      rw [hexponent]
      exact Nat.log2_self_le hne
    have hsplit : 2 ^ (52 + k) = binade * 2 ^ k := Nat.pow_add 2 52 k
    rw [← hsplit]
    exact (Nat.le_div_iff_mul_le hden).mp hpow

section Steps

variable {k t : Nat} {units : ℚ}

/-- A number of that many bits is rounded to a significand of 53 bits, or to the first one
    of 54; with all of its bits it is rounded to a shorter one only if none are dropped. -/
theorem significand_of_half (hlow : 0 < k → (binade : ℚ) * 2 ^ k ≤ units)
    (hhigh : units < 2 * binade * 2 ^ k) (hhalf : |(t : ℚ) - units / 2 ^ k| ≤ 1 / 2) :
    t ≤ 2 * binade ∧ (k = 0 ∨ binade ≤ t) := by
  have hsize : (0 : ℚ) < 2 ^ k := by positivity
  obtain ⟨hbelow, habove⟩ := abs_le.mp hhalf
  constructor
  · have hlt : units / 2 ^ k < 2 * binade := (div_lt_iff₀ hsize).mpr hhigh
    have hcast : (t : ℚ) < (2 * binade + 1 : Nat) := by
      push_cast
      linarith
    exact Nat.lt_succ_iff.mp (by exact_mod_cast hcast)
  · rcases Nat.eq_zero_or_pos k with hk | hk
    · exact Or.inl hk
    · right
      have hle : (binade : ℚ) ≤ units / 2 ^ k := (le_div_iff₀ hsize).mpr (hlow hk)
      have hcast : (binade : ℚ) < (t + 1 : Nat) := by
        push_cast
        linarith
      exact Nat.lt_succ_iff.mp (by exact_mod_cast hcast)

/-- The nearest multiple of a power of two is nearer than every double, if the number has
    53 bits above that power or the power is one. -/
theorem nearest_multiple (hlow : 0 < k → (binade : ℚ) * 2 ^ k ≤ units)
    (hhalf : |(t : ℚ) - units / 2 ^ k| ≤ 1 / 2)
    (heven : |(t : ℚ) - units / 2 ^ k| = 1 / 2 → Even t) (m : Nat) :
    |(t : ℚ) * 2 ^ k - units| ≤ |(unitsOf m : ℚ) - units| ∧
      (|(t : ℚ) * 2 ^ k - units| = |(unitsOf m : ℚ) - units| →
        unitsOf m = t * 2 ^ k ∨ Even (k * binade + t)) := by
  have hsize : (0 : ℚ) < 2 ^ k := by positivity
  have hbinade : Even binade := by decide
  rcases dvd_unitsOf_or_lt k m with ⟨j, hj⟩ | ⟨hk, hlt⟩
  · obtain ⟨hnear, htie⟩ := nearest_step hsize hhalf heven j
    have hcast : (unitsOf m : ℚ) = j * 2 ^ k := by
      rw [hj]
      push_cast
      ring
    rw [hcast]
    refine ⟨hnear, fun h => ?_⟩
    rcases htie h with rfl | ht
    · exact Or.inl (hj.trans (Nat.mul_comm _ _))
    · exact Or.inr ((hbinade.mul_left k).add ht)
  · -- a double below all of these multiples is further away than the least of them
    obtain ⟨hnear, -⟩ := nearest_step hsize hhalf heven binade
    have hle := hlow hk
    have hcast : (unitsOf m : ℚ) < binade * 2 ^ k := by exact_mod_cast hlt
    rw [abs_of_nonpos (sub_nonpos.mpr hle)] at hnear
    have hfar : |(t : ℚ) * 2 ^ k - units| < |(unitsOf m : ℚ) - units| := by
      rw [abs_of_neg (by linarith : (unitsOf m : ℚ) - units < 0)]
      linarith
    exact ⟨hfar.le, fun h => absurd h hfar.ne⟩

/-- An encoding beyond that of infinity is one of a multiple that is not less. -/
theorem le_of_infinite_lt (hk : k = 0 ∨ binade ≤ t) (ht : t ≤ 2 * binade)
    (hlt : infiniteMagnitude < k * binade + t) : unitsOf infiniteMagnitude ≤ t * 2 ^ k := by
  have hexponent : 2046 ≤ k := by
    unfold infiniteMagnitude at hlt
    by_contra hless
    have hmul : k * binade ≤ 2045 * binade := Nat.mul_le_mul_right _ (by omega)
    omega
  have hpow : ∀ n ≤ k, 2 ^ n ≤ 2 ^ k := fun n => Nat.pow_le_pow_right (by decide)
  rw [unitsOf_infiniteMagnitude]
  exact Nat.mul_le_mul (hk.resolve_left (by omega)) (hpow _ hexponent)

/-- What is rounded beyond infinity is nearest to infinity. -/
theorem nearestUnits_of_multiple (ht : t ≤ 2 * binade) (hk : k = 0 ∨ binade ≤ t)
    (hnear : ∀ m, |(t : ℚ) * 2 ^ k - units| ≤ |(unitsOf m : ℚ) - units| ∧
      (|(t : ℚ) * 2 ^ k - units| = |(unitsOf m : ℚ) - units| →
        unitsOf m = t * 2 ^ k ∨ Even (k * binade + t))) :
    NearestUnits (min infiniteMagnitude (k * binade + t)) units := by
  have hunits : unitsOf (k * binade + t) = t * 2 ^ k := unitsOf_significand ht hk
  intro m hm
  obtain ⟨hdistance, htie⟩ := hnear m
  rcases le_or_gt (k * binade + t) infiniteMagnitude with hle | hlt
  · rw [Nat.min_eq_right hle, hunits]
    push_cast
    exact ⟨hdistance, htie⟩
  · have heven : Even infiniteMagnitude := by decide
    have hcast : (unitsOf infiniteMagnitude : ℚ) ≤ t * 2 ^ k := by
      exact_mod_cast le_of_infinite_lt hk ht hlt
    have hm' : (unitsOf m : ℚ) ≤ unitsOf infiniteMagnitude := by
      exact_mod_cast unitsOf_le hm
    rw [Nat.min_eq_left hlt.le]
    refine ⟨?_, fun _ => Or.inr heven⟩
    rcases le_or_gt (unitsOf infiniteMagnitude : ℚ) units with hbeyond | hwithin
    · rw [abs_of_nonpos (by linarith), abs_of_nonpos (by linarith)]
      linarith
    · rw [abs_of_pos (sub_pos.mpr hwithin)]
      rw [abs_of_pos (by linarith)] at hdistance
      linarith

end Steps

/-- **The magnitude that a quotient is rounded to is the nearest one.** -/
theorem nearestUnits_roundMagnitude (num : Nat) {den : Nat} (hden : 0 < den) :
    NearestUnits (roundMagnitude num den) ((num * unitsPerOne : Nat) / den) := by
  have hpos : (0 : ℚ) < den := by exact_mod_cast hden
  unfold roundMagnitude
  dsimp only
  generalize num * unitsPerOne = units
  obtain ⟨hhigh, hlow⟩ := dropped_bounds units hden
  generalize (units / den).log2 - 52 = k at hhigh hlow
  have hsize : 0 < den * Nat.pow 2 k := Nat.mul_pos hden (Nat.two_pow_pos k)
  obtain ⟨hhalf, heven⟩ := roundQuotient_half units hsize
  have hquotient : (units : ℚ) / (den * Nat.pow 2 k : Nat) = units / den / 2 ^ k := by
    have hpow : Nat.pow 2 k = 2 ^ k := rfl
    rw [div_div, hpow]
    push_cast
    rfl
  rw [hquotient] at hhalf heven
  have hlow' : 0 < k → (binade : ℚ) * 2 ^ k ≤ units / den := by
    intro hk
    rw [le_div_iff₀ hpos]
    exact_mod_cast hlow hk
  have hhigh' : (units : ℚ) / den < 2 * binade * 2 ^ k := by
    rw [div_lt_iff₀ hpos]
    exact_mod_cast hhigh
  obtain ⟨ht, hk⟩ := significand_of_half hlow' hhigh' hhalf
  exact nearestUnits_of_multiple ht hk (nearest_multiple hlow' hhalf heven)

/-! ### Beyond the doubles -/

/-- What is at least infinity is rounded to it. -/
theorem nearestUnits_infinity {units : ℚ} (h : (unitsOf infiniteMagnitude : ℚ) ≤ units) :
    NearestUnits infiniteMagnitude units := by
  intro m hm
  have hm' : (unitsOf m : ℚ) ≤ unitsOf infiniteMagnitude := by
    exact_mod_cast unitsOf_le hm
  refine ⟨?_, fun _ => Or.inr (by decide)⟩
  rw [abs_of_nonpos (by linarith), abs_of_nonpos (by linarith)]
  linarith

/-- What is at most half of the least double is rounded to zero. -/
theorem nearestUnits_zero {units : ℚ} (h : 0 ≤ units) (hhalf : units ≤ 1 / 2) :
    NearestUnits 0 units := by
  intro m _
  refine ⟨?_, fun _ => Or.inr (by decide)⟩
  rw [unitsOf_zero, Nat.cast_zero, zero_sub, abs_neg, abs_of_nonneg h]
  rcases Nat.eq_zero_or_pos (unitsOf m) with hzero | hpos
  · rw [hzero, Nat.cast_zero, zero_sub, abs_neg, abs_of_nonneg h]
  · have hone : (1 : ℚ) ≤ unitsOf m := by exact_mod_cast hpos
    rw [abs_of_nonneg (by linarith)]
    linarith

/-- A coefficient other than zero, with that many zeros behind it, is beyond infinity. -/
theorem infinite_of_exponent {c e : Nat} (hc : c ≠ 0) (he : 400 < e) :
    unitsOf infiniteMagnitude ≤ c * 10 ^ e * unitsPerOne := by
  have hbinade : binade = 2 ^ 52 := rfl
  have hpow : ∀ i j k : Nat, i + j ≤ 3 * e + k → 2 ^ i * 2 ^ j ≤ (2 ^ 3) ^ e * 2 ^ k := by
    intro i j k h
    rw [← Nat.pow_add, ← Nat.pow_mul, ← Nat.pow_add]
    exact Nat.pow_le_pow_right (by decide) h
  calc unitsOf infiniteMagnitude = 2 ^ 52 * 2 ^ 2046 := by
        rw [unitsOf_infiniteMagnitude, hbinade]
    _ ≤ (2 ^ 3) ^ e * unitsPerOne := by
        rw [unitsPerOne_eq]
        exact hpow 52 2046 1074 (by omega)
    _ ≤ 10 ^ e * unitsPerOne :=
        Nat.mul_le_mul_right _ (Nat.pow_le_pow_left (by decide) e)
    _ ≤ c * 10 ^ e * unitsPerOne :=
        Nat.mul_le_mul_right _ (Nat.le_mul_of_pos_left _ (Nat.pos_of_ne_zero hc))

/-- A coefficient with that many decimal places is at most half of the least double. -/
theorem tiny_of_places {c k : Nat} (h : c.log2 + 1081 < 3 * k) :
    c * unitsPerOne * 2 ≤ 10 ^ k := by
  have hpow : ∀ a b : Nat, a ≤ b → 2 ^ a ≤ 2 ^ b := fun a b => Nat.pow_le_pow_right (by decide)
  calc c * unitsPerOne * 2 ≤ 2 ^ (c.log2 + 1) * unitsPerOne * 2 :=
        Nat.mul_le_mul_right _ (Nat.mul_le_mul_right _ Nat.lt_log2_self.le)
    _ = 2 ^ (c.log2 + 1 + 1074 + 1) := by
        rw [unitsPerOne_eq, ← Nat.pow_add, ← Nat.pow_succ]
    _ ≤ 2 ^ (3 * k) := hpow _ _ (by omega)
    _ = (2 ^ 3) ^ k := Nat.pow_mul ..
    _ ≤ 10 ^ k := Nat.pow_le_pow_left (by decide) k

end ModelCatalog.Double
