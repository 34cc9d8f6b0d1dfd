/-
  ModelCatalog/Proofs/Number/Whole.lean
  =====================================
  **Natural numbers as doubles.**

  Two facts carry every comparison of a double with a count.  Magnitudes are ordered
  as the numbers they encode (`scaled_lt_scaled_iff`), and a natural number below
  2 ^ 53 is a double exactly (`scaled_ofNat`): its bits fit the significand, so
  rounding has nothing to drop.  Together they say that such a number comes back out
  of its double (`natural?_ofNat`), and that the order of doubles decides the order
  of the numbers (`lt_ofNat_iff`).  A greater number is rounded to one that is still too
  great for a count, so no count is taken for another (`eq_of_natural?_ofInt`).
-/
import Mathlib.Tactic.Ring
import ModelCatalog.Number.Double

namespace ModelCatalog.Double

/-! ### Magnitudes are ordered as numbers -/

/-- A double is less than the first one of the next exponent. -/
theorem scaled_lt (d : Double) : d.scaled < binade * 2 ^ (d.magnitude / binade) := by
  have hfraction : d.magnitude % binade < binade := Nat.mod_lt _ (by decide)
  unfold scaled
  by_cases h : d.magnitude / binade = 0
  · simpa only [h, if_true, Nat.pow_zero, Nat.mul_one] using hfraction
  · obtain ⟨e, he⟩ := Nat.exists_eq_succ_of_ne_zero h
    simp only [he, Nat.succ_ne_zero, if_false, Nat.succ_sub_one]
    calc (binade + d.magnitude % binade) * Nat.pow 2 e
        < (binade + binade) * 2 ^ e :=
          Nat.mul_lt_mul_of_pos_right (by omega) (Nat.two_pow_pos e)
      _ = binade * 2 ^ (e + 1) := by ring

/-- A double with an exponent is not less than the first one of that exponent. -/
theorem le_scaled {d : Double} (h : d.magnitude / binade ≠ 0) :
    binade * 2 ^ (d.magnitude / binade - 1) ≤ d.scaled := by
  unfold scaled
  simp only [h, if_false]
  exact Nat.mul_le_mul_right _ (Nat.le_add_right _ _)

theorem scaled_lt_scaled {a b : Double} (h : a.magnitude < b.magnitude) :
    a.scaled < b.scaled := by
  have hle : a.magnitude / binade ≤ b.magnitude / binade :=
    Nat.div_le_div_right (Nat.le_of_lt h)
  rcases Nat.lt_or_eq_of_le hle with hlt | heq
  · have hne : b.magnitude / binade ≠ 0 := Nat.ne_of_gt (Nat.zero_lt_of_lt hlt)
    calc a.scaled < binade * 2 ^ (a.magnitude / binade) := scaled_lt a
      _ ≤ binade * 2 ^ (b.magnitude / binade - 1) :=
          Nat.mul_le_mul_left _ (Nat.pow_le_pow_right (by decide) (by omega))
      _ ≤ b.scaled := le_scaled hne
  · -- one exponent: the fractions decide
    have hfraction : a.magnitude % binade < b.magnitude % binade := by
      have ha := Nat.div_add_mod a.magnitude binade
      have hb := Nat.div_add_mod b.magnitude binade
      rw [heq] at ha
      omega
    unfold scaled
    simp only [heq]
    split
    · exact hfraction
    · exact Nat.mul_lt_mul_of_pos_right (by omega) (Nat.two_pow_pos _)

theorem scaled_lt_scaled_iff {a b : Double} :
    a.scaled < b.scaled ↔ a.magnitude < b.magnitude := by
  constructor
  · intro h
    by_contra hge
    rcases Nat.lt_or_eq_of_le (Nat.le_of_not_lt hge) with hlt | heq
    · exact absurd (scaled_lt_scaled hlt) (Nat.lt_asymm h)
    · unfold scaled at h
      rw [heq] at h
      exact Nat.lt_irrefl _ h
  · exact scaled_lt_scaled

/-! ### Rounding a number that fits the significand -/

theorem unitsPerOne_pos : 0 < unitsPerOne := Nat.pow_pos (by decide)

theorem roundMagnitude_zero : roundMagnitude 0 1 = 0 := by
  unfold roundMagnitude
  rw [Nat.zero_mul]
  decide

theorem ofNat_zero : ofNat 0 = zero := by
  simp only [ofNat, ofRatio, roundMagnitude_zero, zero, signedZero]

theorem roundQuotient_mul {n den : Nat} (h : 0 < den) : roundQuotient (n * den) den = n := by
  simp only [roundQuotient, Nat.mul_mod_left, Nat.mul_div_cancel _ h, Nat.mul_zero, h, if_true]

theorem log2_mul_two_pow {n : Nat} (h : n ≠ 0) (k : Nat) :
    (n * 2 ^ k).log2 = n.log2 + k := by
  induction k with
  | zero => simp
  | succ k ih =>
    have hne : n * 2 ^ k ≠ 0 := Nat.mul_ne_zero h (Nat.two_pow_pos k).ne'
    rw [show n * 2 ^ (k + 1) = 2 * (n * 2 ^ k) by ring, Nat.log2_two_mul hne, ih,
      Nat.add_assoc]

/-- The bits of a natural number below 2 ^ 53, moved up to the front, fill the
    significand. -/
theorem significand_bounds {n : Nat} (hn : n ≠ 0) (h : n < 2 ^ 53) :
    binade ≤ n * 2 ^ (52 - n.log2) ∧ n * 2 ^ (52 - n.log2) < 2 * binade := by
  have hlog : n.log2 < 53 := (Nat.log2_lt hn).mpr h
  constructor
  · calc binade = 2 ^ (n.log2 + (52 - n.log2)) := by
          rw [show n.log2 + (52 - n.log2) = 52 by omega]; rfl
      _ = 2 ^ n.log2 * 2 ^ (52 - n.log2) := Nat.pow_add ..
      _ ≤ n * 2 ^ (52 - n.log2) := Nat.mul_le_mul_right _ (Nat.log2_self_le hn)
  · calc n * 2 ^ (52 - n.log2) < 2 ^ (n.log2 + 1) * 2 ^ (52 - n.log2) :=
          Nat.mul_lt_mul_of_pos_right Nat.lt_log2_self (Nat.two_pow_pos _)
      _ = 2 ^ (n.log2 + 1 + (52 - n.log2)) := (Nat.pow_add ..).symm
      _ = 2 * binade := by
          rw [show n.log2 + 1 + (52 - n.log2) = 53 by omega]; decide

theorem units_eq_significand {n : Nat} (hn : n ≠ 0) (h : n < 2 ^ 53) :
    n * unitsPerOne = n * 2 ^ (52 - n.log2) * 2 ^ (n.log2 + 1022) := by
  have hlog : n.log2 < 53 := (Nat.log2_lt hn).mpr h
  rw [Nat.mul_assoc, ← Nat.pow_add, show 52 - n.log2 + (n.log2 + 1022) = 1074 by omega]
  rfl

/-- How many bits of a natural number, counted in the least unit, are dropped. -/
theorem dropped_ofNat {n : Nat} (hn : n ≠ 0) :
    (n * unitsPerOne).log2 - 52 = n.log2 + 1022 := by
  rw [show unitsPerOne = 2 ^ 1074 from Nat.pow_eq.symm, log2_mul_two_pow hn]
  omega

/-- The encoding of such a number: the exponent that its highest bit asks for, and
    its significand. -/
theorem magnitude_ofNat {n : Nat} (hn : n ≠ 0) (h : n < 2 ^ 53) :
    (ofNat n).magnitude = (n.log2 + 1022) * binade + n * 2 ^ (52 - n.log2) := by
  have hlog : n.log2 < 53 := (Nat.log2_lt hn).mpr h
  have hround : roundQuotient (n * unitsPerOne) (Nat.pow 2 (n.log2 + 1022)) =
      n * 2 ^ (52 - n.log2) := by
    rw [units_eq_significand hn h]
    exact roundQuotient_mul (Nat.two_pow_pos _)
  have hexponent : (n.log2 + 1022) * binade ≤ 1074 * binade :=
    Nat.mul_le_mul_right _ (by omega)
  have hfits := (significand_bounds hn h).2
  unfold ofNat ofRatio roundMagnitude
  simp only [Nat.div_one, Nat.one_mul, dropped_ofNat hn, hround]
  apply Nat.min_eq_right
  unfold infiniteMagnitude
  omega

theorem isFinite_ofNat {n : Nat} (h : n < 2 ^ 53) : (ofNat n).isFinite = true := by
  rcases Nat.eq_zero_or_pos n with rfl | hpos
  · simp [ofNat_zero, zero, signedZero, isFinite, infiniteMagnitude, binade]
  have hlog : n.log2 < 53 := (Nat.log2_lt hpos.ne').mpr h
  have hfits := (significand_bounds hpos.ne' h).2
  have hexponent : (n.log2 + 1022) * binade ≤ 1074 * binade :=
    Nat.mul_le_mul_right _ (by omega)
  simp only [isFinite, magnitude_ofNat hpos.ne' h, infiniteMagnitude, decide_eq_true_eq]
  omega

/-- **A natural number below 2 ^ 53 is a double exactly.** -/
theorem scaled_ofNat {n : Nat} (h : n < 2 ^ 53) : (ofNat n).scaled = n * unitsPerOne := by
  rcases Nat.eq_zero_or_pos n with rfl | hpos
  · simp [ofNat_zero, zero, signedZero, scaled]
  obtain ⟨hlow, hhigh⟩ := significand_bounds hpos.ne' h
  have hexponent : (ofNat n).magnitude / binade = n.log2 + 1022 + 1 := by
    rw [magnitude_ofNat hpos.ne' h, Nat.add_comm, Nat.add_mul_div_right _ _ (by decide),
      Nat.div_eq_of_lt_le (by omega : 1 * binade ≤ _) (by omega)]
    omega
  have hfraction : binade + (ofNat n).magnitude % binade = n * 2 ^ (52 - n.log2) := by
    rw [magnitude_ofNat hpos.ne' h, Nat.add_comm ((n.log2 + 1022) * binade),
      Nat.add_mul_mod_self_right, Nat.mod_eq_sub_mod hlow, Nat.mod_eq_of_lt (by omega)]
    omega
  unfold scaled
  simp only [hexponent, hfraction, Nat.succ_ne_zero, if_false, Nat.add_sub_cancel]
  exact (units_eq_significand hpos.ne' h).symm

/-! ### Back from the double, and comparisons with it -/

theorem negative_ofNat (n : Nat) : (ofNat n).negative = false := rfl

theorem isNaN_eq_false {d : Double} (h : d.isFinite = true) : d.isNaN = false := by
  simp only [isFinite, isNaN, decide_eq_true_eq, decide_eq_false_iff_not] at *
  omega

/-- A whole number that fits the significand comes back out of its double. -/
theorem natural?_ofNat {n : Nat} (h : n < 2 ^ 53) : (ofNat n).natural? = some n := by
  simp [natural?, isFinite_ofNat h, negative_ofNat, scaled_ofNat h,
    Nat.mul_div_cancel _ unitsPerOne_pos]

theorem ofInt_natCast (n : Nat) : ofInt n = ofNat n := by
  simp [ofInt, ofNat, Int.not_lt.mpr (Int.natCast_nonneg n)]

/-- What it takes for a double to be a natural number. -/
theorem natural?_eq_some {d : Double} {n : Nat} (h : d.natural? = some n) :
    d.isFinite = true ∧ (d.negative = false ∨ d.magnitude = 0) ∧
      d.scaled = n * unitsPerOne := by
  unfold natural? at h
  split at h
  · rename_i hcond
    simp only [Bool.and_eq_true, Bool.or_eq_true, Bool.not_eq_true', beq_iff_eq] at hcond
    obtain ⟨⟨hfinite, hsign⟩, hwhole⟩ := hcond
    refine ⟨hfinite, hsign, ?_⟩
    have hdiv := Nat.div_add_mod d.scaled unitsPerOne
    rw [hwhole, Option.some.inj h, Nat.mul_comm, Nat.add_zero] at hdiv
    exact hdiv.symm
  · simp at h

/-- **The order of doubles decides the order of whole numbers.** -/
theorem lt_ofNat_iff {d : Double} {n least : Nat} (hd : d.natural? = some n)
    (hleast : least < 2 ^ 53) : d.lt (ofNat least) = true ↔ n < least := by
  obtain ⟨hfinite, hsign, hscaled⟩ := natural?_eq_some hd
  have hrank : d.rank = d.magnitude := by
    rcases hsign with h | h <;> simp [rank, h]
  have hmagnitude : d.magnitude < (ofNat least).magnitude ↔ n < least := by
    rw [← scaled_lt_scaled_iff, hscaled, scaled_ofNat hleast]
    exact Nat.mul_lt_mul_right unitsPerOne_pos
  have hrank' : (ofNat least).rank = (ofNat least).magnitude := rfl
  simp only [lt, isNaN_eq_false hfinite, isNaN_eq_false (isFinite_ofNat hleast), hrank, hrank',
    Bool.not_false, Bool.true_and, decide_eq_true_eq, Int.ofNat_lt, hmagnitude]

/-- A finite double is either less than zero or at zero's place and above. -/
theorem lt_zero_eq_false_iff {d : Double} (h : d.isFinite = true) :
    d.lt (ofNat 0) = false ↔ 0 ≤ d.rank := by
  have hzero : zero.isNaN = false := by decide
  have hrank : zero.rank = 0 := by decide
  simp only [ofNat_zero, lt, isNaN_eq_false h, hzero, hrank, Bool.not_false, Bool.true_and,
    decide_eq_false_iff_not, Int.not_lt]

/-! ### Whole numbers beyond the significand -/

/-- A number that does not fit the significand is rounded to no less than 2 ^ 52, in the
    exponent that its highest bit asks for. -/
theorem le_magnitude_ofNat {n : Nat} (h : 2 ^ 53 ≤ n) : 1075 * binade ≤ (ofNat n).magnitude := by
  have hn : n ≠ 0 := by omega
  have hlog : 53 ≤ n.log2 := (Nat.le_log2 hn).mpr h
  have hexponent : 1075 * binade ≤ (n.log2 + 1022) * binade :=
    Nat.mul_le_mul_right _ (by omega)
  unfold ofNat ofRatio roundMagnitude
  simp only [Nat.div_one, dropped_ofNat hn]
  apply Nat.le_min.mpr
  constructor
  · unfold infiniteMagnitude
    exact Nat.mul_le_mul_right _ (by decide)
  · exact Nat.le_add_right_of_le hexponent

/-- So it does not come back out of its double as a number that takes fewer bits. -/
theorem le_of_natural?_ofNat {n m : Nat} (h : 2 ^ 53 ≤ n) (hm : (ofNat n).natural? = some m) :
    binade ≤ m := by
  obtain ⟨-, -, hscaled⟩ := natural?_eq_some hm
  have hexponent : 1075 ≤ (ofNat n).magnitude / binade :=
    (Nat.le_div_iff_mul_le (by decide)).mpr (le_magnitude_ofNat h)
  have hpow : unitsPerOne ≤ 2 ^ ((ofNat n).magnitude / binade - 1) := by
    unfold unitsPerOne
    exact Nat.pow_le_pow_right (by decide) (by omega)
  have hle : binade * unitsPerOne ≤ m * unitsPerOne := by
    rw [← hscaled]
    exact Nat.le_trans (Nat.mul_le_mul_left binade hpow) (le_scaled (by omega))
  exact Nat.le_of_mul_le_mul_right hle unitsPerOne_pos

theorem magnitude_ofNat_ne_zero {n : Nat} (hn : n ≠ 0) : (ofNat n).magnitude ≠ 0 := by
  rcases Nat.lt_or_ge n (2 ^ 53) with h | h
  · have hlow := (significand_bounds hn h).1
    have hbinade : 0 < binade := by decide
    rw [magnitude_ofNat hn h]
    omega
  · have hle := le_magnitude_ofNat h
    have hbinade : 0 < binade := by decide
    omega

/-- **The whole number that a double is taken for is the one that was written**, if it
    takes no more than 52 bits. -/
theorem eq_of_natural?_ofInt {z : Int} {n : Nat} (h : (ofInt z).natural? = some n)
    (hn : n < binade) : z = n := by
  have hsign : ¬z < 0 := by
    intro hneg
    obtain ⟨-, hsign, -⟩ := natural?_eq_some h
    rcases hsign with hsign | hzero
    · simp [ofInt, ofRatio, hneg] at hsign
    · exact magnitude_ofNat_ne_zero (Int.natAbs_ne_zero.mpr (Int.ne_of_lt hneg)) hzero
  obtain ⟨m, rfl⟩ := Int.eq_ofNat_of_zero_le (Int.not_lt.mp hsign)
  rw [ofInt_natCast] at h
  rcases Nat.lt_or_ge m (2 ^ 53) with hm | hm
  · rw [natural?_ofNat hm] at h
    rw [Option.some.inj h]
  · exact absurd (le_of_natural?_ofNat hm h) (Nat.not_le.mpr hn)

end ModelCatalog.Double
