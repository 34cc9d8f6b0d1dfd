/-
  ModelCatalog/Proofs/Number/Exact.lean
  =====================================
  **Doubles written out in full.**

  A finite double is a whole multiple of the least unit, so it is a quotient with a power
  of ten below; rounding that quotient has nothing to drop and gives the double back
  (`ofRatio_of_scaled`).  Such a quotient is a whole number with a count of decimal places
  (`scaled_toDecimal`), which denote the double again (`toDouble_of_scaled`).
-/
import ModelCatalog.Json.NumberText
import ModelCatalog.Proofs.Number.Whole

namespace ModelCatalog.Double

/-! ### Rounding what is a double already -/

/-- A double without an exponent is as many units as its magnitude. -/
theorem scaled_of_exponent_zero {d : Double} (h : d.magnitude / binade = 0) :
    d.scaled = d.magnitude ∧ d.magnitude < binade := by
  have hlt : d.magnitude < binade := by
    rcases Nat.div_eq_zero_iff.mp h with hzero | hlt
    · exact absurd hzero (by decide)
    · exact hlt
  refine ⟨?_, hlt⟩
  simp only [scaled, h, if_true]
  exact Nat.mod_eq_of_lt hlt

/-- A significand of 53 bits has its highest bit in place 52. -/
theorem log2_significand {f : Nat} (h : f < binade) : (binade + f).log2 = 52 := by
  have hbinade : binade = 2 ^ 52 := rfl
  rw [Nat.log2_eq_iff (by omega)]
  omega

theorem log2_sub_of_lt_binade {n : Nat} (h : n < binade) : n.log2 - 52 = 0 := by
  rcases Nat.eq_zero_or_pos n with rfl | hpos
  · rfl
  · have hlog : n.log2 < 52 := (Nat.log2_lt hpos.ne').mpr h
    omega

/-- **A quotient that is a double is rounded to it.** -/
theorem roundMagnitude_of_scaled {d : Double} (hfinite : d.isFinite = true) {num den : Nat}
    (hden : 0 < den) (h : num * unitsPerOne = d.scaled * den) :
    roundMagnitude num den = d.magnitude := by
  have hfits : d.magnitude ≤ infiniteMagnitude := by
    simp only [isFinite, decide_eq_true_eq] at hfinite
    exact Nat.le_of_lt hfinite
  unfold roundMagnitude
  simp only [h, Nat.mul_div_cancel _ hden]
  apply (congrArg (min infiniteMagnitude) ?_).trans (Nat.min_eq_right hfits)
  by_cases hexponent : d.magnitude / binade = 0
  · obtain ⟨hscaled, hlt⟩ := scaled_of_exponent_zero hexponent
    have hone : den * Nat.pow 2 0 = den := Nat.mul_one den
    rw [hscaled, log2_sub_of_lt_binade hlt, hone, roundQuotient_mul hden, Nat.zero_mul,
      Nat.zero_add]
  · -- the bits beyond the significand are those that the exponent counts, all zero
    obtain ⟨e, he⟩ := Nat.exists_eq_succ_of_ne_zero hexponent
    have hfraction : d.magnitude % binade < binade := Nat.mod_lt _ (by decide)
    have hscaled : d.scaled = (binade + d.magnitude % binade) * 2 ^ e := by
      simp only [scaled, he, Nat.succ_ne_zero, if_false, Nat.succ_sub_one]
      rfl
    have hdropped : d.scaled.log2 - 52 = e := by
      rw [hscaled, log2_mul_two_pow (Nat.ne_of_gt (Nat.add_pos_left (by decide) _)),
        log2_significand hfraction, Nat.add_sub_cancel_left]
    have hround : roundQuotient (d.scaled * den) (den * Nat.pow 2 e) =
        binade + d.magnitude % binade := by
      rw [hscaled, Nat.mul_assoc, Nat.mul_comm (2 ^ e) den]
      exact roundQuotient_mul (Nat.mul_pos hden (Nat.two_pow_pos e))
    rw [hdropped, hround]
    calc e * binade + (binade + d.magnitude % binade)
        = binade * (d.magnitude / binade) + d.magnitude % binade := by
          rw [he, Nat.succ_eq_add_one]
          ring
      _ = d.magnitude := Nat.div_add_mod _ _

theorem ofRatio_of_scaled {d : Double} (hfinite : d.isFinite = true) {num den : Nat}
    (hden : 0 < den) (h : num * unitsPerOne = d.scaled * den) :
    ofRatio d.negative num den = d := by
  have hmagnitude := roundMagnitude_of_scaled hfinite hden h
  cases d
  simp only [ofRatio, mk.injEq, true_and]
  exact hmagnitude

/-! ### Decimals that are doubles -/

theorem magnitude_of_scaled_eq_zero {d : Double} (h : d.scaled = 0) : d.magnitude = 0 := by
  by_contra hne
  have hpos : (signedZero false).magnitude < d.magnitude := Nat.pos_of_ne_zero hne
  have hlt := scaled_lt_scaled hpos
  rw [h] at hlt
  cases hlt

theorem unitsPerOne_eq : unitsPerOne = 2 ^ 1074 := Nat.pow_eq.symm

/-- A coefficient other than zero outweighs the decimal places of a double. -/
theorem places_le {d : Double} {c k : Nat} (hc : c ≠ 0)
    (h : c * unitsPerOne = d.scaled * 10 ^ k) : 3 * k ≤ c.log2 + 1075 := by
  have hscaled : 1 ≤ d.scaled := by
    apply Nat.pos_of_ne_zero
    intro hzero
    rw [hzero, Nat.zero_mul] at h
    exact hc ((Nat.mul_eq_zero.mp h).resolve_right unitsPerOne_pos.ne')
  have hlt : 2 ^ (3 * k) < 2 ^ (c.log2 + 1 + 1074) :=
    calc 2 ^ (3 * k) = (2 ^ 3) ^ k := Nat.pow_mul ..
      _ ≤ 10 ^ k := Nat.pow_le_pow_left (by decide) k
      _ ≤ d.scaled * 10 ^ k := Nat.le_mul_of_pos_left _ hscaled
      _ = c * unitsPerOne := h.symm
      _ < 2 ^ (c.log2 + 1) * unitsPerOne :=
          Nat.mul_lt_mul_of_pos_right Nat.lt_log2_self unitsPerOne_pos
      _ = 2 ^ (c.log2 + 1 + 1074) := by rw [unitsPerOne_eq, ← Nat.pow_add]
  have hle := (Nat.pow_lt_pow_iff_right (by decide)).mp hlt
  omega

/-- **A decimal that is a double denotes it.** -/
theorem toDouble_of_scaled {d : Double} (hfinite : d.isFinite = true) {c k : Nat}
    (h : c * unitsPerOne = d.scaled * 10 ^ k) :
    Decimal.toDouble ⟨d.negative, c, -(k : Int)⟩ = d := by
  unfold Decimal.toDouble
  by_cases hc : c = 0
  · have hscaled : d.scaled = 0 := by
      rw [hc, Nat.zero_mul] at h
      exact (Nat.mul_eq_zero.mp h.symm).resolve_right (Nat.pow_pos (by decide)).ne'
    have hmagnitude := magnitude_of_scaled_eq_zero hscaled
    cases d
    simp only [hc, if_true, signedZero, mk.injEq, true_and]
    exact hmagnitude.symm
  · simp only [hc, if_false]
    cases k with
    | zero =>
      have hratio : c * 10 ^ 0 * unitsPerOne = d.scaled * 1 := by
        rw [Nat.pow_zero, Nat.mul_one, h, Nat.pow_zero]
      exact ofRatio_of_scaled hfinite Nat.one_pos hratio
    | succ k =>
      have hle := places_le hc h
      have hguard : ¬ c.log2 + 1081 < 3 * (k + 1) := by omega
      change (if c.log2 + 1081 < 3 * (k + 1) then _ else _) = d
      rw [if_neg hguard]
      exact ofRatio_of_scaled hfinite (Nat.pow_pos (by decide)) h

/-! ### The decimal of a double -/

theorem factorsOfTwo_le (limit n : Nat) : factorsOfTwo limit n ≤ limit := by
  induction limit generalizing n with
  | zero => exact Nat.le_refl 0
  | succ limit ih =>
    unfold factorsOfTwo
    split
    · exact Nat.succ_le_succ (ih (n / 2))
    · exact Nat.zero_le _

theorem two_pow_factorsOfTwo_dvd (limit n : Nat) : 2 ^ factorsOfTwo limit n ∣ n := by
  induction limit generalizing n with
  | zero => exact Nat.one_dvd n
  | succ limit ih =>
    unfold factorsOfTwo
    split
    · rename_i heven
      have hhalf : n = n / 2 * 2 := by omega
      rw [Nat.pow_succ]
      calc 2 ^ factorsOfTwo limit (n / 2) * 2 ∣ n / 2 * 2 := Nat.mul_dvd_mul_right (ih (n / 2)) 2
        _ = n := hhalf.symm
    · exact Nat.one_dvd n

/-- A double is as many units as its decimal is. -/
theorem scaled_toDecimal (d : Double) :
    ∃ k : Nat, d.toDecimal.exponent = -k ∧
      d.toDecimal.coefficient * unitsPerOne = d.scaled * 10 ^ k := by
  refine ⟨1074 - factorsOfTwo 1074 d.scaled, rfl, ?_⟩
  have hle := factorsOfTwo_le 1074 d.scaled
  obtain ⟨odd, hodd⟩ := two_pow_factorsOfTwo_dvd 1074 d.scaled
  simp only [toDecimal]
  generalize factorsOfTwo 1074 d.scaled = shared at hle hodd ⊢
  have hquotient : d.scaled / Nat.pow 2 shared = odd := by
    rw [hodd]
    exact Nat.mul_div_cancel_left odd (Nat.two_pow_pos shared)
  have hunits : unitsPerOne = 2 ^ shared * 2 ^ (1074 - shared) := by
    rw [← Nat.pow_add, Nat.add_sub_cancel' hle, unitsPerOne_eq]
  have hten : 10 ^ (1074 - shared) = 2 ^ (1074 - shared) * 5 ^ (1074 - shared) :=
    Nat.mul_pow 2 5 _
  rw [hquotient, hunits, hodd, hten]
  change odd * 5 ^ (1074 - shared) * _ = _
  ring

/-- **The decimal of a finite double denotes it.** -/
theorem toDouble_toDecimal {d : Double} (hfinite : d.isFinite = true) :
    d.toDecimal.toDouble = d := by
  obtain ⟨k, hexponent, hunits⟩ := d.scaled_toDecimal
  have hdecimal : d.toDecimal = ⟨d.negative, d.toDecimal.coefficient, -(k : Int)⟩ := by
    rw [← hexponent]
    rfl
  rw [hdecimal]
  exact toDouble_of_scaled hfinite hunits

end ModelCatalog.Double
