/-
  ModelCatalog/Proofs/Json/Approximation.lean
  ===========================================
  **What a number in a JSON text is read as.**

  A reader keeps as many digits as fit 64 bits (`Numeral.exists_kept`), and rounds them, the
  power of ten and the product or quotient of the two, one after the other.  If the digits
  are a number below 2 ^ 53 and the power of ten is at most 10 ^ 22, both are doubles, so
  only the last step rounds and the number is read as the double that it denotes
  (`Decimal.approximate?_of_short`).  Otherwise the double read may be another one, but the
  text of a finite double is always read as one (`Double.ofWord?_render`).
-/
import ModelCatalog.Proofs.Json.NumberText

namespace ModelCatalog

/-! ### What is kept -/

theorem takeDigits_eq {significand : Nat} (hle : significand ≤ maxSignificand) (cs : List Char) :
    ∃ taken left, takeDigits significand cs =
        (significand * 10 ^ taken.length + ofDigits taken, left) ∧
      cs = taken ++ left ∧ significand * 10 ^ taken.length + ofDigits taken ≤ maxSignificand ∧
      (significand * 10 ^ cs.length + ofDigits cs ≤ maxSignificand → left = []) := by
  induction cs generalizing significand with
  | nil => exact ⟨[], [], by simp [takeDigits, ofDigits], rfl, by simpa [ofDigits] using hle,
      fun _ => rfl⟩
  | cons c cs ih =>
    have hcons : ∀ ds : List Char, significand * 10 ^ (c :: ds).length + ofDigits (c :: ds) =
        (10 * significand + digitValue c) * 10 ^ ds.length + ofDigits ds := by
      intro ds
      have hsplit := ofDigits_append [c] ds
      rw [List.singleton_append] at hsplit
      have hone : ofDigits [c] = digitValue c := by simp [ofDigits]
      rw [hsplit, hone, List.length_cons, Nat.pow_succ]
      ring
    unfold takeDigits
    dsimp only
    split
    · rename_i hnext
      obtain ⟨taken, left, heq, hcs, hmax, hall⟩ := ih hnext
      refine ⟨c :: taken, left, ?_, by rw [hcs]; rfl, ?_, ?_⟩
      · rw [hcons, heq]
      · rw [hcons]
        exact hmax
      · rw [hcons]
        exact hall
    · rename_i hnext
      refine ⟨[], c :: cs, by simp [ofDigits], rfl, by simpa [ofDigits] using hle, ?_⟩
      intro hfits
      rw [hcons] at hfits
      have hpow : 0 < 10 ^ cs.length := Nat.pow_pos (by decide)
      exact absurd ((Nat.le_mul_of_pos_right _ hpow).trans (Nat.le_of_add_right_le hfits)) hnext

namespace Numeral

/-- **What is kept of a numeral** is its decimal with some of the last digits dropped, and
    none if all of them fit. -/
theorem exists_kept {n : Numeral} (hwhole : ofDigits n.whole ≤ maxSignificand)
    (negative : Bool) :
    ∃ c dropped : Nat,
      n.kept negative = ⟨negative, c, (n.toDecimal negative).exponent + dropped⟩ ∧
      c ≤ maxSignificand ∧ c * 10 ^ dropped ≤ (n.toDecimal negative).coefficient ∧
      ((n.toDecimal negative).coefficient ≤ maxSignificand →
        n.kept negative = n.toDecimal negative) := by
  have hnone : takeDigits 0 n.whole = (ofDigits n.whole, []) := by
    obtain ⟨taken, left, heq, hcs, -, hall⟩ := takeDigits_eq (Nat.zero_le maxSignificand) n.whole
    obtain rfl := hall (by simpa using hwhole)
    rw [List.append_nil] at hcs
    rw [heq, Nat.zero_mul, Nat.zero_add, hcs]
  obtain ⟨taken, left, heq, hcs, hmax, hall⟩ := takeDigits_eq hwhole (n.fraction.getD [])
  have hlength : (n.fraction.getD []).length = taken.length + left.length := by
    conv_lhs => rw [hcs]
    exact List.length_append
  have hkept : n.kept negative =
      ⟨negative, ofDigits n.whole * 10 ^ taken.length + ofDigits taken,
        (n.toDecimal negative).exponent + left.length⟩ := by
    simp only [kept, hnone, heq, toDecimal, hlength, List.length_nil, Decimal.mk.injEq, true_and]
    push_cast
    ring
  have hcoefficient : (n.toDecimal negative).coefficient =
      (ofDigits n.whole * 10 ^ taken.length + ofDigits taken) * 10 ^ left.length +
        ofDigits left := by
    simp only [toDecimal]
    rw [hcs, ← List.append_assoc, ofDigits_append, ofDigits_append]
  refine ⟨_, left.length, hkept, hmax, ?_, ?_⟩
  · rw [hcoefficient]
    exact Nat.le_add_right _ _
  · intro hfits
    simp only [toDecimal] at hfits
    rw [ofDigits_append] at hfits
    obtain rfl := hall hfits
    rw [hkept]
    simp only [toDecimal, List.length_nil] at hcoefficient ⊢
    rw [hcoefficient]
    simp [ofDigits]

end Numeral

/-! ### Products and quotients -/

namespace Double

variable {a b d x : Double} {q : ℚ}

theorem signFactor_bne (negative negative' : Bool) :
    signFactor (negative != negative') = signFactor negative * signFactor negative' := by
  cases negative <;> cases negative' <;> norm_num [signFactor]

theorem isNearest_mul (a b : Double) : (a.mul b).IsNearest (a.value * b.value) := by
  have hunits : 0 < unitsPerOne * unitsPerOne := Nat.mul_pos unitsPerOne_pos unitsPerOne_pos
  have hnear := isNearest_ofRatio (a.negative != b.negative) (a.scaled * b.scaled) hunits
  rw [signFactor_bne] at hnear
  have hvalue : signFactor a.negative * signFactor b.negative *
      ((a.scaled * b.scaled : Nat) / (unitsPerOne * unitsPerOne : Nat) : ℚ) =
        a.value * b.value := by
    rw [value, value]
    push_cast
    rw [mul_div_mul_comm]
    ring
  rwa [hvalue] at hnear

/-- The value of a double without a minus sign. -/
theorem value_of_nonnegative (hsign : x.negative = false) : x.value = x.scaled / unitsPerOne := by
  rw [value, hsign, signFactor, if_neg Bool.false_ne_true, one_mul]

theorem isNearest_div (a : Double) (hsign : b.negative = false) (hpos : 0 < b.scaled) :
    (a.div b).IsNearest (a.value / b.value) := by
  have hnear := isNearest_ofRatio (a.negative != b.negative) a.scaled hpos
  have hvalue : signFactor (a.negative != b.negative) * ((a.scaled : ℚ) / b.scaled) =
      a.value / b.value := by
    rw [value_of_nonnegative hsign, hsign, Bool.bne_false, value, mul_div_assoc,
      div_div_div_cancel_right₀ units_pos.ne']
  rwa [hvalue] at hnear

theorem isNearest_ofNat (n : Nat) : (ofNat n).IsNearest n := by
  have hnear := isNearest_ofRatio false n Nat.one_pos
  rwa [signFactor, if_neg Bool.false_ne_true, one_mul, Nat.cast_one, div_one] at hnear

theorem value_ofNat_mono {m n : Nat} (h : m ≤ n) : (ofNat m).value ≤ (ofNat n).value :=
  (isNearest_ofNat m).mono (isNearest_ofNat n) (Nat.cast_le.mpr h)

/-! ### Powers of ten -/

theorem scaled_powerOfTen : ∀ k < 23, (powerOfTen k).scaled = 10 ^ k * unitsPerOne := by
  decide +kernel

theorem value_powerOfTen_mono {k l : Nat} (h : k ≤ l) :
    (powerOfTen k).value ≤ (powerOfTen l).value :=
  value_ofNat_mono (Nat.pow_le_pow_right (by decide) h)

theorem one_le_powerOfTen (k : Nat) : 1 ≤ (powerOfTen k).value := by
  have hone : (powerOfTen 0).value = 1 := by
    rw [value_of_nonnegative rfl, scaled_powerOfTen 0 (by decide), Nat.pow_zero, Nat.one_mul,
      div_self units_pos.ne']
  rw [← hone]
  exact value_powerOfTen_mono (Nat.zero_le k)

/-! ### Few digits -/

end Double

/-- The digits and the power of ten of a decimal are doubles. -/
def Decimal.Short (d : Decimal) : Prop := d.coefficient < 2 ^ 53 ∧ d.exponent.natAbs ≤ 22

namespace Decimal

open Double

/-- A rounded quotient that takes the sign of a decimal and is nearest to it is the double
    that it denotes. -/
theorem ofRatio_eq_toDouble {d : Decimal} {num den : Nat} (hden : 0 < den)
    (h : (num : ℚ) / den = d.coefficient * 10 ^ d.exponent) :
    ofRatio d.negative num den = d.toDouble := by
  apply eq_of_value d.negative_toDouble.symm
  have hnear := isNearest_ofRatio d.negative num hden
  rw [h] at hnear
  exact hnear.value_unique (isNearest_toDouble d)

theorem scaled_ofCoefficient {c : Nat} (hc : c < 2 ^ 53) :
    ((Double.ofNat c).scaled : ℚ) = c * unitsPerOne := by
  rw [scaled_ofNat hc, Nat.cast_mul]

/-- **A short decimal is read as the double that it denotes.** -/
theorem approximate?_of_short {d : Decimal} (h : d.Short) (hfinite : d.toDouble.isFinite = true) :
    d.approximate? = some d.toDouble := by
  obtain ⟨hcoefficient, hexponent⟩ := h
  have hx := scaled_ofCoefficient hcoefficient
  have hunits := Double.units_pos.ne'
  -- one rounded quotient, to which the sign is put in the end
  suffices hsize : ∃ num den : Nat, 0 < den ∧ (num : ℚ) / den = d.coefficient * 10 ^ d.exponent ∧
      d.approximate? = ((some (ofRatio false num den)).filter Double.isFinite).map
        fun y => { y with negative := d.negative } by
    obtain ⟨num, den, hden, hvalue, heq⟩ := hsize
    have hdouble := ofRatio_eq_toDouble hden hvalue
    have hkept : (ofRatio false num den).isFinite = true := by
      rw [← hdouble] at hfinite
      exact hfinite
    rw [heq, Option.filter_some, if_pos hkept, Option.map_some, ← hdouble]
    rfl
  unfold approximate?
  cases he : d.exponent with
  | ofNat e =>
    rw [he] at hexponent
    have hle : e ≤ 22 := hexponent
    have hp := scaled_powerOfTen e (by omega)
    refine ⟨(Double.ofNat d.coefficient).scaled * (powerOfTen e).scaled,
      unitsPerOne * unitsPerOne, Nat.mul_pos unitsPerOne_pos unitsPerOne_pos, ?_, ?_⟩
    · rw [zpow_ten, hp, Nat.cast_mul, Nat.cast_mul, Nat.cast_mul, hx, mul_mul_mul_comm,
        mul_div_cancel_right₀ _ (mul_ne_zero hunits hunits)]
    · dsimp only
      rw [if_pos (hle.trans (by decide))]
      rfl
  | negSucc e =>
    rw [he] at hexponent
    have hlt : e < 22 := hexponent
    have hp := scaled_powerOfTen (e + 1) (by omega)
    refine ⟨(Double.ofNat d.coefficient).scaled, (powerOfTen (e + 1)).scaled, ?_, ?_, ?_⟩
    · rw [hp]
      exact Nat.mul_pos (Nat.pow_pos (by decide)) unitsPerOne_pos
    · rw [zpow_ten_neg, hp, hx, Nat.cast_mul, mul_div_mul_right _ _ hunits, mul_one_div]
    · have hlast : e % maxPower = e := Nat.mod_eq_of_lt (hlt.trans (by decide))
      have htimes : e / maxPower = 0 := Nat.div_eq_of_lt (hlt.trans (by decide))
      dsimp only
      rw [hlast, htimes]
      rfl

end Decimal

/-! ### Any digits -/

namespace Double

/-- Finite and without a minus sign. -/
structure Unsigned (x : Double) : Prop where
  finite : x.isFinite = true
  nonnegative : x.negative = false

variable {x b : Double}

theorem value_nonneg (hsign : x.negative = false) : 0 ≤ x.value := by
  rw [value_of_nonnegative hsign]
  exact div_nonneg (Nat.cast_nonneg _) units_pos.le

theorem Unsigned.of_le (hsign : x.negative = false) (hb : b.isFinite = true)
    (hle : x.value ≤ b.value) : x.Unsigned := by
  refine ⟨(isFinite_iff_value x).mpr ⟨?_, ?_⟩, hsign⟩
  · have hzero : zero.value = 0 := by
      have hscaled : zero.scaled = 0 := rfl
      rw [value, hscaled, Nat.cast_zero, zero_div, mul_zero]
    have hlt : (infinity true).value < zero.value := (value_lt_value_iff _ _).mpr (by decide)
    exact hlt.trans_le (hzero.trans_le (value_nonneg hsign))
  · exact hle.trans_lt ((isFinite_iff_value b).mp hb).2

/-- The significands that are kept are finite. -/
theorem unsigned_ofNat {c : Nat} (hc : c ≤ maxSignificand) : (ofNat c).Unsigned :=
  .of_le rfl (b := ofNat maxSignificand) (by decide +kernel) (value_ofNat_mono hc)

/-- A quotient by a power of ten is no greater. -/
theorem Unsigned.div_powerOfTen (h : x.Unsigned) (k : Nat) : (x.div (powerOfTen k)).Unsigned := by
  have hone := one_le_powerOfTen k
  have hpos : 0 < (powerOfTen k).scaled := by
    rw [value_of_nonnegative rfl] at hone
    by_contra hzero
    rw [Nat.eq_zero_of_not_pos hzero, Nat.cast_zero, zero_div] at hone
    exact absurd hone (by norm_num)
  have hsign : (x.div (powerOfTen k)).negative = false := by
    change (x.negative != false) = false
    rw [h.nonnegative]
    rfl
  have hnan : x.isNaN = false := decide_eq_false (Nat.lt_asymm (of_decide_eq_true h.finite))
  have hle : x.value / (powerOfTen k).value ≤ x.value :=
    div_le_self (value_nonneg h.nonnegative) hone
  exact .of_le hsign h.finite ((isNearest_div x rfl hpos).ge_of_ge hnan hle)

theorem Unsigned.divPowers (h : x.Unsigned) (last times : Nat) :
    (x.divPowers last times).Unsigned := by
  induction times generalizing x with
  | zero => exact h.div_powerOfTen last
  | succ times ih =>
    unfold Double.divPowers
    split
    · exact h
    · exact ih (h.div_powerOfTen maxPower)

/-- The greatest finite double but one. -/
def nearLargest (negative : Bool) : Double := ⟨negative, infiniteMagnitude - 2, by decide⟩

def nearLargestWhole : Nat := (nearLargest false).scaled / unitsPerOne

/-- The products that do not pass that number are finite, although the factors are rounded;
    below 10 ^ 288 any significand makes such a product. -/
theorem isFinite_mul_largest : ∀ i ≤ 20,
    ((ofNat (min maxSignificand (nearLargestWhole / 10 ^ (288 + i)))).mul
      (powerOfTen (288 + i))).isFinite = true := by
  decide +kernel

theorem unsigned_mul_powerOfTen {c e : Nat} (hc : c ≤ maxSignificand) (he : e ≤ maxPower)
    (h : c * 10 ^ e ≤ nearLargestWhole) : ((ofNat c).mul (powerOfTen e)).Unsigned := by
  have hlarge : maxSignificand ≤ nearLargestWhole / 10 ^ (288 + 0) := by decide +kernel
  obtain ⟨i, hi, hexponent, hcoefficient⟩ : ∃ i ≤ 20, e ≤ 288 + i ∧
      c ≤ min maxSignificand (nearLargestWhole / 10 ^ (288 + i)) := by
    rcases Nat.le_total e 288 with hle | hle
    · exact ⟨0, Nat.zero_le _, hle, le_min hc (hc.trans hlarge)⟩
    · have hexponent : 288 + (e - 288) = e := Nat.add_sub_of_le hle
      refine ⟨e - 288, Nat.sub_le_sub_right he 288, hexponent.ge, le_min hc ?_⟩
      rw [hexponent]
      exact (Nat.le_div_iff_mul_le (Nat.pow_pos (by decide))).mpr h
  refine .of_le rfl (isFinite_mul_largest i hi) ?_
  apply (isNearest_mul _ _).mono (isNearest_mul _ _)
  exact mul_le_mul (value_ofNat_mono hcoefficient) (value_powerOfTen_mono hexponent)
    (value_nonneg rfl) (value_nonneg rfl)

/-! ### The text of a double -/

/-- The number that a finite double is nearest to is not above the next double. -/
theorem le_of_isNearest {d : Double} {q : ℚ} {magnitude : Nat}
    (h : d.IsNearest (signFactor d.negative * q)) (hlt : d.magnitude < magnitude)
    (hmagnitude : magnitude ≤ infiniteMagnitude) :
    q ≤ (⟨false, magnitude, Nat.lt_of_le_of_lt hmagnitude (by decide)⟩ : Double).value := by
  let b (negative : Bool) : Double :=
    ⟨negative, magnitude, Nat.lt_of_le_of_lt hmagnitude (by decide)⟩
  have hnan (negative : Bool) : (b negative).isNaN = false :=
    decide_eq_false (Nat.not_lt.mpr hmagnitude)
  have hvalue (negative : Bool) : (b negative).value = signFactor negative * (b false).value := by
    rw [value, value_of_nonnegative rfl]
    rfl
  change q ≤ (b false).value
  by_contra hgt
  rw [not_le] at hgt
  cases hsign : d.negative with
  | false =>
    rw [hsign, signFactor, if_neg Bool.false_ne_true, one_mul] at h
    have hle := h.le_of_le (hnan false) hgt.le
    rw [← not_lt, value_lt_value_iff, rank, rank, hsign] at hle
    simp only [Bool.false_eq_true, if_false, Int.ofNat_lt, b] at hle
    exact hle hlt
  | true =>
    rw [hsign, signFactor, if_pos rfl, neg_one_mul] at h
    have hneg : (b true).value = -(b false).value := by
      rw [hvalue, signFactor, if_pos rfl, neg_one_mul]
    have hge := h.ge_of_ge (hnan true) (by rw [hneg]; exact neg_le_neg hgt.le)
    rw [← not_lt, value_lt_value_iff, rank, rank, hsign] at hge
    simp only [if_true, b] at hge
    omega

end Double

namespace Decimal

open Double

variable {d : Decimal}

theorem finite_of_approximate? {x : Double} (h : d.approximate? = some x) :
    x.isFinite = true ∧ x.negative = d.negative := by
  unfold approximate? at h
  obtain ⟨y, hy, rfl⟩ := Option.map_eq_some_iff.mp h
  exact ⟨(Option.filter_eq_some_iff.mp hy).2, rfl⟩

theorem isSome_approximate?_signed (negative : Bool) (d : Decimal) :
    ({ d with negative := negative } : Decimal).approximate?.isSome = d.approximate?.isSome := by
  unfold approximate?
  rw [Option.isSome_map, Option.isSome_map]

theorem isSome_approximate? (hc : d.coefficient ≤ maxSignificand)
    (h : ∀ e : Nat, d.exponent = e → d.coefficient * 10 ^ e ≤ nearLargestWhole) :
    d.approximate?.isSome = true := by
  suffices hsize : ∃ x : Double, x.Unsigned ∧ d.approximate? =
      ((some x).filter Double.isFinite).map fun y => { y with negative := d.negative } by
    obtain ⟨x, hx, heq⟩ := hsize
    rw [heq, Option.filter_some, if_pos hx.finite]
    rfl
  have hx := unsigned_ofNat hc
  unfold approximate?
  cases he : d.exponent with
  | ofNat e =>
    dsimp only
    split_ifs with hpower hzero
    · exact ⟨_, unsigned_mul_powerOfTen hc hpower (h e he), rfl⟩
    · exact ⟨_, hx, rfl⟩
    · -- any other number with such an exponent is too large
      have hpos : 0 < d.coefficient := by
        apply Nat.pos_of_ne_zero
        intro hcoefficient
        rw [hcoefficient] at hzero
        exact hzero (by decide +kernel)
      have hlarge : nearLargestWhole < 10 ^ (maxPower + 1) := by decide +kernel
      have hmono : 10 ^ (maxPower + 1) ≤ 10 ^ e :=
        Nat.pow_le_pow_right (by decide) (Nat.not_le.mp hpower)
      have hle := (Nat.le_mul_of_pos_left (10 ^ e) hpos).trans (h e he)
      exact absurd (hmono.trans hle) (Nat.not_le.mpr hlarge)
  | negSucc e => exact ⟨_, hx.divPowers _ _, rfl⟩

end Decimal

namespace Double

variable {d : Double}

theorem ofDigits_whole_le (hfinite : d.isFinite = true) :
    ofDigits d.numeral.whole ≤ maxSignificand := by
  have hdigits := ofDigits_lt (proper_numeral hfinite).whole_digits
  have hlength := Nat.pow_le_pow_right (show 0 < 10 by decide) d.laid_numeral.length_whole_le
  exact (hdigits.le.trans hlength).trans (by decide)

/-- The two greatest doubles are read as finite ones. -/
theorem isSome_approximate?_largest : ∀ i < 2,
    (((⟨false, infiniteMagnitude - (i + 1), Nat.lt_of_le_of_lt (Nat.sub_le _ _)
      (by decide)⟩ : Double).numeral.kept false).approximate?).isSome = true := by
  decide +kernel

/-- What is kept of the numeral of a finite double is read as a finite one. -/
theorem isSome_approximate?_numeral (hfinite : d.isFinite = true) :
    (d.numeral.kept d.negative).approximate?.isSome = true := by
  have hlt : d.magnitude < infiniteMagnitude := of_decide_eq_true hfinite
  rcases Nat.lt_or_ge d.magnitude (infiniteMagnitude - 2) with hsmall | hlarge
  · obtain ⟨c, dropped, hkept, hc, hle, -⟩ :=
      Numeral.exists_kept (ofDigits_whole_le hfinite) d.negative
    have hnear := isNearest_toDouble (d.numeral.toDecimal d.negative)
    rw [toDouble_numeral hfinite] at hnear
    have hbound := le_of_isNearest hnear hsmall (Nat.sub_le _ _)
    change _ ≤ (nearLargest false).value at hbound
    rw [hkept]
    refine Decimal.isSome_approximate? hc ?_
    intro e he
    change (d.numeral.toDecimal d.negative).exponent + dropped = e at he
    have hten : (10 : ℚ) ≠ 0 := by norm_num
    have hvalue : (c : ℚ) * 10 ^ e ≤ (nearLargest false).value :=
      calc (c : ℚ) * 10 ^ e = (c * 10 ^ dropped : Nat) *
            10 ^ (d.numeral.toDecimal d.negative).exponent := by
            rw [← zpow_natCast, ← he, zpow_add₀ hten]
            push_cast
            rw [zpow_natCast]
            ring
        _ ≤ (d.numeral.toDecimal d.negative).coefficient *
            10 ^ (d.numeral.toDecimal d.negative).exponent := by gcongr
        _ ≤ (nearLargest false).value := hbound
    rw [value_of_nonnegative rfl, le_div_iff₀ units_pos] at hvalue
    exact (Nat.le_div_iff_mul_le unitsPerOne_pos).mpr (by exact_mod_cast hvalue)
  · obtain ⟨i, hi, hmagnitude⟩ : ∃ i < 2, d.magnitude = infiniteMagnitude - (i + 1) :=
      ⟨infiniteMagnitude - 1 - d.magnitude, by omega, by omega⟩
    have hread := isSome_approximate?_largest i hi
    obtain ⟨negative, magnitude, hmagnitude_lt⟩ := d
    change magnitude = _ at hmagnitude
    subst hmagnitude
    -- the sign is set last, and has no part in the numeral
    rw [← numeral_signed negative, ← Decimal.isSome_approximate?_signed negative] at hread
    exact hread

end Double

/-! ### Words -/

namespace Number

theorem ofWord?_signed (negative : Bool) {cs : List Char} (hcs : ∀ c ∈ cs.head?, c ≠ '-') :
    ofWord? ((if negative then ['-'] else []) ++ cs) =
      (Numeral.scan? cs).bind (ofNumeral? negative) := by
  cases negative with
  | true => rfl
  | false =>
    unfold ofWord?
    split
    · rename_i rest heq
      have hminus : cs = '-' :: rest := heq
      exact absurd rfl (hcs '-' (by rw [hminus]; rfl))
    · rfl

/-- A proper numeral with a point or an exponent is read as a double. -/
theorem ofNumeral?_of_proper {n : Numeral} (h : n.Proper)
    (hinteger : (n.fraction.isNone && n.exponent.isNone) = false) (negative : Bool) :
    ofNumeral? negative n = (n.kept negative).approximate?.map .double := by
  have hempty : n.whole.isEmpty = false := List.isEmpty_eq_false_iff.mpr h.whole_ne_nil
  have hzero : (n.whole.head? == some '0' && decide (1 < n.whole.length)) = false := by
    rw [Bool.and_eq_false_imp]
    intro hhead
    exact decide_eq_false (Nat.not_lt.mpr (h.leadingZero (eq_of_beq hhead)))
  have hfraction : (n.fraction == some []) = false := beq_false_of_ne h.fraction_ne_nil
  unfold ofNumeral?
  simp only [hempty, hzero, hfraction, hinteger, Bool.false_or, Bool.false_and,
    Bool.false_eq_true, if_false]

end Number

/-! ### Texts of doubles -/

namespace Double

/-- A double whose text has few digits and stands for no great power of ten. -/
def ShortText (d : Double) : Prop := (d.numeral.toDecimal d.negative).Short

instance (d : Double) : Decidable d.ShortText := inferInstanceAs (Decidable (_ ∧ _))

/-- The double that the text of a double is read as. -/
def reread (d : Double) : Double :=
  ((d.numeral.kept d.negative).approximate?).getD d

variable {d : Double}

theorem approximate?_numeral (hfinite : d.isFinite = true) :
    (d.numeral.kept d.negative).approximate? = some d.reread := by
  obtain ⟨x, hx⟩ := Option.isSome_iff_exists.mp (isSome_approximate?_numeral hfinite)
  rw [reread, hx, Option.getD_some]

/-- **The text of a finite double is read as a finite double** -/
theorem ofWord?_render (hfinite : d.isFinite = true) :
    Number.ofWord? d.render.toList = some (.double d.reread) := by
  have hproper := proper_numeral hfinite
  have hhead : ∀ c ∈ d.numeral.text.head?, c ≠ '-' := by
    intro c hc
    rw [Numeral.text, List.head?_append_of_ne_nil _ hproper.whole_ne_nil] at hc
    exact ne_of_isDigit (hproper.whole_digits c (List.mem_of_mem_head? hc)) rfl
  rw [toList_render, Number.ofWord?_signed d.negative hhead, Numeral.scan?_text hproper,
    Option.bind_some, Number.ofNumeral?_of_proper hproper d.laid_numeral.not_integer,
    approximate?_numeral hfinite, Option.map_some]

theorem isFinite_reread (hfinite : d.isFinite = true) : d.reread.isFinite = true :=
  (Decimal.finite_of_approximate? (approximate?_numeral hfinite)).1

/-- of the same sign, -/
theorem negative_reread (hfinite : d.isFinite = true) : d.reread.negative = d.negative :=
  (Decimal.finite_of_approximate? (approximate?_numeral hfinite)).2

/-- **and a short one as the double that was written.** -/
theorem reread_of_shortText (hfinite : d.isFinite = true) (hshort : d.ShortText) :
    d.reread = d := by
  have hdouble := toDouble_numeral hfinite
  obtain ⟨-, -, -, -, -, hall⟩ := Numeral.exists_kept (ofDigits_whole_le hfinite) d.negative
  have hread := Decimal.approximate?_of_short hshort (by rwa [hdouble])
  rw [hdouble, ← hall (hshort.1.le.trans (by decide)), approximate?_numeral hfinite] at hread
  exact Option.some.inj hread

end Double

end ModelCatalog
