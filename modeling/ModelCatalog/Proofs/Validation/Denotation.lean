/-
  ModelCatalog/Proofs/Validation/Denotation.lean
  ==============================================
  **Which number a value writes.**

  `Denotes` says which double is given by a number or by the text of one, and
  `WritesInteger` which integer is; neither mentions a reader.  What is read is denoted
  (`Denotes.of_double?`), and what denotes a finite double is read as that number
  (`Denotes.double?_eq_some`): nothing is read exactly where no finite double is denoted
  (`double?_eq_none_iff`).  A double is a count if it is a whole number within bounds
  (`IsCount`), which the order of doubles decides.
-/
import ModelCatalog.Proofs.Number.Numerals
import ModelCatalog.Validation.Leaf

namespace ModelCatalog

/-! ### Counts among the doubles -/

namespace Double

/-- A whole number that is at least `least` and takes no more than 32 bits. -/
structure IsCount (least : Nat) (x : Double) : Prop where
  finite : x.isFinite = true
  whole : ∃ z : ℤ, x.value = z
  least_le : least ≤ x.value
  le_max : x.value ≤ 4294967295

variable {x y : Double} {least : Nat} {z : ℤ}

theorem lt_ofNat_iff_value (hx : x.isFinite = true) (hleast : least ≤ 1) :
    x.lt (.ofNat least) = true ↔ x.value < least := by
  have hsmall : least < 2 ^ 53 := Nat.lt_of_le_of_lt hleast (by decide)
  rw [lt_iff_value_lt (isNaN_eq_false hx) (isNaN_eq_false (isFinite_ofNat hsmall)),
    value_ofNat hsmall]

theorem not_lt_ofNat (hx : x.isFinite = true) (hleast : least ≤ 1) (hle : least ≤ x.value) :
    ¬ x.lt (.ofNat least) = true := by
  rw [lt_ofNat_iff_value hx hleast]
  exact not_lt.mpr hle

/-- An integer that is not negative is read as a natural number. -/
theorem exists_natural? (hx : x.isFinite = true) (hz : x.value = z) (hleast : least ≤ x.value) :
    ∃ n : Nat, x.natural? = some n ∧ z = n := by
  have hle : (least : ℤ) ≤ z := by
    rw [hz] at hleast
    exact_mod_cast hleast
  obtain ⟨n, rfl⟩ := Int.eq_ofNat_of_zero_le (Int.le_trans (Int.natCast_nonneg least) hle)
  exact ⟨n, natural?_eq_some_iff.mpr ⟨hx, hz⟩, rfl⟩

/-- Doubles that are one number are one natural number, or none. -/
theorem SameNumber.natural? (h : x.SameNumber y) (hx : x.isFinite = true) :
    x.natural? = y.natural? := by
  ext n
  rw [natural?_eq_some_iff, natural?_eq_some_iff, ← h.1, h.2 hx]

end Double

namespace Validation

variable {v : Json} {x : Double} {z : ℤ}

/-! ### What is written -/

/-- The doubles that a value denotes: a number the one nearest to it, and a text with blank
    characters around it those of the grammar. -/
inductive Denotes : Json → Double → Prop
  | integer {z : ℤ} {x : Double} (hx : x.IsNearest z) : Denotes (.number (.integer z)) x
  | double (x : Double) : Denotes (.number (.double x)) x
  | text {s : String} {before core after : List Char} {x : Double}
      (hs : s.toList = before ++ (core ++ after)) (hbefore : ∀ c ∈ before, Text.isBlank c = true)
      (hafter : ∀ c ∈ after, Text.isBlank c = true) (h : DenotedBy core x) :
      Denotes (.string s) x

/-- The integer that a value writes: a number as such, or a text of digits with a sign or
    without one and with blank characters around it. -/
inductive WritesInteger : Json → ℤ → Prop
  | number (z : ℤ) : WritesInteger (.number (.integer z)) z
  | text {s : String} {before sign ds after : List Char} {negative : Bool}
      (hs : s.toList = before ++ ((sign ++ ds) ++ after))
      (hbefore : ∀ c ∈ before, Text.isBlank c = true)
      (hafter : ∀ c ∈ after, Text.isBlank c = true) (hsign : SpellsSign sign negative)
      (hds : AllDigits ds) (hne : ds ≠ []) :
      WritesInteger (.string s) (if negative then -(ofDigits ds : ℤ) else ofDigits ds)

/-- What writes an integer denotes the double nearest to it. -/
theorem WritesInteger.denotes (h : WritesInteger v z) (hx : x.IsNearest z) : Denotes v x := by
  cases h with
  | number => exact .integer hx
  | @text s before sign ds after negative hs hbefore hafter hsign hds hne =>
    refine .text hs hbefore hafter ?_
    have hvalue : (((if negative then -(ofDigits ds : ℤ) else ofDigits ds : ℤ)) : ℚ) =
        Double.signFactor negative * (ofDigits ds / 10 ^ 0 * 10 ^ (0 : ℤ)) := by
      cases negative <;> simp [Double.signFactor]
    rw [hvalue] at hx
    simpa using DenotedBy.numeral hsign (.whole hds hne) .absent hx

/-! ### What is read -/

/-- **What denotes a finite double is read as that number**, and other values as none. -/
theorem Denotes.exists_double? (h : Denotes v x) :
    ∃ y, double? v = (some y).filter Double.isFinite ∧ y.SameNumber x := by
  cases h with
  | @integer z x hx => exact ⟨.ofInt z, rfl, (Double.isNearest_ofInt z).sameNumber hx⟩
  | double => exact ⟨x, rfl, .rfl⟩
  | text hs hbefore hafter h =>
    obtain ⟨y, hread, hsame⟩ := exists_ofText?_trim hs hbefore hafter h
    exact ⟨y, congrArg (Option.filter Double.isFinite) hread, hsame⟩

theorem Denotes.double?_eq_none (h : Denotes v x) (hx : x.isFinite = false) :
    double? v = none := by
  obtain ⟨y, hread, hfinite, -⟩ := h.exists_double?
  rw [hx] at hfinite
  rw [hread]
  simp [hfinite]

theorem Denotes.double?_eq_some (h : Denotes v x) (hx : x.isFinite = true) :
    ∃ y, double? v = some y ∧ y.SameNumber x := by
  obtain ⟨y, hread, hsame⟩ := h.exists_double?
  refine ⟨y, ?_, hsame⟩
  rw [hread]
  simp [hsame.1, hx]

theorem isFinite_of_double? (h : double? v = some x) : x.isFinite = true :=
  (Option.filter_eq_some_iff.mp h).2

/-- **What is read is denoted.** -/
theorem Denotes.of_double? (h : double? v = some x) : Denotes v x := by
  obtain ⟨hread, -⟩ := Option.filter_eq_some_iff.mp h
  cases v with
  | number n =>
    cases n with
    | integer z =>
      obtain rfl : Double.ofInt z = x := Option.some.inj hread
      exact .integer (Double.isNearest_ofInt z)
    | double d =>
      obtain rfl : d = x := Option.some.inj hread
      exact .double d
  | string s =>
    obtain ⟨before, after, hs, hbefore, hafter, -, -⟩ := Text.trimmed_trim s
    exact .text hs hbefore hafter (denotedBy_of_ofText? hread)
  | _ => cases hread

/-- **Nothing is read exactly if no finite double is denoted.** -/
theorem double?_eq_none_iff : double? v = none ↔ ∀ x, Denotes v x → x.isFinite = false := by
  constructor
  · intro hnone x h
    rw [← Bool.not_eq_true]
    intro hx
    obtain ⟨y, hread, -⟩ := h.double?_eq_some hx
    simp [hnone] at hread
  · intro h
    cases hread : double? v with
    | none => rfl
    | some x =>
      have hfinite := h x (.of_double? hread)
      simp [isFinite_of_double? hread] at hfinite

end Validation

end ModelCatalog
