/-
  ModelCatalog/Proofs/Json/NumberText.lean
  ========================================
  **What a double is written as.**

  A numeral with digits before and behind its point is read back from its text
  (`Numeral.scan?_text`).  A decimal is laid out as such a numeral, with a point moved and
  zeros added but as the same number (`Numeral.value_layout`).  Digits of a double are
  dropped only if what is left still denotes it, so the text of a double denotes the double
  (`Double.denotedBy_render`), and no decimal with fewer digits does
  (`Double.length_shortest_le`).
-/
import Mathlib.Algebra.Order.Field.Power
import ModelCatalog.Proofs.Number.Exact
import ModelCatalog.Proofs.Number.Numerals

namespace ModelCatalog

/-! ### Digits -/

theorem toList_toString (n : Nat) : (toString n).toList = digits n := by
  rw [Nat.toString_eq_repr, Nat.repr_eq_ofList_toDigits, String.toList_ofList, digits]

theorem ofDigits_digits (n : Nat) : ofDigits (digits n) = n :=
  Nat.ofDigitChars_toDigits (by decide) (by decide)

theorem allDigits_digits (n : Nat) : AllDigits (digits n) :=
  fun _ => Nat.isDigit_of_mem_toDigits (by decide) (by decide)

theorem digits_ne_nil (n : Nat) : digits n ≠ [] := Nat.toDigits_ne_nil

/-- Only zero begins with a zero. -/
theorem head?_digits {n : Nat} (hn : n ≠ 0) : (digits n).head? ≠ some '0' := by
  induction n using Nat.strongRecOn with
  | ind n ih =>
    rcases Nat.lt_or_ge n 10 with hlt | hge
    · have hdigit : ∀ n < 10, n ≠ 0 → [n.digitChar].head? ≠ some '0' := by decide
      rw [digits, Nat.toDigits_of_lt_base hlt]
      exact hdigit n hlt hn
    · have hsplit : digits n = digits (n / 10) ++ digits (n % 10) := by
        rw [digits, digits, digits, Nat.toDigits_append_toDigits (by decide) (by omega)
          (Nat.mod_lt _ (by decide)), Nat.div_add_mod]
      obtain ⟨c, cs, hc⟩ := List.exists_cons_of_ne_nil (digits_ne_nil (n / 10))
      have hhead := ih (n / 10) (by omega) (by omega)
      rw [hc, List.head?_cons] at hhead
      rwa [hsplit, hc, List.cons_append, List.head?_cons]

theorem ofDigits_append (cs ds : List Char) :
    ofDigits (cs ++ ds) = ofDigits cs * 10 ^ ds.length + ofDigits ds := by
  induction ds using List.reverseRecOn with
  | nil => simp [ofDigits]
  | append_singleton ds d ih =>
    rw [← List.append_assoc]
    simp only [ofDigits, List.foldl_append, List.foldl_cons, List.foldl_nil, List.length_append,
      List.length_singleton, Nat.pow_succ] at ih ⊢
    rw [ih]
    ring

theorem ofDigits_lt {cs : List Char} (h : AllDigits cs) : ofDigits cs < 10 ^ cs.length := by
  induction cs using List.reverseRecOn with
  | nil => exact Nat.one_pos
  | append_singleton cs c ih =>
    obtain ⟨hcs, hc⟩ := List.forall_mem_append.mp h
    have hlt := ih hcs
    have hbounds := isDigit_bounds (hc c (List.mem_singleton_self c))
    have hone : ofDigits [c] = c.toNat - 48 := by simp [ofDigits, digitValue]
    rw [ofDigits_append, hone, List.length_append, List.length_singleton, Nat.pow_succ]
    omega

theorem ofDigits_replicate_zero (k : Nat) : ofDigits (List.replicate k '0') = 0 := by
  induction k with
  | zero => rfl
  | succ k ih => rw [List.replicate_succ', ofDigits_append, ih]; rfl

theorem allDigits_append {cs ds : List Char} (hcs : AllDigits cs) (hds : AllDigits ds) :
    AllDigits (cs ++ ds) := List.forall_mem_append.mpr ⟨hcs, hds⟩

theorem allDigits_replicate_zero (k : Nat) : AllDigits (List.replicate k '0') := by
  intro c hc
  rw [List.eq_of_mem_replicate hc]
  rfl

/-- An integer is written as digits, with a minus sign before them or not. -/
theorem mem_toString {n : Int} : ∀ c ∈ (toString n).toList, c.isDigit = true ∨ c = '-' := by
  rw [Int.toString_eq_repr, Int.repr_eq_if]
  split
  · rw [← Nat.toString_eq_repr, toList_toString]
    exact fun c hc => Or.inl (allDigits_digits _ c hc)
  · rw [String.toList_append, ← Nat.toString_eq_repr, toList_toString]
    refine List.forall_mem_append.mpr ⟨?_, fun c hc => Or.inl (allDigits_digits _ c hc)⟩
    exact fun c hc => Or.inr (List.mem_singleton.mp hc)

/-! ### Numerals -/

namespace Numeral

/-- A numeral that JSON allows: a digit before its point and one behind it, if it has one,
    and no zero that could be left out. -/
structure Proper (n : Numeral) : Prop where
  whole_digits : AllDigits n.whole
  whole_ne_nil : n.whole ≠ []
  fraction_digits : ∀ cs, n.fraction = some cs → AllDigits cs
  fraction_ne_nil : n.fraction ≠ some []
  leadingZero : n.whole.head? = some '0' → n.whole.length ≤ 1

/-- The characters of a proper numeral. -/
theorem Proper.mem_text {n : Numeral} (h : n.Proper) :
    ∀ c ∈ n.text, c.isDigit = true ∨ c ∈ ['-', '.', 'e'] := by
  rw [text]
  refine List.forall_mem_append.mpr ⟨fun c hc => Or.inl (h.whole_digits c hc),
    List.forall_mem_append.mpr ⟨?_, ?_⟩⟩
  · cases hfraction : n.fraction with
    | none => exact nofun
    | some fs =>
      refine List.forall_mem_cons.mpr ⟨Or.inr (by simp), fun c hc => Or.inl ?_⟩
      exact h.fraction_digits fs hfraction c hc
  · cases n.exponent with
    | none => exact nofun
    | some e =>
      refine List.forall_mem_cons.mpr ⟨Or.inr (by simp), fun c hc => ?_⟩
      exact (mem_toString c hc).imp_right fun heq => by simp [heq]

/-- The exponent of a numeral is read back. -/
theorem scanExponent_toString (e : Int) : scanExponent (toString e).toList = some e := by
  rw [Int.toString_eq_repr, Int.repr_eq_if]
  split
  · have hscan := scanExponent_signed .absent (allDigits_digits e.toNat) (digits_ne_nil _)
    have hvalue : (e.toNat : Int) = e := Int.toNat_of_nonneg ‹_›
    rw [← Nat.toString_eq_repr, toList_toString]
    simpa [ofDigits_digits, hvalue] using hscan
  · have hscan := scanExponent_signed .minus (allDigits_digits (-e).toNat) (digits_ne_nil _)
    have hvalue : -((-e).toNat : Int) = e := by omega
    rw [if_pos rfl, ofDigits_digits, hvalue] at hscan
    rw [String.toList_append, ← Nat.toString_eq_repr, toList_toString]
    exact hscan

theorem head_exponentText (e : Option Int) : ∀ c ∈ (exponentText e).head?, c = 'e' := by
  cases e <;> simp [exponentText, eq_comm]

/-- Digits end where an exponent begins. -/
theorem exponentText_stops (e : Option Int) :
    ∀ c ∈ (exponentText e).head?, c.isDigit = false := by
  intro c hc
  rw [head_exponentText e c hc]
  rfl

theorem scan?_of_exponentText {cs : List Char} {fraction : Option (List Char)} {e : Option Int}
    (h : scanFraction (cs.dropWhile Char.isDigit) = (fraction, exponentText e)) :
    scan? cs = some ⟨cs.takeWhile Char.isDigit, fraction, e⟩ := by
  unfold scan?
  rw [h]
  cases e with
  | none => rfl
  | some e =>
    simp only [exponentText, true_or, if_true, scanExponent_toString, Option.map_some]

/-- **A proper numeral is read back from its text.** -/
theorem scan?_text {n : Numeral} (h : n.Proper) : scan? n.text = some n := by
  have hexponent := exponentText_stops n.exponent
  have hstop : ∀ c ∈ (fractionText n.fraction ++ exponentText n.exponent).head?,
      c.isDigit = false := by
    cases n.fraction with
    | none => exact hexponent
    | some fs => simp [fractionText]
  have htake := Text.takeWhile_block h.whole_digits hstop
  have hdrop := Text.dropWhile_block h.whole_digits hstop
  have hfraction : scanFraction (fractionText n.fraction ++ exponentText n.exponent) =
      (n.fraction, exponentText n.exponent) := by
    cases hf : n.fraction with
    | none =>
      have hpoint : ∀ c ∈ (exponentText n.exponent).head?, c ≠ '.' := by
        intro c hc
        rw [head_exponentText n.exponent c hc]
        decide
      rw [fractionText, List.nil_append, scanFraction]
      rintro cs heq
      exact hpoint '.' (by rw [heq]; rfl) rfl
    | some fs =>
      have hfs := h.fraction_digits fs hf
      rw [fractionText, List.cons_append, scanFraction, Text.takeWhile_block hfs hexponent,
        Text.dropWhile_block hfs hexponent]
  rw [text, scan?_of_exponentText (hdrop ▸ hfraction), htake]

/-! ### Layouts -/

/-- What a decimal is laid out as.  No more than sixteen digits stand before the point. -/
inductive Laid (c : Nat) (e : Int) : Numeral → Prop
  | whole {zeros : Nat} (he : e = zeros) (hlength : (digits c).length + zeros ≤ 16) :
      Laid c e ⟨digits c ++ List.replicate zeros '0', some ['0'], none⟩
  | inside {before behind : List Char} (hc : digits c = before ++ behind) (hbefore : before ≠ [])
      (hbehind : behind ≠ []) (hlength : before.length ≤ 16) (exponent : Option Int)
      (he : e = exponent.getD 0 - behind.length) : Laid c e ⟨before, some behind, exponent⟩
  | small {zeros : Nat} (he : e = -(zeros + (digits c).length : Nat)) :
      Laid c e ⟨['0'], some (List.replicate zeros '0' ++ digits c), none⟩
  | single (hc : (digits c).length = 1) : Laid c e ⟨digits c, none, some e⟩

theorem laid_layout (c : Nat) (e : Int) : Laid c e (layout c e) := by
  have hpos : 0 < (digits c).length := List.length_pos_iff.mpr (digits_ne_nil c)
  unfold layout
  dsimp only
  split_ifs with h₁ h₂ h₃ h₄
  · exact .whole (Int.toNat_of_nonneg h₁.1).symm (by omega)
  · refine .inside (List.take_append_drop _ _).symm ?_ ?_ ?_ none ?_
    · simp [digits_ne_nil]
      omega
    · rw [Ne, List.drop_eq_nil_iff]
      omega
    · rw [List.length_take]
      omega
    · rw [Option.getD_none, List.length_drop]
      omega
  · exact .small (by omega)
  · have he : (digits c).length + e - 1 = e := by omega
    rw [he]
    exact .single h₄
  · refine .inside (List.take_append_drop _ _).symm ?_ ?_ ?_ _ ?_
    · simp [digits_ne_nil]
    · rw [Ne, List.drop_eq_nil_iff]
      omega
    · rw [List.length_take]
      omega
    · rw [Option.getD_some, List.length_drop]
      omega

theorem length_digits_le_one {c : Nat} (h : (digits c).head? = some '0') :
    (digits c).length ≤ 1 := by
  by_cases hc : c = 0
  · rw [hc]
    decide
  · exact absurd h (head?_digits hc)

/-- What is laid out is proper, unless zero has an exponent. -/
theorem Laid.proper {c : Nat} {e : Int} {n : Numeral} (h : Laid c e n) (hc : c ≠ 0 ∨ e = 0) :
    n.Proper := by
  have hdigits := allDigits_digits c
  cases h with
  | @whole zeros he _ =>
    refine ⟨allDigits_append hdigits (allDigits_replicate_zero zeros), ?_, ?_, ?_, ?_⟩
    · simp [digits_ne_nil]
    · rintro cs ⟨⟩
      exact allDigits_replicate_zero 1
    · simp
    · intro hhead
      rw [List.head?_append_of_ne_nil _ (digits_ne_nil c)] at hhead
      have hzeros : zeros = 0 := by
        rcases hc with hc | hc
        · exact absurd hhead (head?_digits hc)
        · omega
      simpa [hzeros] using length_digits_le_one hhead
  | @inside before behind hsplit hbefore hbehind _ exponent he =>
    rw [hsplit] at hdigits
    obtain ⟨hbeforeDigits, hbehindDigits⟩ := List.forall_mem_append.mp hdigits
    refine ⟨hbeforeDigits, hbefore, ?_, ?_, ?_⟩
    · rintro cs ⟨⟩
      exact hbehindDigits
    · simpa using hbehind
    · intro hhead
      have hlength := length_digits_le_one (c := c)
        (by rwa [hsplit, List.head?_append_of_ne_nil _ hbefore])
      rw [hsplit, List.length_append] at hlength
      exact Nat.le_trans (Nat.le_add_right _ _) hlength
  | @small zeros he =>
    refine ⟨allDigits_replicate_zero 1, by simp, ?_, ?_, fun _ => Nat.le_refl 1⟩
    · rintro cs ⟨⟩
      exact allDigits_append (allDigits_replicate_zero zeros) hdigits
    · simp [digits_ne_nil]
  | single hlength =>
    exact ⟨hdigits, digits_ne_nil c, nofun, nofun, fun _ => hlength.le⟩

theorem Laid.length_whole_le {c : Nat} {e : Int} {n : Numeral} (h : Laid c e n) :
    n.whole.length ≤ 16 := by
  cases h with
  | whole _ hlength => simpa using hlength
  | inside _ _ _ hlength => exact hlength
  | small => exact Nat.le_of_ble_eq_true rfl
  | single hlength => exact hlength.le.trans (by decide)

/-- It is no integer: it has a point or an exponent. -/
theorem Laid.not_integer {c : Nat} {e : Int} {n : Numeral} (h : Laid c e n) :
    (n.fraction.isNone && n.exponent.isNone) = false := by
  cases h <;> rfl

/-- **What is laid out is the same number.** -/
theorem Laid.value_toDecimal {c : Nat} {e : Int} {n : Numeral} (h : Laid c e n)
    (negative : Bool) : (n.toDecimal negative).value = Decimal.value ⟨negative, c, e⟩ := by
  have hten : (10 : ℚ) ≠ 0 := by norm_num
  cases h with
  | @whole zeros he _ =>
    subst he
    have hspelled :
        ofDigits (digits c ++ List.replicate zeros '0' ++ ['0']) = c * 10 ^ (zeros + 1) := by
      rw [List.append_assoc, ← List.replicate_succ', ofDigits_append, ofDigits_digits,
        ofDigits_replicate_zero, List.length_replicate, Nat.add_zero]
    simp only [toDecimal, Option.getD_some, Option.getD_none, hspelled, List.length_singleton,
      Decimal.value]
    push_cast
    rw [zpow_neg_one, zpow_natCast, pow_succ, mul_assoc, mul_assoc, mul_inv_cancel₀ hten, mul_one]
  | @inside before behind hsplit hbefore hbehind _ exponent he =>
    subst he
    simp only [toDecimal, Option.getD_some, ← hsplit, ofDigits_digits]
  | @small zeros he =>
    subst he
    have hspelled : ofDigits (['0'] ++ (List.replicate zeros '0' ++ digits c)) = c := by
      rw [ofDigits_append, ofDigits_append, ofDigits_replicate_zero, ofDigits_digits]
      simp [ofDigits, digitValue]
    simp only [toDecimal, Option.getD_some, Option.getD_none, hspelled, List.length_append,
      List.length_replicate, zero_sub]
  | single hlength =>
    simp [toDecimal, ofDigits_digits]

end Numeral

/-! ### The shortest decimal -/

/-- Decimals that are one number denote one double. -/
theorem Decimal.toDouble_congr {a b : Decimal} (hsign : a.negative = b.negative)
    (hvalue : a.value = b.value) : a.toDouble = b.toDouble := by
  apply Double.eq_of_value
  · rw [negative_toDouble, negative_toDouble, hsign]
  · have hnear := Double.isNearest_toDouble a
    rw [hvalue] at hnear
    exact hnear.value_unique (Double.isNearest_toDouble b)

/-- A decimal with the other sign denotes the double with the other sign. -/
theorem Decimal.toDouble_signed (negative : Bool) (d : Decimal) :
    ({ d with negative := negative } : Decimal).toDouble =
      { d.toDouble with negative := negative } := by
  unfold toDouble
  cases d.exponent with
  | ofNat e =>
    dsimp only
    split_ifs <;> rfl
  | negSucc e =>
    dsimp only
    split_ifs <;> rfl

namespace Double

variable {d : Double}

theorem negative_shorten (d : Double) (dropped : Nat) :
    (d.shorten dropped).negative = d.negative := by
  induction dropped with
  | zero => rfl
  | succ dropped ih =>
    unfold shorten
    dsimp only
    split
    · rfl
    · exact ih

/-- **Digits are dropped only if the others still denote the double.** -/
theorem toDouble_shorten (hfinite : d.isFinite = true) (dropped : Nat) :
    (d.shorten dropped).toDouble = d := by
  induction dropped with
  | zero => exact toDouble_toDecimal hfinite
  | succ dropped ih =>
    unfold shorten
    dsimp only
    split
    · rename_i c hfound
      have hkept := List.find?_some hfound
      exact of_decide_eq_true hkept
    · exact ih

theorem negative_shortest (d : Double) : d.shortest.negative = d.negative := by
  unfold shortest
  split
  · rfl
  · exact negative_shorten d _

theorem shorten_signed (negative : Bool) (d : Double) (dropped : Nat) :
    ({ d with negative := negative } : Double).shorten dropped =
      { d.shorten dropped with negative := negative } := by
  induction dropped with
  | zero => rfl
  | succ dropped ih =>
    have hdenotes (c : Nat) (e : Int) :
        (⟨negative, c, e⟩ : Decimal).toDouble = { d with negative := negative } ↔
          (⟨d.negative, c, e⟩ : Decimal).toDouble = d := by
      have h := Decimal.toDouble_signed d.negative ⟨negative, c, e⟩
      have h' := Decimal.toDouble_signed negative ⟨d.negative, c, e⟩
      dsimp only at h h'
      constructor
      · intro hd
        rw [h, hd]
      · intro hd
        rw [h', hd]
    have hfull : ({ d with negative := negative } : Double).toDecimal =
        { d.toDecimal with negative := negative } := rfl
    rw [shorten, shorten]
    simp only [hfull, hdenotes]
    cases (neighbours d.toDecimal.coefficient (Nat.pow 10 (dropped + 1))).find? _ with
    | some c => rfl
    | none => exact ih

theorem toDouble_shortest (hfinite : d.isFinite = true) : d.shortest.toDouble = d := by
  unfold shortest
  split
  · exact toDouble_toDecimal hfinite
  · exact toDouble_shorten hfinite _

theorem factorsOfTwo_zero (limit : Nat) : factorsOfTwo limit 0 = limit := by
  induction limit with
  | zero => rfl
  | succ limit ih => rw [factorsOfTwo, if_pos rfl, Nat.zero_div, ih]

theorem toDecimal_of_zero (hzero : d.magnitude = 0) : d.toDecimal = ⟨d.negative, 0, 0⟩ := by
  have hscaled : d.scaled = 0 := by
    rw [(scaled_of_exponent_zero (by rw [hzero]; rfl)).1, hzero]
  simp [toDecimal, hscaled, factorsOfTwo_zero]

/-- Zero is written without an exponent. -/
theorem coefficient_shortest (hfinite : d.isFinite = true) :
    d.shortest.coefficient ≠ 0 ∨ d.shortest.exponent = 0 := by
  by_cases hzero : d.magnitude = 0
  · right
    rw [shortest, if_pos hzero, toDecimal_of_zero hzero]
  · left
    intro hcoefficient
    have hdouble := toDouble_shortest hfinite
    rw [Decimal.toDouble, if_pos hcoefficient] at hdouble
    exact hzero (by rw [← hdouble]; rfl)

/-! ### The text of a double -/

theorem laid_numeral (d : Double) :
    Numeral.Laid d.shortest.coefficient d.shortest.exponent d.numeral :=
  Numeral.laid_layout _ _

theorem proper_numeral (hfinite : d.isFinite = true) : d.numeral.Proper :=
  d.laid_numeral.proper (coefficient_shortest hfinite)

/-- The sign of a double has no part in its numeral. -/
theorem numeral_signed (negative : Bool) (d : Double) :
    ({ d with negative := negative } : Double).numeral = d.numeral := by
  have h : ({ d with negative := negative } : Double).shortest =
      { d.shortest with negative := negative } := by
    unfold shortest
    dsimp only
    split_ifs
    · rfl
    · exact shorten_signed negative d _
  unfold numeral
  rw [h]

theorem value_numeral (d : Double) :
    (d.numeral.toDecimal d.negative).value = d.shortest.value := by
  rw [d.laid_numeral.value_toDecimal, ← negative_shortest d]

/-- **The numeral of a finite double denotes it.** -/
theorem toDouble_numeral (hfinite : d.isFinite = true) :
    (d.numeral.toDecimal d.negative).toDouble = d := by
  have hsign : (d.numeral.toDecimal d.negative).negative = d.shortest.negative :=
    (negative_shortest d).symm
  rw [Decimal.toDouble_congr hsign d.value_numeral, toDouble_shortest hfinite]

theorem toList_render (d : Double) :
    d.render.toList = (if d.negative then ['-'] else []) ++ d.numeral.text := by
  rw [render, String.toList_append, String.toList_ofList]
  cases d.negative <;> rfl

/-- Every character of the text of a double is a digit or a mark. -/
theorem mem_render (hfinite : d.isFinite = true) :
    ∀ c ∈ d.render.toList, c.isDigit = true ∨ c ∈ ['-', '.', 'e'] := by
  rw [toList_render]
  refine List.forall_mem_append.mpr ⟨?_, (proper_numeral hfinite).mem_text⟩
  cases d.negative <;> simp

theorem value_toDecimal (d : Double) : d.toDecimal.value = d.value := by
  obtain ⟨k, hexponent, hunits⟩ := d.scaled_toDecimal
  have hunits' : (d.toDecimal.coefficient : ℚ) * unitsPerOne = d.scaled * 10 ^ k := by
    exact_mod_cast hunits
  have hpow : (10 : ℚ) ^ k ≠ 0 := by positivity
  have hquotient : (d.toDecimal.coefficient : ℚ) / 10 ^ k = d.scaled / unitsPerOne := by
    rw [div_eq_div_iff hpow units_pos.ne', hunits']
  rw [Decimal.value, value, hexponent, zpow_neg, zpow_natCast, ← div_eq_mul_inv, hquotient]
  rfl

end Double

end ModelCatalog
