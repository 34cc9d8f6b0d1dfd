/-
  ModelCatalog/Proofs/Number/Numerals.lean
  ========================================
  **The grammar of numbers that are given as text.**

  A numeral is a sign, digits before and behind a point and an exponent; all but one digit
  may be missing.  `DenotedBy` says which double such a text denotes without saying how it
  is read: the one nearest to the number that is written.  The names of infinity and of
  what is no number are the other texts of the grammar.  Every one of them is read, and as
  the double that it denotes (`exists_ofText?`); and no other text is
  (`denotedBy_of_ofText?`).
-/
import ModelCatalog.Proofs.Number.Nearest
import ModelCatalog.Proofs.Text.Trimming

namespace ModelCatalog

/-! ### The grammar -/

def AllDigits (cs : List Char) : Prop := ∀ c ∈ cs, c.isDigit = true

instance (cs : List Char) : Decidable (AllDigits cs) :=
  decidable_of_iff (cs.all Char.isDigit = true) List.all_eq_true

/-- A sign, which may be missing; and whether it is a minus. -/
inductive SpellsSign : List Char → Bool → Prop
  | absent : SpellsSign [] false
  | plus : SpellsSign ['+'] false
  | minus : SpellsSign ['-'] true

/-- Digits with a point or without one; with the number that the digits are and how many
    of them are behind the point. -/
inductive SpellsDigits : List Char → Nat → Nat → Prop
  | whole {ds : List Char} (hds : AllDigits ds) (hne : ds ≠ []) :
      SpellsDigits ds (ofDigits ds) 0
  | point {ds fs : List Char} (hds : AllDigits ds) (hfs : AllDigits fs)
      (hne : ds ≠ [] ∨ fs ≠ []) :
      SpellsDigits (ds ++ '.' :: fs) (ofDigits (ds ++ fs)) fs.length

/-- An exponent, which may be missing. -/
inductive SpellsExponent : List Char → Int → Prop
  | absent : SpellsExponent [] 0
  | present {c : Char} {sign ds : List Char} {negative : Bool} (hc : c = 'e' ∨ c = 'E')
      (hsign : SpellsSign sign negative) (hds : AllDigits ds) (hne : ds ≠ []) :
      SpellsExponent (c :: (sign ++ ds)) (if negative then -(ofDigits ds : Int) else ofDigits ds)

/-- The doubles that a text denotes.  A numeral denotes the nearest one; zero has two. -/
inductive DenotedBy : List Char → Double → Prop
  | numeral {sign digits exponent : List Char} {negative : Bool} {c k : Nat} {e : Int}
      {x : Double} (hsign : SpellsSign sign negative) (hdigits : SpellsDigits digits c k)
      (hexponent : SpellsExponent exponent e)
      (hx : x.IsNearest (Double.signFactor negative * (c / 10 ^ k * 10 ^ e))) :
      DenotedBy (sign ++ (digits ++ exponent)) x
  | infinity {sign name : List Char} {negative : Bool} (hsign : SpellsSign sign negative)
      (hname : name.map Char.toLower = "inf".toList ∨
        name.map Char.toLower = "infinity".toList) :
      DenotedBy (sign ++ name) (Double.infinity negative)
  | notANumber {sign name : List Char} {negative : Bool} {x : Double}
      (hsign : SpellsSign sign negative) (hname : name.map Char.toLower = "nan".toList)
      (hx : x.isNaN = true) : DenotedBy (sign ++ name) x

/-- Two doubles are one number, or neither of them is finite. -/
def Double.SameNumber (x y : Double) : Prop :=
  x.isFinite = y.isFinite ∧ (x.isFinite = true → x.value = y.value)

theorem Double.SameNumber.rfl {x : Double} : x.SameNumber x := ⟨Eq.refl _, fun _ => Eq.refl _⟩

/-- The doubles nearest to a number are one number. -/
theorem Double.IsNearest.sameNumber {x y : Double} {q : ℚ} (hx : x.IsNearest q)
    (hy : y.IsNearest q) : x.SameNumber y := by
  have hvalue := hx.value_unique hy
  refine ⟨?_, fun _ => hvalue⟩
  rw [Bool.eq_iff_iff, isFinite_iff_value, isFinite_iff_value, hvalue]

/-! ### Reading what the grammar allows -/

theorem isDigit_bounds {c : Char} (h : c.isDigit = true) : 48 ≤ c.toNat ∧ c.toNat ≤ 57 := by
  simpa [Char.isDigit, UInt32.le_iff_toNat_le] using h

/-- A digit is neither a sign nor a point, nor the first letter of a name or an exponent. -/
theorem ne_of_isDigit {c d : Char} (h : c.isDigit = true) (hd : d.isDigit = false) : c ≠ d := by
  rintro rfl
  rw [h] at hd
  cases hd

/-- Only a capital has another small letter. -/
theorem toLower_eq {c : Char} (h : ¬ (65 ≤ c.toNat ∧ c.toNat ≤ 90)) : c.toLower = c := by
  have hnot : ¬ (c.val ≥ 'A'.val ∧ c.val ≤ 'Z'.val) := by
    rintro ⟨hlow, hhigh⟩
    exact h ⟨hlow, hhigh⟩
  exact dif_neg hnot

theorem toLower_of_isDigit {c : Char} (h : c.isDigit = true) : c.toLower = c := by
  have hbounds := isDigit_bounds h
  exact toLower_eq (by omega)

/-- The first characters of a number without a sign. -/
def OpensNumber (c : Char) : Prop := c.isDigit = true ∨ c = '.'

theorem SpellsDigits.opens {cs : List Char} {c k : Nat} (h : SpellsDigits cs c k)
    (rest : List Char) : ∃ first others, cs ++ rest = first :: others ∧ OpensNumber first := by
  cases h with
  | whole hds hne =>
    obtain ⟨d, ds, rfl⟩ := List.exists_cons_of_ne_nil hne
    exact ⟨d, ds ++ rest, rfl, Or.inl (hds d List.mem_cons_self)⟩
  | @point ds fs hds hfs hne =>
    rcases ds with _ | ⟨d, ds⟩
    · exact ⟨'.', fs ++ rest, rfl, Or.inr rfl⟩
    · exact ⟨d, ds ++ '.' :: fs ++ rest, rfl, Or.inl (hds d List.mem_cons_self)⟩

/-- The exponent is read up to the end of the text. -/
theorem scanExponent_signed {sign ds : List Char} {negative : Bool}
    (hsign : SpellsSign sign negative) (hds : AllDigits ds) (hne : ds ≠ []) :
    Numeral.scanExponent (sign ++ ds) =
      some (if negative then -(ofDigits ds : Int) else ofDigits ds) := by
  have hdigits : ∀ negative, Numeral.scanExponentDigits negative ds =
      some (if negative then -(ofDigits ds : Int) else ofDigits ds) := by
    intro negative
    have hall : ds.all Char.isDigit = true := List.all_eq_true.mpr hds
    simp [Numeral.scanExponentDigits, hne, hall]
  cases hsign with
  | absent =>
    obtain ⟨d, ds, rfl⟩ := List.exists_cons_of_ne_nil hne
    have hd : d.isDigit = true := hds d List.mem_cons_self
    have hminus : d ≠ '-' := ne_of_isDigit hd (by decide)
    have hplus : d ≠ '+' := ne_of_isDigit hd (by decide)
    rw [List.nil_append, ← hdigits]
    unfold Numeral.scanExponent
    split
    · rename_i heq
      exact absurd (List.cons.inj heq).1 hminus
    · rename_i heq
      exact absurd (List.cons.inj heq).1 hplus
    · rfl
  | plus => exact hdigits false
  | minus => exact hdigits true

/-- What follows the digits: nothing, or the letter of an exponent. -/
theorem SpellsExponent.head {cs : List Char} {e : Int} (h : SpellsExponent cs e) :
    ∀ c ∈ cs.head?, c.isDigit = false ∧ c ≠ '.' := by
  intro c hc
  cases h with
  | absent => simp at hc
  | present hletter _ _ _ =>
    obtain rfl := Option.some.inj hc
    rcases hletter with rfl | rfl <;> decide

/-- What follows the digits and the fraction is read as the exponent. -/
theorem scan?_of_fraction {cs rest : List Char} {fraction : Option (List Char)} {e : Int}
    (hfraction : Numeral.scanFraction (cs.dropWhile Char.isDigit) = (fraction, rest))
    (hexponent : SpellsExponent rest e) :
    ∃ exponent, Numeral.scan? cs = some ⟨cs.takeWhile Char.isDigit, fraction, exponent⟩ ∧
      exponent.getD 0 = e := by
  unfold Numeral.scan?
  rw [hfraction]
  cases hexponent with
  | absent => exact ⟨none, rfl, rfl⟩
  | @present c sign ds negative hc hsign hds hne =>
    refine ⟨some (if negative then -(ofDigits ds : Int) else ofDigits ds), ?_, rfl⟩
    simp [hc, scanExponent_signed hsign hds hne]

/-- **A numeral is read as the decimal that it spells.** -/
theorem scan?_spelled {digits exponent : List Char} {c k : Nat} {e : Int}
    (hdigits : SpellsDigits digits c k) (hexponent : SpellsExponent exponent e) :
    ∃ n : Numeral, Numeral.scan? (digits ++ exponent) = some n ∧
      (n.whole.isEmpty && (n.fraction.getD []).isEmpty) = false ∧
      ∀ negative, n.toDecimal negative = ⟨negative, c, e - k⟩ := by
  have hhead := hexponent.head
  cases hdigits with
  | whole hds hne =>
    have hstop : ∀ c ∈ exponent.head?, c.isDigit = false := fun c hc => (hhead c hc).1
    have htake := Text.takeWhile_block hds hstop
    have hdrop := Text.dropWhile_block hds hstop
    have hfraction : Numeral.scanFraction exponent = (none, exponent) := by
      unfold Numeral.scanFraction
      split
      · exact absurd rfl (hhead '.' rfl).2
      · rfl
    obtain ⟨read, hscan, hread⟩ := scan?_of_fraction
      ((congrArg Numeral.scanFraction hdrop).trans hfraction) hexponent
    refine ⟨_, hscan, ?_, ?_⟩
    · simp [htake, hne]
    · intro negative
      simp [Numeral.toDecimal, htake, hread]
  | @point ds fs hds hfs hne =>
    have hstop : ∀ c ∈ exponent.head?, c.isDigit = false := fun c hc => (hhead c hc).1
    have hpoint : ∀ c ∈ ('.' :: (fs ++ exponent)).head?, c.isDigit = false := by
      intro c hc
      obtain rfl : '.' = c := by simpa using hc
      decide
    have htake := Text.takeWhile_block hds hpoint
    have hdrop := Text.dropWhile_block hds hpoint
    have hfraction : Numeral.scanFraction ('.' :: (fs ++ exponent)) = (some fs, exponent) := by
      rw [Numeral.scanFraction, Text.takeWhile_block hfs hstop, Text.dropWhile_block hfs hstop]
    obtain ⟨read, hscan, hread⟩ := scan?_of_fraction
      ((congrArg Numeral.scanFraction hdrop).trans hfraction) hexponent
    rw [List.append_assoc, List.cons_append]
    refine ⟨_, hscan, ?_, ?_⟩
    · rw [htake]
      rcases hne with hne | hne <;> simp [hne]
    · intro negative
      simp [Numeral.toDecimal, htake, hread]

/-- The first letters of the names, which are those of infinity and of what is no number. -/
def OpensName (cs : List Char) : Prop := cs.head? = some 'i' ∨ cs.head? = some 'n'

theorem OpensName.of_cons {c : Char} {cs : List Char} (h : OpensName (c :: cs)) :
    c = 'i' ∨ c = 'n' := by
  simpa [OpensName] using h

/-- No number without a sign is a name. -/
theorem map_toLower_ne {name cs : List Char} {first : Char} {others : List Char}
    (hcs : cs = first :: others) (hfirst : OpensNumber first) (hname : OpensName name) :
    cs.map Char.toLower ≠ name := by
  rintro rfl
  subst hcs
  have hlower : first.toLower = 'i' ∨ first.toLower = 'n' := hname.of_cons
  rcases hfirst with hdigit | rfl
  · rw [toLower_of_isDigit hdigit] at hlower
    rcases hlower with rfl | rfl <;> cases hdigit
  · exact absurd hlower (by decide)

/-- **A numeral is read as the double nearest to it.** -/
theorem unsignedOfText?_spelled (negative : Bool) {digits exponent : List Char} {c k : Nat}
    {e : Int} (hdigits : SpellsDigits digits c k) (hexponent : SpellsExponent exponent e) :
    unsignedOfText? negative (digits ++ exponent) =
      some (Decimal.toDouble ⟨negative, c, e - k⟩) := by
  obtain ⟨first, others, hcs, hfirst⟩ := hdigits.opens exponent
  obtain ⟨n, hscan, hdigit, hdecimal⟩ := scan?_spelled hdigits hexponent
  have hinf : (digits ++ exponent).map Char.toLower ≠ "inf".toList :=
    map_toLower_ne hcs hfirst (Or.inl rfl)
  have hinfinity : (digits ++ exponent).map Char.toLower ≠ "infinity".toList :=
    map_toLower_ne hcs hfirst (Or.inl rfl)
  have hnan : (digits ++ exponent).map Char.toLower ≠ "nan".toList :=
    map_toLower_ne hcs hfirst (Or.inr rfl)
  unfold unsignedOfText?
  dsimp only
  rw [if_neg (not_or.mpr ⟨hinf, hinfinity⟩), if_neg hnan, hscan]
  simp only [hdigit, hdecimal]
  rfl

/-- A sign is read before everything else. -/
theorem ofText?_signed {sign rest : List Char} {negative : Bool} (hsign : SpellsSign sign negative)
    (hrest : ∀ c ∈ rest.head?, c ≠ '-' ∧ c ≠ '+') :
    Double.ofText? (String.ofList (sign ++ rest)) = unsignedOfText? negative rest := by
  unfold Double.ofText?
  rw [String.toList_ofList]
  cases hsign with
  | absent =>
    rw [List.nil_append]
    split
    · exact absurd rfl (hrest '-' rfl).1
    · exact absurd rfl (hrest '+' rfl).2
    · rfl
  | plus => rfl
  | minus => rfl

/-- A name does not begin with a sign. -/
theorem head_of_name {name : List Char}
    (h : OpensName (name.map Char.toLower)) : ∀ c ∈ name.head?, c ≠ '-' ∧ c ≠ '+' := by
  intro c hc
  rcases name with _ | ⟨first, others⟩
  · simp at hc
  obtain rfl : first = c := Option.some.inj hc
  have hlower : first.toLower = 'i' ∨ first.toLower = 'n' := h.of_cons
  constructor
  · rintro rfl
    exact absurd hlower (by decide)
  · rintro rfl
    exact absurd hlower (by decide)

theorem Double.isFinite_of_isNaN {d : Double} (h : d.isNaN = true) : d.isFinite = false := by
  simp only [isNaN, isFinite, decide_eq_true_eq, decide_eq_false_iff_not] at *
  omega

theorem Decimal.value_places (negative : Bool) (c k : Nat) (e : Int) :
    Decimal.value ⟨negative, c, e - k⟩ =
      Double.signFactor negative * (c / 10 ^ k * 10 ^ e) := by
  rw [Decimal.value, zpow_sub₀ (by norm_num), zpow_natCast, mul_div_assoc', div_mul_eq_mul_div]

/-- **Every text of the grammar is read as a double that it denotes.** -/
theorem exists_ofText? {cs : List Char} {x : Double} (h : DenotedBy cs x) :
    ∃ y, Double.ofText? (String.ofList cs) = some y ∧ y.SameNumber x := by
  cases h with
  | @numeral sign digits exponent negative c k e x hsign hdigits hexponent hx =>
    obtain ⟨first, others, hcs, hfirst⟩ := hdigits.opens exponent
    have hrest : ∀ c ∈ (digits ++ exponent).head?, c ≠ '-' ∧ c ≠ '+' := by
      intro c hc
      rw [hcs] at hc
      obtain rfl : first = c := Option.some.inj hc
      rcases hfirst with hdigit | rfl
      · exact ⟨ne_of_isDigit hdigit (by decide), ne_of_isDigit hdigit (by decide)⟩
      · decide
    have hnear := Double.isNearest_toDouble ⟨negative, c, e - k⟩
    rw [Decimal.value_places] at hnear
    refine ⟨_, ?_, hnear.sameNumber hx⟩
    rw [ofText?_signed hsign hrest, unsignedOfText?_spelled negative hdigits hexponent]
  | @infinity sign name negative hsign hname =>
    have hhead : OpensName (name.map Char.toLower) := by
      rcases hname with hname | hname <;> exact hname ▸ Or.inl rfl
    refine ⟨Double.infinity negative, ?_, .rfl⟩
    rw [ofText?_signed hsign (head_of_name hhead)]
    exact if_pos hname
  | @notANumber sign name negative x hsign hname hx =>
    have hhead : OpensName (name.map Char.toLower) := hname ▸ Or.inr rfl
    have hinf : ¬ (name.map Char.toLower = "inf".toList ∨
        name.map Char.toLower = "infinity".toList) := by
      rw [hname]
      decide
    rw [ofText?_signed hsign (head_of_name hhead)]
    refine ⟨_, (if_neg hinf).trans (if_pos hname), ?_, ?_⟩
    · rw [Double.isFinite_of_isNaN hx]
      rfl
    · intro hfinite
      cases hfinite

/-! ### Nothing else is read -/

theorem spellsExponent_of_scan {c : Char} {rest : List Char} {e : Int} (hc : c = 'e' ∨ c = 'E')
    (h : Numeral.scanExponent rest = some e) : SpellsExponent (c :: rest) e := by
  have hspelled : ∀ {sign ds : List Char} {negative : Bool}, SpellsSign sign negative →
      Numeral.scanExponentDigits negative ds = some e → SpellsExponent (c :: (sign ++ ds)) e := by
    intro sign ds negative hsign hdigits
    unfold Numeral.scanExponentDigits at hdigits
    split at hdigits
    · cases hdigits
    · rename_i hcond
      obtain ⟨hempty, hall⟩ := Bool.or_eq_false_iff.mp (Bool.eq_false_iff.mpr hcond)
      obtain rfl := Option.some.inj hdigits
      refine .present hc hsign ?_ (List.isEmpty_eq_false_iff.mp hempty)
      exact List.all_eq_true.mp (by simpa using hall)
  unfold Numeral.scanExponent at h
  split at h
  · exact hspelled .minus h
  · exact hspelled .plus h
  · exact hspelled .absent h

/-- **A numeral that is read was spelled**, if there is a digit in it. -/
theorem spelled_of_scan? {cs : List Char} {n : Numeral} (h : Numeral.scan? cs = some n)
    (hdigit : (n.whole.isEmpty && (n.fraction.getD []).isEmpty) = false) :
    ∃ digits exponent c k e, cs = digits ++ exponent ∧ SpellsDigits digits c k ∧
      SpellsExponent exponent e ∧ ∀ negative, n.toDecimal negative = ⟨negative, c, e - k⟩ := by
  have hwhole : AllDigits (cs.takeWhile Char.isDigit) := fun _ => List.mem_takeWhile_imp
  have hsplit : cs = cs.takeWhile Char.isDigit ++ cs.dropWhile Char.isDigit :=
    List.takeWhile_append_dropWhile.symm
  unfold Numeral.scan? at h
  obtain ⟨fraction, rest, hfraction⟩ :
      ∃ fraction rest, Numeral.scanFraction (cs.dropWhile Char.isDigit) = (fraction, rest) :=
    ⟨_, _, rfl⟩
  rw [hfraction] at h
  -- what is behind the digits is an exponent
  have hexponent : ∃ e, SpellsExponent rest (e.getD 0) ∧
      n = ⟨cs.takeWhile Char.isDigit, fraction, e⟩ := by
    rcases rest with _ | ⟨c, rest⟩
    · exact ⟨none, .absent, (Option.some.inj h).symm⟩
    · dsimp only at h
      split_ifs at h with hc
      obtain ⟨e, he, rfl⟩ := Option.map_eq_some_iff.mp h
      exact ⟨some e, spellsExponent_of_scan hc he, rfl⟩
  obtain ⟨e, hspelled, rfl⟩ := hexponent
  rcases hdrop : cs.dropWhile Char.isDigit with _ | ⟨c, after⟩
  · rw [hdrop] at hfraction hsplit
    obtain ⟨rfl, rfl⟩ := Prod.mk.inj hfraction
    have hne : cs.takeWhile Char.isDigit ≠ [] := by simpa using hdigit
    exact ⟨_, _, _, _, _, hsplit, .whole hwhole hne, hspelled, fun _ => by simp [Numeral.toDecimal]⟩
  · rw [hdrop] at hfraction hsplit
    by_cases hpoint : c = '.'
    · subst hpoint
      obtain ⟨rfl, rfl⟩ := Prod.mk.inj hfraction
      have hbehind : AllDigits (after.takeWhile Char.isDigit) := fun _ => List.mem_takeWhile_imp
      have hne : cs.takeWhile Char.isDigit ≠ [] ∨ after.takeWhile Char.isDigit ≠ [] := by
        by_contra hnone
        obtain ⟨hnone, hnone'⟩ := not_or.mp hnone
        simp [not_not.mp hnone, not_not.mp hnone'] at hdigit
      refine ⟨_, _, _, _, _, ?_, .point hwhole hbehind hne, hspelled, fun _ => ?_⟩
      · rw [List.append_assoc, List.cons_append, List.takeWhile_append_dropWhile]
        exact hsplit
      · simp [Numeral.toDecimal]
    · have hnone : Numeral.scanFraction (c :: after) = (none, c :: after) := by
        unfold Numeral.scanFraction
        split
        · rename_i heq
          exact absurd (List.cons.inj heq).1 hpoint
        · rfl
      obtain ⟨rfl, rfl⟩ := Prod.mk.inj (hnone.symm.trans hfraction)
      have hne : cs.takeWhile Char.isDigit ≠ [] := by simpa using hdigit
      exact ⟨_, _, _, _, _, hsplit, .whole hwhole hne, hspelled,
        fun _ => by simp [Numeral.toDecimal]⟩

theorem denotedBy_of_unsigned {sign cs : List Char} {negative : Bool} {x : Double}
    (hsign : SpellsSign sign negative) (h : unsignedOfText? negative cs = some x) :
    DenotedBy (sign ++ cs) x := by
  unfold unsignedOfText? at h
  dsimp only at h
  split_ifs at h with hinf hnan
  · obtain rfl := Option.some.inj h
    exact .infinity hsign hinf
  · obtain rfl := Option.some.inj h
    exact .notANumber hsign hnan (decide_eq_true (Nat.lt_add_of_pos_right (by decide)))
  · cases hscan : Numeral.scan? cs with
    | none => simp [hscan] at h
    | some n =>
      rw [hscan] at h
      dsimp only at h
      split_ifs at h with hdigit
      obtain rfl := Option.some.inj h
      obtain ⟨digits, exponent, c, k, e, rfl, hdigits, hexponent, hdecimal⟩ :=
        spelled_of_scan? hscan (Bool.eq_false_iff.mpr hdigit)
      rw [hdecimal]
      refine .numeral hsign hdigits hexponent ?_
      rw [← Decimal.value_places]
      exact Double.isNearest_toDouble _

/-- **A text that is read denotes the double that it is read as.** -/
theorem denotedBy_of_ofText? {s : String} {x : Double} (h : Double.ofText? s = some x) :
    DenotedBy s.toList x := by
  unfold Double.ofText? at h
  split at h
  · rename_i cs heq
    rw [heq]
    exact denotedBy_of_unsigned .minus h
  · rename_i cs heq
    rw [heq]
    exact denotedBy_of_unsigned .plus h
  · exact denotedBy_of_unsigned .absent h

/-! ### The sign of a number -/

theorem Decimal.negative_toDouble (d : Decimal) : d.toDouble.negative = d.negative := by
  unfold Decimal.toDouble
  split
  · rfl
  · split <;> split <;> rfl

theorem negative_of_unsigned {negative : Bool} {cs : List Char} {x : Double}
    (h : unsignedOfText? negative cs = some x) : x.negative = negative := by
  unfold unsignedOfText? at h
  dsimp only at h
  split_ifs at h with hinf hnan
  · exact congrArg Double.negative (Option.some.inj h).symm
  · exact congrArg Double.negative (Option.some.inj h).symm
  · cases hscan : Numeral.scan? cs with
    | none => simp [hscan] at h
    | some n =>
      rw [hscan] at h
      dsimp only at h
      split_ifs at h with hdigit
      rw [← Option.some.inj h, Decimal.negative_toDouble]
      rfl

/-- **A double that is read has the sign that is written**, zero as well. -/
theorem negative_of_ofText? {s : String} {x : Double} (h : Double.ofText? s = some x) :
    x.negative = true ↔ s.toList.head? = some '-' := by
  unfold Double.ofText? at h
  split at h
  · rename_i cs heq
    simp [heq, negative_of_unsigned h]
  · rename_i cs heq
    simp [heq, negative_of_unsigned h]
  · rename_i hminus _
    have hhead : s.toList.head? ≠ some '-' := by
      intro hhead
      obtain ⟨cs, hcs⟩ := List.head?_eq_some_iff.mp hhead
      exact hminus cs hcs
    simp [hhead, negative_of_unsigned h]

/-! ### White space around a number -/

namespace Text

theorem isBlank_of_isDigit {c : Char} (h : c.isDigit = true) : isBlank c = false := by
  have hbounds := isDigit_bounds h
  simp only [isBlank]
  simp
  omega

theorem toLower_of_isBlank {c : Char} (h : isBlank c = true) : c.toLower = c := by
  apply toLower_eq
  simp only [isBlank] at h
  simp at h
  omega

end Text

theorem SpellsSign.not_blank {cs : List Char} {negative : Bool} (h : SpellsSign cs negative) :
    ∀ c ∈ cs, Text.isBlank c = false := by
  cases h with
  | absent => exact List.forall_mem_nil _
  | plus => exact List.forall_mem_singleton.mpr rfl
  | minus => exact List.forall_mem_singleton.mpr rfl

theorem AllDigits.not_blank {cs : List Char} (h : AllDigits cs) :
    ∀ c ∈ cs, Text.isBlank c = false :=
  fun c hc => Text.isBlank_of_isDigit (h c hc)

theorem SpellsDigits.not_blank {cs : List Char} {c k : Nat} (h : SpellsDigits cs c k) :
    ∀ c ∈ cs, Text.isBlank c = false := by
  cases h with
  | whole hds _ => exact hds.not_blank
  | point hds hfs _ =>
    rw [List.forall_mem_append, List.forall_mem_cons]
    exact ⟨hds.not_blank, by decide, hfs.not_blank⟩

theorem SpellsExponent.not_blank {cs : List Char} {e : Int} (h : SpellsExponent cs e) :
    ∀ c ∈ cs, Text.isBlank c = false := by
  cases h with
  | absent => simp
  | present hletter hsign hds _ =>
    rw [List.forall_mem_cons, List.forall_mem_append]
    refine ⟨?_, hsign.not_blank, hds.not_blank⟩
    rcases hletter with rfl | rfl <;> decide

theorem not_blank_of_name {cs name : List Char} (hcs : cs.map Char.toLower = name)
    (hname : name.any Text.isBlank = false) : ∀ c ∈ cs, Text.isBlank c = false := by
  intro c hc
  cases hblank : Text.isBlank c with
  | false => rfl
  | true =>
    have hmem : c.toLower ∈ name := hcs ▸ List.mem_map_of_mem hc
    rw [Text.toLower_of_isBlank hblank] at hmem
    exact absurd hblank (List.any_eq_false.mp hname c hmem)

/-- No text of the grammar holds a blank character. -/
theorem DenotedBy.not_blank {cs : List Char} {x : Double} (h : DenotedBy cs x) :
    ∀ c ∈ cs, Text.isBlank c = false := by
  cases h with
  | numeral hsign hdigits hexponent _ =>
    rw [List.forall_mem_append, List.forall_mem_append]
    exact ⟨hsign.not_blank, hdigits.not_blank, hexponent.not_blank⟩
  | infinity hsign hname =>
    refine List.forall_mem_append.mpr ⟨hsign.not_blank, ?_⟩
    rcases hname with hname | hname
    · exact not_blank_of_name hname rfl
    · exact not_blank_of_name hname rfl
  | notANumber hsign hname _ =>
    exact List.forall_mem_append.mpr ⟨hsign.not_blank, not_blank_of_name hname rfl⟩

/-- A text of the grammar is read with blank characters around it. -/
theorem exists_ofText?_trim {s : String} {before core after : List Char} {x : Double}
    (hs : s.toList = before ++ (core ++ after)) (hbefore : ∀ c ∈ before, Text.isBlank c = true)
    (hafter : ∀ c ∈ after, Text.isBlank c = true) (h : DenotedBy core x) :
    ∃ y, Double.ofText? (Text.trim s) = some y ∧ y.SameNumber x := by
  have hhead : ∀ c ∈ core.head?, Text.isBlank c = false :=
    fun c hc => h.not_blank c (List.mem_of_mem_head? hc)
  have hlast : ∀ c ∈ core.getLast?, Text.isBlank c = false :=
    fun c hc => h.not_blank c (List.mem_of_mem_getLast? hc)
  have htrim : Text.trim s = String.ofList core := by
    rw [Text.trim, hs, Text.trimChars_between hbefore hafter hhead hlast]
  rw [htrim]
  exact exists_ofText? h

end ModelCatalog
