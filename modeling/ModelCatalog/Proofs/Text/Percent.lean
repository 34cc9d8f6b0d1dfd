/-
  ModelCatalog/Proofs/Text/Percent.lean
  =====================================
  **Escapes are undone, all at once or in two rounds.**

  Octets of which some are escaped, the percent sign among them, are read back whole
  (`percentDecodeOctets_flatMap`): those that are kept escaped stay so, and another round
  resolves them.  The octets that are between the rounds are those of a text again
  (`exists_octets_eq`), since only characters of one octet are ever escaped.
-/
import ModelCatalog.Text.Percent
import ModelCatalog.Proofs.Text.Utf8

namespace ModelCatalog.Text

variable {kept p : UInt8 → Bool}

/-! ### One escape -/

/-- An octet, escaped if it is one of those to be escaped. -/
def escapeWhere (p : UInt8 → Bool) (b : UInt8) : List UInt8 :=
  if p b then [percentSign, hexDigitOctet (b.toNat / 16), hexDigitOctet (b.toNat % 16)] else [b]

theorem percentEncodeOctet_eq (b : UInt8) :
    percentEncodeOctet b = escapeWhere (fun b => !isUnreserved b) b := by
  cases h : isUnreserved b <;> simp [percentEncodeOctet, escapeWhere, h]

theorem hexDigit?_hexDigitOctet : ∀ n < 16, hexDigit? (hexDigitOctet n) = some n := by decide

/-- The digits of an escape are neither the percent sign nor the slash, and of ASCII. -/
theorem hexDigitOctet_bounds : ∀ n < 16, hexDigitOctet n ≠ percentSign ∧
    hexDigitOctet n ≠ 0x2F ∧ (hexDigitOctet n).toNat < 0x80 := by decide

theorem hexPair?_hexDigitOctet (b : UInt8) :
    hexPair? (hexDigitOctet (b.toNat / 16)) (hexDigitOctet (b.toNat % 16)) = some b := by
  have hlt : b.toNat < 256 := b.toNat_lt
  have hhigh := hexDigit?_hexDigitOctet (b.toNat / 16) (by omega)
  have hlow := hexDigit?_hexDigitOctet (b.toNat % 16) (by omega)
  simp only [hexPair?, hhigh, hlow, Nat.div_add_mod, UInt8.ofNat_toNat]

theorem percentDecodeOctets_cons_ne {a : UInt8} (h : a ≠ percentSign) (rest : List UInt8) :
    percentDecodeOctets kept (a :: rest) = a :: percentDecodeOctets kept rest := by
  match rest with
  | [] => rfl
  | [_] => rfl
  | _ :: _ :: _ => rw [percentDecodeOctets, if_neg h]

theorem percentDecodeOctets_append {as : List UInt8} (h : percentSign ∉ as) (rest : List UInt8) :
    percentDecodeOctets kept (as ++ rest) = as ++ percentDecodeOctets kept rest := by
  induction as with
  | nil => rfl
  | cons a as ih =>
    obtain ⟨ha, has⟩ := List.ne_and_not_mem_of_not_mem_cons h
    rw [List.cons_append, percentDecodeOctets_cons_ne (Ne.symm ha), ih has, List.cons_append]

theorem percentDecodeOctets_escapeWhere (hp : p percentSign = true) (b : UInt8)
    (rest : List UInt8) :
    percentDecodeOctets kept (escapeWhere p b ++ rest) =
      escapeWhere (fun b => p b && kept b) b ++ percentDecodeOctets kept rest := by
  have hlt : b.toNat < 256 := b.toNat_lt
  by_cases hb : p b = true
  · obtain ⟨hhigh, -⟩ := hexDigitOctet_bounds (b.toNat / 16) (by omega)
    obtain ⟨hlow, -⟩ := hexDigitOctet_bounds (b.toNat % 16) (by omega)
    simp only [escapeWhere, hb, if_true, List.cons_append, List.nil_append, Bool.true_and]
    rw [percentDecodeOctets, if_pos rfl, hexPair?_hexDigitOctet]
    by_cases hkept : kept b = true
    · simp [hkept, percentDecodeOctets_cons_ne hhigh, percentDecodeOctets_cons_ne hlow]
    · simp [hkept]
  · have hne : b ≠ percentSign := by
      rintro rfl
      exact hb hp
    simp [escapeWhere, hb, percentDecodeOctets_cons_ne hne]

/-! ### Rows of escapes -/

/-- **Escapes are undone**, but for those of the octets that are kept. -/
theorem percentDecodeOctets_flatMap (hp : p percentSign = true) (bs rest : List UInt8) :
    percentDecodeOctets kept (bs.flatMap (escapeWhere p) ++ rest) =
      bs.flatMap (escapeWhere fun b => p b && kept b) ++ percentDecodeOctets kept rest := by
  induction bs with
  | nil => rfl
  | cons b bs ih =>
    rw [List.flatMap_cons, List.append_assoc, percentDecodeOctets_escapeWhere hp, ih,
      List.flatMap_cons, List.append_assoc]

/-- What is not escaped stands as it is. -/
theorem flatMap_escapeWhere_of_forall {bs : List UInt8} (h : ∀ b ∈ bs, p b = false) :
    bs.flatMap (escapeWhere p) = bs := by
  induction bs with
  | nil => rfl
  | cons b bs ih =>
    obtain ⟨hb, hbs⟩ := List.forall_mem_cons.mp h
    simp [escapeWhere, hb, ih hbs]

theorem slash_not_mem_escapeWhere (hp : p 0x2F = true) (bs : List UInt8) :
    0x2F ∉ bs.flatMap (escapeWhere p) := by
  intro h
  obtain ⟨b, -, hb⟩ := List.mem_flatMap.mp h
  have hlt : b.toNat < 256 := b.toNat_lt
  obtain ⟨-, hhigh, -⟩ := hexDigitOctet_bounds (b.toNat / 16) (by omega)
  obtain ⟨-, hlow, -⟩ := hexDigitOctet_bounds (b.toNat % 16) (by omega)
  by_cases hpb : p b = true
  · simp [escapeWhere, hpb, Ne.symm hhigh, Ne.symm hlow, percentSign] at hb
  · have heq : (0x2F : UInt8) = b := by simpa [escapeWhere, hpb] using hb
    exact hpb (heq ▸ hp)

/-! ### Texts -/

theorem octets_append (s t : String) : octets (s ++ t) = octets s ++ octets t := by
  simp [octets]

theorem utf8EncodeChar_ofNat : ∀ n < 0x80,
    String.utf8EncodeChar (Char.ofNat n) = [UInt8.ofNat n] := by decide

/-- Octets of ASCII are those of the characters that they number. -/
theorem octets_ofList_map {bs : List UInt8} (h : ∀ b ∈ bs, b.toNat < 0x80) :
    octets (String.ofList (bs.map fun b => Char.ofNat b.toNat)) = bs := by
  simp only [octets, String.toList_ofList]
  induction bs with
  | nil => rfl
  | cons b bs ih =>
    obtain ⟨hb, hbs⟩ := List.forall_mem_cons.mp h
    rw [List.map_cons, List.flatMap_cons, utf8EncodeChar_ofNat _ hb, ih hbs, UInt8.ofNat_toNat,
      List.singleton_append]

theorem le_toNat_ofNat {n : Nat} (h : 0x80 ≤ n) (h' : n < 256) :
    0x80 ≤ (UInt8.ofNat n).toNat := by
  rwa [UInt8.toNat_ofNat_of_lt' h']

/-- A character of more than one octet has none of ASCII. -/
theorem le_of_mem_utf8EncodeChar {c : Char} (h : 0x80 ≤ c.toNat) :
    ∀ b ∈ String.utf8EncodeChar c, 0x80 ≤ b.toNat := by
  have hval : c.val.toNat = c.toNat := rfl
  have hsize : c.toNat < 0x110000 := by
    have hvalid : c.toNat < 0xD800 ∨ 0xDFFF < c.toNat ∧ c.toNat < 0x110000 := c.valid
    omega
  simp only [String.utf8EncodeChar, hval]
  generalize c.toNat = v at *
  intro b hb
  split_ifs at hb <;> simp only [List.mem_cons, List.not_mem_nil, or_false] at hb
  · omega
  · rcases hb with rfl | rfl <;> exact le_toNat_ofNat (by omega) (by omega)
  · rcases hb with rfl | rfl | rfl <;> exact le_toNat_ofNat (by omega) (by omega)
  · rcases hb with rfl | rfl | rfl | rfl <;> exact le_toNat_ofNat (by omega) (by omega)

/-- Escapes are of ASCII, and so is all of a row if what is not escaped is. -/
theorem lt_of_mem_escapeWhere {b : UInt8} (h : p b = false → b.toNat < 0x80) :
    ∀ a ∈ escapeWhere p b, a.toNat < 0x80 := by
  intro a ha
  have hlt : b.toNat < 256 := b.toNat_lt
  obtain ⟨-, -, hhigh⟩ := hexDigitOctet_bounds (b.toNat / 16) (by omega)
  obtain ⟨-, -, hlow⟩ := hexDigitOctet_bounds (b.toNat % 16) (by omega)
  unfold escapeWhere at ha
  split at ha
  · simp only [List.mem_cons, List.not_mem_nil, or_false] at ha
    rcases ha with rfl | rfl | rfl
    · decide
    · exact hhigh
    · exact hlow
  · rename_i hpb
    rw [List.mem_singleton.mp ha]
    exact h (Bool.eq_false_iff.mpr hpb)

theorem lt_of_isUnreserved {b : UInt8} (h : isUnreserved b = true) : b.toNat < 0x80 := by
  simp only [isUnreserved, Bool.or_eq_true, Bool.and_eq_true, decide_eq_true_eq, beq_iff_eq] at h
  omega

theorem octets_percentEncode (s : String) :
    octets (percentEncode s) = (octets s).flatMap (escapeWhere fun b => !isUnreserved b) := by
  have hencode : percentEncodeOctet = escapeWhere fun b => !isUnreserved b :=
    funext percentEncodeOctet_eq
  rw [percentEncode, hencode, octets_ofList_map]
  intro a ha
  obtain ⟨b, -, hb⟩ := List.mem_flatMap.mp ha
  refine lt_of_mem_escapeWhere ?_ a hb
  intro hb
  exact lt_of_isUnreserved (by simpa using hb)

/-- **A text with some characters of ASCII escaped is a text.** -/
theorem exists_octets_eq (hp : ∀ b, p b = true → b.toNat < 0x80) (s : String) :
    ∃ t, octets t = (octets s).flatMap (escapeWhere p) := by
  suffices h : ∀ cs : List Char, ∃ ds : List Char, ds.flatMap String.utf8EncodeChar =
      (cs.flatMap String.utf8EncodeChar).flatMap (escapeWhere p) by
    obtain ⟨ds, hds⟩ := h s.toList
    exact ⟨String.ofList ds, by rw [octets, String.toList_ofList, hds, octets]⟩
  intro cs
  induction cs with
  | nil => exact ⟨[], rfl⟩
  | cons c cs ih =>
    obtain ⟨ds, hds⟩ := ih
    rw [List.flatMap_cons, List.flatMap_append, ← hds]
    by_cases hc : c.toNat < 0x80
    · have hencode : String.utf8EncodeChar c = [UInt8.ofNat c.toNat] := by
        simpa using utf8EncodeChar_ofNat c.toNat hc
      have hoctet : (UInt8.ofNat c.toNat).toNat < 0x80 := by
        rwa [UInt8.toNat_ofNat_of_lt' (show c.toNat < 256 by omega)]
      have hescaped := octets_ofList_map (lt_of_mem_escapeWhere (p := p) fun _ => hoctet)
      rw [octets, String.toList_ofList] at hescaped
      refine ⟨(escapeWhere p (UInt8.ofNat c.toNat)).map (fun b => Char.ofNat b.toNat) ++ ds, ?_⟩
      rw [List.flatMap_append, hescaped, hencode, List.flatMap_singleton]
    · refine ⟨c :: ds, ?_⟩
      rw [List.flatMap_cons, flatMap_escapeWhere_of_forall]
      intro b hb
      have hle := le_of_mem_utf8EncodeChar (Nat.not_lt.mp hc) b hb
      rw [Bool.eq_false_iff]
      intro hpb
      have hlt := hp b hpb
      omega

/-! ### What is written -/

theorem isUnreserved_hexDigitOctet : ∀ n < 16, isUnreserved (hexDigitOctet n) = true := by decide

/-- Nothing but unreserved characters and percent signs is written. -/
theorem mem_percentEncode {s : String} {c : Char} (h : c ∈ (percentEncode s).toList) :
    ∃ b : UInt8, c = Char.ofNat b.toNat ∧ (isUnreserved b = true ∨ b = percentSign) := by
  rw [percentEncode, String.toList_ofList] at h
  obtain ⟨a, ha, rfl⟩ := List.mem_map.mp h
  obtain ⟨b, -, hb⟩ := List.mem_flatMap.mp ha
  refine ⟨a, rfl, ?_⟩
  have hlt : b.toNat < 256 := b.toNat_lt
  unfold percentEncodeOctet at hb
  split at hb
  · rename_i hunreserved
    rw [List.mem_singleton.mp hb]
    exact Or.inl hunreserved
  · simp only [List.mem_cons, List.not_mem_nil, or_false] at hb
    rcases hb with rfl | rfl | rfl
    · exact Or.inr rfl
    · exact Or.inl (isUnreserved_hexDigitOctet _ (by omega))
    · exact Or.inl (isUnreserved_hexDigitOctet _ (by omega))

end ModelCatalog.Text
