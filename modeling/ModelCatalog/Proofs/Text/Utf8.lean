/-
  ModelCatalog/Proofs/Text/Utf8.lean
  ==================================
  **A text is read back from its octets.**

  The first octet of a character says how many follow it and bounds the next one
  (`lead_two`, `lead_three`, `lead_four`); those that the character is written with are
  within the bounds, so the machine goes through them to the end of the character
  (`decodeFrom_utf8EncodeChar`) and through a text character by character
  (`ofOctets_octets`).  The first octet in which two characters differ is less for the
  lesser one, so texts are in the order of their octets (`octets_lt_iff`).
-/
import Mathlib.Data.List.Lex
import Mathlib.Tactic.ByContra
import Mathlib.Tactic.SplitIfs
import ModelCatalog.Text.Utf8

namespace ModelCatalog.Text

/-! ### Leading octets -/

theorem lead_one {b : Nat} (h : b < 0x80) : lead b = .whole (Char.ofNat b) := by
  simp only [lead, h, if_true]

theorem lead_two {b : Nat} (h : 0xC2 ≤ b) (h' : b < 0xE0) :
    lead b = .opens ⟨1, 0x80, 0xBF, b - 0xC0⟩ := by
  have h₁ : ¬b < 0x80 := by omega
  have h₂ : ¬b < 0xC2 := by omega
  simp only [lead, h₁, h₂, h', if_true, if_false]

theorem lead_three {b : Nat} (h : 0xE0 ≤ b) (h' : b < 0xF0) :
    lead b = .opens ⟨2, if b = 0xE0 then 0xA0 else 0x80, if b = 0xED then 0x9F else 0xBF,
      b - 0xE0⟩ := by
  have h₁ : ¬b < 0x80 := by omega
  have h₂ : ¬b < 0xC2 := by omega
  have h₃ : ¬b < 0xE0 := by omega
  simp only [lead, h₁, h₂, h₃, h', if_true, if_false]
  split_ifs <;> simp_all

theorem lead_four {b : Nat} (h : 0xF0 ≤ b) (h' : b ≤ 0xF4) :
    lead b = .opens ⟨3, if b = 0xF0 then 0x90 else 0x80, if b = 0xF4 then 0x8F else 0xBF,
      b - 0xF0⟩ := by
  have h₁ : ¬b < 0x80 := by omega
  have h₂ : ¬b < 0xC2 := by omega
  have h₃ : ¬b < 0xE0 := by omega
  have h₄ : ¬b < 0xF0 := by omega
  have h₅ : b ≠ 0xE0 := by omega
  have h₆ : b ≠ 0xED := by omega
  simp only [lead, h₁, h₂, h₃, h₄, h₅, h₆, if_false]
  obtain rfl | rfl | ⟨hlow, hhigh⟩ : b = 0xF0 ∨ b = 0xF4 ∨ 0xF0 < b ∧ b < 0xF4 := by omega
  · rfl
  · rfl
  · simp only [Nat.ne_of_gt hlow, Nat.ne_of_lt hhigh, hhigh, if_true, if_false]

/-! ### One character -/

variable {b : UInt8} {rest : List UInt8} {least greatest bits : Nat}

theorem decodeFrom_lead {p : Pending} (h : lead b.toNat = .opens p) :
    decodeFrom none (b :: rest) = decodeFrom (some p) rest := by
  simp only [decodeFrom, h]

theorem decodeFrom_last (h : least ≤ b.toNat) (h' : b.toNat ≤ greatest) :
    decodeFrom (some ⟨1, least, greatest, bits⟩) (b :: rest) =
      Char.ofNat (bits * 64 + b.toNat % 64) :: decodeFrom none rest := by
  simp [decodeFrom, h, h']

theorem decodeFrom_next {needed : Nat} (h : least ≤ b.toNat) (h' : b.toNat ≤ greatest) :
    decodeFrom (some ⟨needed + 2, least, greatest, bits⟩) (b :: rest) =
      decodeFrom (some ⟨needed + 1, 0x80, 0xBF, bits * 64 + b.toNat % 64⟩) rest := by
  simp [decodeFrom, h, h']

/-- **A character is read back from its octets.** -/
theorem decodeFrom_utf8EncodeChar (c : Char) (rest : List UInt8) :
    decodeFrom none (String.utf8EncodeChar c ++ rest) = c :: decodeFrom none rest := by
  have hvalid : c.toNat < 0xD800 ∨ 0xDFFF < c.toNat ∧ c.toNat < 0x110000 := c.valid
  have hchar : ∀ n, n = c.toNat → Char.ofNat n = c := by
    rintro n rfl
    exact Char.ofNat_toNat c
  have hval : c.val.toNat = c.toNat := rfl
  simp only [String.utf8EncodeChar, hval]
  generalize c.toNat = v at hvalid hchar
  split_ifs with h₁ h₂ h₃
  · have hlead := UInt8.toNat_ofNat_of_lt' (show v < 256 by omega)
    rw [List.singleton_append, decodeFrom, hlead, lead_one (by omega)]
    simp only [hchar v rfl]
  · have hlead := UInt8.toNat_ofNat_of_lt' (show v / 64 % 32 + 192 < 256 by omega)
    have hsecond := UInt8.toNat_ofNat_of_lt' (show v % 64 + 128 < 256 by omega)
    simp only [List.cons_append, List.nil_append]
    rw [decodeFrom_lead (lead_two _ _), decodeFrom_last, hchar]
    all_goals simp only [hlead, hsecond]
    all_goals omega
  · have hlead := UInt8.toNat_ofNat_of_lt' (show v / 4096 % 16 + 224 < 256 by omega)
    have hsecond := UInt8.toNat_ofNat_of_lt' (show v / 64 % 64 + 128 < 256 by omega)
    have hthird := UInt8.toNat_ofNat_of_lt' (show v % 64 + 128 < 256 by omega)
    simp only [List.cons_append, List.nil_append]
    rw [decodeFrom_lead (lead_three _ _), decodeFrom_next, decodeFrom_last, hchar]
    all_goals simp only [hlead, hsecond, hthird]
    all_goals first | omega | (split <;> omega)
  · have hlead := UInt8.toNat_ofNat_of_lt' (show v / 262144 % 8 + 240 < 256 by omega)
    have hsecond := UInt8.toNat_ofNat_of_lt' (show v / 4096 % 64 + 128 < 256 by omega)
    have hthird := UInt8.toNat_ofNat_of_lt' (show v / 64 % 64 + 128 < 256 by omega)
    have hfourth := UInt8.toNat_ofNat_of_lt' (show v % 64 + 128 < 256 by omega)
    simp only [List.cons_append, List.nil_append]
    rw [decodeFrom_lead (lead_four _ _), decodeFrom_next, decodeFrom_next, decodeFrom_last, hchar]
    all_goals simp only [hlead, hsecond, hthird, hfourth]
    all_goals first | omega | (split <;> omega)

/-! ### Texts -/

theorem decodeFrom_flatMap (cs : List Char) :
    decodeFrom none (cs.flatMap String.utf8EncodeChar) = cs := by
  induction cs with
  | nil => rfl
  | cons c cs ih => rw [List.flatMap_cons, decodeFrom_utf8EncodeChar, ih]

/-- **A text is read back from its octets.** -/
theorem ofOctets_octets (s : String) : ofOctets (octets s) = s := by
  rw [ofOctets, octets, decodeFrom_flatMap, String.ofList_toList]

/-! ### Order -/

theorem cons_lt_cons {a b : Nat} {as bs : List UInt8} (hb : b < 256)
    (h : a < b ∨ a = b ∧ as < bs) : UInt8.ofNat a :: as < UInt8.ofNat b :: bs := by
  rcases h with h | ⟨rfl, h⟩
  · refine List.Lex.rel ?_
    rw [UInt8.lt_iff_toNat_lt, UInt8.toNat_ofNat_of_lt' (show a < 256 by omega),
      UInt8.toNat_ofNat_of_lt' hb]
    exact h
  · exact List.Lex.cons h

/-- **Octets compare as their characters do**, whatever follows. -/
theorem utf8EncodeChar_append_lt {c d : Char} (h : c < d) (as bs : List UInt8) :
    String.utf8EncodeChar c ++ as < String.utf8EncodeChar d ++ bs := by
  have hlt : c.toNat < d.toNat := h
  have hsize : d.toNat < 0x110000 := by
    have hvalid : d.toNat < 0xD800 ∨ 0xDFFF < d.toNat ∧ d.toNat < 0x110000 := d.valid
    omega
  have hvalc : c.val.toNat = c.toNat := rfl
  have hvald : d.val.toNat = d.toNat := rfl
  simp only [String.utf8EncodeChar, hvalc, hvald]
  generalize c.toNat = v at *
  generalize d.toNat = w at *
  split_ifs <;> simp only [List.cons_append, List.nil_append]
  -- of two characters with as many octets, the first octet that differs decides
  all_goals try exact absurd hlt (by omega)
  all_goals try exact cons_lt_cons (by omega) (Or.inl (by omega))
  · by_cases h₁ : v / 64 < w / 64
    · exact cons_lt_cons (by omega) (Or.inl (by omega))
    · exact cons_lt_cons (by omega)
        (Or.inr ⟨by omega, cons_lt_cons (by omega) (Or.inl (by omega))⟩)
  · by_cases h₁ : v / 4096 < w / 4096
    · exact cons_lt_cons (by omega) (Or.inl (by omega))
    · refine cons_lt_cons (by omega) (Or.inr ⟨by omega, ?_⟩)
      by_cases h₂ : v / 64 < w / 64
      · exact cons_lt_cons (by omega) (Or.inl (by omega))
      · exact cons_lt_cons (by omega)
          (Or.inr ⟨by omega, cons_lt_cons (by omega) (Or.inl (by omega))⟩)
  · by_cases h₁ : v / 262144 < w / 262144
    · exact cons_lt_cons (by omega) (Or.inl (by omega))
    · refine cons_lt_cons (by omega) (Or.inr ⟨by omega, ?_⟩)
      by_cases h₂ : v / 4096 < w / 4096
      · exact cons_lt_cons (by omega) (Or.inl (by omega))
      · refine cons_lt_cons (by omega) (Or.inr ⟨by omega, ?_⟩)
        by_cases h₃ : v / 64 < w / 64
        · exact cons_lt_cons (by omega) (Or.inl (by omega))
        · exact cons_lt_cons (by omega)
            (Or.inr ⟨by omega, cons_lt_cons (by omega) (Or.inl (by omega))⟩)

theorem flatMap_lt_flatMap {cs ds : List Char} (h : cs < ds) :
    cs.flatMap String.utf8EncodeChar < ds.flatMap String.utf8EncodeChar := by
  induction h with
  | @nil d ds =>
    have hne : (d :: ds).flatMap String.utf8EncodeChar ≠ [] := by
      simp [String.utf8EncodeChar_ne_nil]
    obtain ⟨b, bs, hcons⟩ := List.exists_cons_of_ne_nil hne
    rw [hcons]
    exact List.Lex.nil
  | @rel c cs d ds h =>
    rw [List.flatMap_cons, List.flatMap_cons]
    exact utf8EncodeChar_append_lt h _ _
  | cons _ ih =>
    rw [List.flatMap_cons, List.flatMap_cons]
    exact List.Lex.append_left _ ih _

/-- **Texts are in the order of their octets.** -/
theorem octets_lt_iff {s t : String} : octets s < octets t ↔ s < t := by
  rw [String.lt_iff]
  constructor
  · intro h
    by_contra hge
    rcases List.le_iff_lt_or_eq.mp (List.not_lt.mp hge) with hlt | heq
    · exact List.lt_asymm h (flatMap_lt_flatMap hlt)
    · rw [octets, octets, heq] at h
      exact List.lt_irrefl _ h
  · exact flatMap_lt_flatMap

end ModelCatalog.Text
