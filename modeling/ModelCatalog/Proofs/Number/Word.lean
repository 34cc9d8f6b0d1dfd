/-
  ModelCatalog/Proofs/Number/Word.lean
  ====================================
  **Texts that spell a number of 16 bits.**

  A text spells the number of its digits, with a plus sign before them or without; any
  other text spells none, and neither do digits of a larger number.  What is read is the
  number that is spelled (`readWord_eq_ok_iff`).
-/
import ModelCatalog.Number.Word
import ModelCatalog.Proofs.Number.Numerals

namespace ModelCatalog

/-- A text of digits, with a plus sign before them or without, and the number they are. -/
def SpellsWord (s : String) (w : UInt16) : Prop :=
  ∃ ds : List Char, ds ≠ [] ∧ AllDigits ds ∧ (s.toList = ds ∨ s.toList = '+' :: ds) ∧
    ofDigits ds = w.toNat

/-- A number never becomes smaller by more digits. -/
theorem le_foldl_digits (n : Nat) (cs : List Char) :
    n ≤ cs.foldl (fun n c => 10 * n + digitValue c) n := by
  induction cs generalizing n with
  | nil => exact Nat.le_refl n
  | cons c cs ih =>
    have hstep : n ≤ 10 * n + digitValue c := by omega
    exact Nat.le_trans hstep (ih _)

theorem wordFrom_eq_ok_iff {n m : Nat} (hn : n < UInt16.size) {cs : List Char} :
    wordFrom n cs = .ok m ↔
      AllDigits cs ∧ cs.foldl (fun n c => 10 * n + digitValue c) n = m ∧ m < UInt16.size := by
  induction cs generalizing n with
  | nil =>
    rw [wordFrom, Except.ok.injEq, List.foldl_nil]
    constructor
    · rintro rfl
      exact ⟨List.forall_mem_nil _, rfl, hn⟩
    · rintro ⟨-, hm, -⟩
      exact hm
  | cons c cs ih =>
    have hvalue : c.toNat - '0'.toNat = digitValue c := rfl
    rw [wordFrom, List.foldl_cons, hvalue]
    by_cases hdigit : c.isDigit = true
    · have hall : AllDigits (c :: cs) ↔ AllDigits cs := by simp [AllDigits, hdigit]
      by_cases hfits : 10 * n + digitValue c < UInt16.size
      · simp [hdigit, hfits, ih hfits, hall]
      · -- what is too large stays so
        have hlarge := le_foldl_digits (10 * n + digitValue c) cs
        have hnot : ¬ (cs.foldl (fun n c => 10 * n + digitValue c) (10 * n + digitValue c) = m ∧
            m < UInt16.size) := by omega
        simp [hdigit, hfits, hnot]
    · have hnot : ¬ AllDigits (c :: cs) := fun h => hdigit (h c List.mem_cons_self)
      simp [hdigit, hnot]

theorem withoutPlus_of_allDigits {ds : List Char} (hds : AllDigits ds) : withoutPlus ds = ds := by
  unfold withoutPlus
  split
  · exact absurd (hds '+' List.mem_cons_self) (by decide)
  · rfl

theorem eq_or_eq_of_withoutPlus (cs : List Char) :
    cs = withoutPlus cs ∨ cs = '+' :: withoutPlus cs := by
  unfold withoutPlus
  split
  · exact Or.inr rfl
  · exact Or.inl rfl

theorem withoutPlus_ne_nil {cs : List Char} (h : cs ≠ []) : withoutPlus cs ≠ [] := by
  unfold withoutPlus
  split
  · exact List.cons_ne_nil _ _
  · exact h

theorem map_wordFrom_eq_ok_iff {cs : List Char} {w : UInt16} :
    (wordFrom 0 cs).map UInt16.ofNat = .ok w ↔ AllDigits cs ∧ ofDigits cs = w.toNat := by
  constructor
  · intro h
    cases hcs : wordFrom 0 cs with
    | error cause =>
      rw [hcs] at h
      cases h
    | ok m =>
      rw [hcs] at h
      cases h
      obtain ⟨hds, hm, hfits⟩ := (wordFrom_eq_ok_iff (by decide)).mp hcs
      exact ⟨hds, hm.trans (UInt16.toNat_ofNat_of_lt' hfits).symm⟩
  · rintro ⟨hds, hw⟩
    have hcs : wordFrom 0 cs = .ok w.toNat :=
      (wordFrom_eq_ok_iff (by decide)).mpr ⟨hds, hw, w.toNat_lt⟩
    rw [hcs, Except.map, UInt16.ofNat_toNat]

/-- **What is read is the number that is spelled.** -/
theorem readWord_eq_ok_iff {s : String} {w : UInt16} : readWord s = .ok w ↔ SpellsWord s w := by
  rw [readWord, SpellsWord]
  by_cases hempty : s.isEmpty = true
  · have hs : s.toList = [] := by simpa using hempty
    rw [if_pos hempty, hs]
    constructor
    · intro h
      cases h
    · rintro ⟨ds, hne, -, rfl | hplus, -⟩
      · exact absurd rfl hne
      · cases hplus
  · have hs : s.toList ≠ [] := by simpa using hempty
    rw [if_neg hempty, map_wordFrom_eq_ok_iff]
    constructor
    · rintro ⟨hds, hw⟩
      exact ⟨withoutPlus s.toList, withoutPlus_ne_nil hs, hds, eq_or_eq_of_withoutPlus _, hw⟩
    · rintro ⟨ds, hne, hds, hcs | hcs, hw⟩
      · rw [hcs, withoutPlus_of_allDigits hds]
        exact ⟨hds, hw⟩
      · obtain ⟨d, others, rfl⟩ := List.exists_cons_of_ne_nil hne
        rw [hcs, withoutPlus]
        exact ⟨hds, hw⟩

end ModelCatalog
