/-
  ModelCatalog/Proofs/Text/Trimming.lean
  ======================================
  **What is left of a text without its blank ends.**

  A trimmed text stands in the text between blank characters, and neither begins nor ends
  with one (`trimmed_trim`).  There is one such text only (`trimmed_iff`); for a text of
  blank characters it is the empty one.
-/
import Mathlib.Data.List.Basic
import Mathlib.Data.List.TakeWhile
import ModelCatalog.Proofs.Text.Pieces
import ModelCatalog.Text.Blank

namespace ModelCatalog.Text

/-- A text is another one without the blank characters at both ends. -/
def Trimmed (s t : String) : Prop :=
  ∃ before after : List Char, s.toList = before ++ (t.toList ++ after) ∧
    (∀ c ∈ before, isBlank c = true) ∧ (∀ c ∈ after, isBlank c = true) ∧
    (∀ c ∈ t.toList.head?, isBlank c = false) ∧ ∀ c ∈ t.toList.getLast?, isBlank c = false

/-- **Blank characters around a text are trimmed off it.** -/
theorem trimChars_between {before core after : List Char}
    (hbefore : ∀ c ∈ before, isBlank c = true) (hafter : ∀ c ∈ after, isBlank c = true)
    (hhead : ∀ c ∈ core.head?, isBlank c = false)
    (hlast : ∀ c ∈ core.getLast?, isBlank c = false) :
    trimChars (before ++ (core ++ after)) = core := by
  by_cases hcore : core = []
  · subst hcore
    have hall : ∀ c ∈ before ++ after, isBlank c = true :=
      List.forall_mem_append.mpr ⟨hbefore, hafter⟩
    rw [List.nil_append, trimChars, List.dropWhile_eq_nil_iff.mpr hall]
    rfl
  · have hfirst : ∀ c ∈ (core ++ after).head?, isBlank c = false := by
      rw [List.head?_append_of_ne_nil core hcore]
      exact hhead
    have hafter' : ∀ c ∈ after.reverse, isBlank c = true := by
      intro c hc
      exact hafter c (List.mem_reverse.mp hc)
    have hlast' : ∀ c ∈ core.reverse.head?, isBlank c = false := by
      rw [List.head?_reverse]
      exact hlast
    rw [trimChars, dropWhile_block hbefore hfirst, List.reverse_append,
      dropWhile_block hafter' hlast', List.reverse_reverse]

theorem head?_dropWhile_isBlank (cs : List Char) :
    ∀ c ∈ (cs.dropWhile isBlank).head?, isBlank c = false := by
  intro c hc
  have hnot := List.head?_dropWhile_not isBlank cs
  rw [Option.mem_def.mp hc] at hnot
  simpa using hnot

/-- **Trimming leaves what stands between the blank ends.** -/
theorem trimmed_trim (s : String) : Trimmed s (trim s) := by
  let rest := s.toList.dropWhile isBlank
  have hrest : rest = trimChars s.toList ++ (rest.reverse.takeWhile isBlank).reverse := by
    rw [trimChars, ← List.reverse_append, List.takeWhile_append_dropWhile, List.reverse_reverse]
  have hlist : s.toList = s.toList.takeWhile isBlank ++ rest :=
    List.takeWhile_append_dropWhile.symm
  refine ⟨s.toList.takeWhile isBlank, (rest.reverse.takeWhile isBlank).reverse, ?_, ?_, ?_, ?_, ?_⟩
  · rw [trim, String.toList_ofList, ← hrest]
    exact hlist
  · intro c hc
    exact List.mem_takeWhile_imp hc
  · intro c hc
    exact List.mem_takeWhile_imp (List.mem_reverse.mp hc)
  · rw [trim, String.toList_ofList]
    intro c hc
    have hfirst : c ∈ rest.head? := by
      rw [hrest]
      exact List.mem_head?_append_of_mem_head? hc
    exact head?_dropWhile_isBlank s.toList c hfirst
  · rw [trim, String.toList_ofList, trimChars, List.getLast?_reverse]
    exact head?_dropWhile_isBlank _

theorem trimmed_iff {s t : String} : Trimmed s t ↔ t = trim s := by
  constructor
  · rintro ⟨before, after, hs, hbefore, hafter, hhead, hlast⟩
    rw [trim, hs, trimChars_between hbefore hafter hhead hlast, String.ofList_toList]
  · rintro rfl
    exact trimmed_trim s

/-- The first character of a text that is not blank. -/
def first? (s : String) : Option Char := s.toList.find? fun c => !isBlank c

/-- **What is trimmed begins where the text does**, blank characters apart. -/
theorem Trimmed.head?_eq {s t : String} (h : Trimmed s t) : t.toList.head? = first? s := by
  obtain ⟨before, after, hs, hbefore, hafter, hhead, -⟩ := h
  have hnone : ∀ cs : List Char, (∀ c ∈ cs, isBlank c = true) →
      cs.find? (fun c => !isBlank c) = none := by
    intro cs hcs
    exact List.find?_eq_none.mpr fun c hc => by simp [hcs c hc]
  rw [first?, hs, List.find?_append, hnone before hbefore, Option.none_or]
  rcases ht : t.toList with _ | ⟨c, cs⟩
  · exact (hnone after hafter).symm
  · rw [ht] at hhead
    have hc : isBlank c = false := hhead c rfl
    rw [List.cons_append, List.find?_cons_of_pos (by simp [hc])]
    rfl

end ModelCatalog.Text
