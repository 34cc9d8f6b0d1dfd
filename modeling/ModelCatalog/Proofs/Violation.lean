/-
  ModelCatalog/Proofs/Violation.lean
  ==================================
  **A report is read back from its JSON.**
-/
import ModelCatalog.Violation

namespace ModelCatalog

theorem Violation.ofJson?_toJson (v : Violation) : ofJson? v.toJson = some v := by
  obtain ⟨path, kind, reason⟩ := v
  cases kind <;> rfl

theorem Json.list?_map {α : Type} {item? : Json → Option α} {encode : α → Json}
    (h : ∀ a, item? (encode a) = some a) (as : List α) :
    Json.list? item? (.array (as.map encode)) = some as := by
  change (as.map encode).mapM item? = some as
  induction as with
  | nil => rfl
  | cons a as ih =>
    rw [List.map_cons, List.mapM_cons, h, ih]
    rfl

/-- **The violations of a report are those that its list of errors spells.** -/
theorem Violations.ofJson?_toJson (vs : Violations) : ofJson? (toJson vs) = some vs := by
  have hlist : Json.list? Violation.ofJson? (listJson vs) = some vs :=
    Json.list?_map Violation.ofJson?_toJson vs
  unfold ofJson? toJson
  rw [← hlist]
  rfl

end ModelCatalog
