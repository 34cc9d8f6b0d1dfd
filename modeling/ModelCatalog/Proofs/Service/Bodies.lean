/-
  ModelCatalog/Proofs/Service/Bodies.lean
  =======================================
  **Which bodies are read, and as what.**

  A body is read as a value exactly if its content type means JSON, it is within the limit,
  and its octets spell a text that is read as this value (`Call.json_eq_ok_iff`).  One whose
  content type means JSON and that spells a text is at fault only if it is too large or if
  the text is no JSON.
-/
import ModelCatalog.Proofs.Text.Utf8
import ModelCatalog.Service.Message

namespace ModelCatalog

/-! ### Texts and sizes -/

/-- The octets of a body are those of a text. -/
def Body.Spells (b : Body) (text : String) : Prop := b.octets = Text.octets text

/-- A body is not larger than may be, and is not said to be. -/
def Body.Within (b : Body) : Prop :=
  b.octets.length ≤ limit ∧ ∀ length ∈ b.announced, length ≤ limit

instance (b : Body) : Decidable b.Within := inferInstanceAs (Decidable (_ ∧ _))

/-- Whether the content type of a request means JSON. -/
def Call.meansJson (c : Call) : Bool := (c.contentType.map MediaType.isJson).getD false

namespace Body

variable {b : Body} {text : String}

theorem spells_ofText (s : String) : (ofText s).Spells s := rfl

/-- **The text of a body is the one that it spells.** -/
theorem text?_eq_some_iff : b.text? = some text ↔ b.Spells text := by
  unfold text? Spells
  dsimp only
  constructor
  · intro h
    split at h
    · rename_i hoctets
      cases h
      exact hoctets.symm
    · cases h
  · intro h
    rw [h, Text.ofOctets_octets, if_pos rfl]

/-! ### Values -/

theorem json_of_within (h : b.Within) :
    b.json = match b.text?.bind Json.read? with
      | some v => .ok v
      | none => .error .malformed := by
  have hannounced : b.announced.filter (limit < ·) = none := by
    rw [Option.filter_eq_none_iff]
    intro length hlength
    simpa using h.2 length hlength
  unfold json
  rw [hannounced]
  exact if_neg (Nat.not_lt.mpr h.1)

theorem within_of_json {v : Json} (h : b.json = .ok v) : b.Within := by
  unfold json at h
  split at h
  · cases h
  · rename_i hannounced
    split at h
    · cases h
    · rename_i hlength
      refine ⟨Nat.not_lt.mp hlength, fun length hmem => ?_⟩
      have hnot := Option.filter_eq_none_iff.mp hannounced length hmem
      simpa using hnot

/-- A body within the limit is read as its text is. -/
theorem json_of_spells (hwithin : b.Within) (h : b.Spells text) :
    b.json = match Json.read? text with
      | some v => .ok v
      | none => .error .malformed := by
  rw [json_of_within hwithin, text?_eq_some_iff.mpr h, Option.bind_some]

/-- A text that is larger is not read, whatever it says. -/
theorem json_ofText_of_too_large (h : limit < (Text.octets text).length) :
    (ofText text).json = .error .overflow := if_pos h

end Body

namespace Call

variable {c : Call} {text : String}

/-- **A body is read as a value exactly if it is within the limit and spells its text.** -/
theorem json_eq_ok_iff {v : Json} :
    c.json = .ok v ↔ c.meansJson = true ∧ c.body.Within ∧
      ∃ text, c.body.Spells text ∧ Json.read? text = some v := by
  unfold json
  change (if c.meansJson = true then _ else _) = _ ↔ _
  constructor
  · intro h
    split at h
    · rename_i htype
      have hwithin := Body.within_of_json h
      rw [Body.json_of_within hwithin] at h
      refine ⟨htype, hwithin, ?_⟩
      cases htext : c.body.text? with
      | none =>
        rw [htext] at h
        cases h
      | some text =>
        rw [htext, Option.bind_some] at h
        refine ⟨text, Body.text?_eq_some_iff.mp htext, ?_⟩
        cases hread : Json.read? text with
        | none =>
          rw [hread] at h
          cases h
        | some w =>
          rw [hread] at h
          cases h
          rfl
    · cases h
  · rintro ⟨htype, hwithin, text, hspells, hread⟩
    rw [if_pos htype, Body.json_of_spells hwithin hspells, hread]

theorem json_of_meansJson (h : c.meansJson = true) : c.json = c.body.json := if_pos h

end Call

end ModelCatalog
