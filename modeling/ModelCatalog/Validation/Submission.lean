/-
  ModelCatalog/Validation/Submission.lean
  =======================================
  **Reading a submitted model from text.**

  A text that is no JSON text is a failure of its own; any other is judged as the
  value that it spells.
-/
import ModelCatalog.Failure
import ModelCatalog.Json.Reader
import ModelCatalog.Validation.Request

namespace ModelCatalog

/-- What comes of a submitted text: the model it describes, or why there is none; and
    the paths of the members that were dropped. -/
structure Submission where
  outcome : Except Failure ModelRequest
  dropped : List String

def parseRequest (p : Policy) (text : String) : Submission :=
  match Json.read? text with
  | none => ⟨.error .malformedJson, []⟩
  | some v =>
    let verdict := Validation.validateRequest p v
    ⟨verdict.outcome.mapError .invalid, verdict.dropped⟩

end ModelCatalog
