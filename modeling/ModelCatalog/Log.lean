/-
  ModelCatalog/Log.lean
  =====================
  **What is written to the log.**

  The library logs three things: members that a lenient policy drops, submissions that
  are rejected, and changes of the catalog.
-/
import ModelCatalog.Catalog.Basic
import ModelCatalog.Validation.Survey

namespace ModelCatalog

inductive LogEntry where
  | dropped (path : String)
  | rejected (violations : Violations)
  | changed (event : Event)
deriving DecidableEq, Repr

namespace LogEntry

def line : LogEntry → String
  | .dropped path => "DEBUG Dropping unknown field '" ++ path ++ "'"
  | .rejected violations => "INFO Rejected model request: " ++ violations.summary
  | .changed event => "INFO " ++ event.message

end LogEntry

/-- The entries for the members that a verdict dropped. -/
def Verdict.log {α : Type} (v : Verdict α) : List LogEntry :=
  v.dropped.map .dropped

end ModelCatalog
