/-
  ModelCatalog/Violation.lean
  ===========================
  **What is wrong with an input, as it is reported.**

  A violation names a place in the input, a kind and a reason.  A report lists the
  violations in the order in which they were found; `summary` is its text.
-/
import ModelCatalog.Json.Fields

namespace ModelCatalog

/-- The three kinds of violations: a value of the wrong shape, a number out of its
    range, and a name outside a closed set. -/
inductive ViolationKind where
  | shape | range | enumeration
deriving DecidableEq, Repr

instance : Named ViolationKind where
  all := [.shape, .range, .enumeration]
  name
    | .shape => "shape"
    | .range => "range"
    | .enumeration => "enum"

structure Violation where
  path : String
  kind : ViolationKind
  reason : String
deriving DecidableEq, Repr

abbrev Violations := List Violation

def rootPath : String := "$"

namespace Violation

def summary (v : Violation) : String :=
  v.path ++ " (" ++ Named.name v.kind ++ "): " ++ v.reason

def toJson (v : Violation) : Json :=
  .object [
    ("kind", .string (Named.name v.kind)),
    ("path", .string v.path),
    ("reason", .string v.reason)]

def ofJson? (v : Json) : Option Violation := do
  let fields ← Json.fields? 3 v
  let path ← fields.required 0 "path" Json.text?
  let kind ← fields.required 1 "kind" (Json.named? .plain)
  let reason ← fields.required 2 "reason" Json.text?
  return { path, kind, reason }

end Violation

namespace Violations

def summary (vs : Violations) : String :=
  toString vs.length ++ " validation error" ++ (if vs.length = 1 then "" else "s") ++
    String.join (vs.map fun v => "; " ++ v.summary)

def at? (vs : Violations) (path : String) : Option Violation :=
  vs.find? fun v => v.path == path

def count (vs : Violations) (kind : ViolationKind) : Nat :=
  vs.countP fun v => v.kind == kind

def listJson (vs : Violations) : Json := .array (vs.map Violation.toJson)

def toJson (vs : Violations) : Json := .object [("errors", listJson vs)]

def ofJson? (v : Json) : Option Violations := do
  let fields ← Json.fields? 1 v
  fields.required 0 "errors" (Json.list? Violation.ofJson?)

end Violations

end ModelCatalog
