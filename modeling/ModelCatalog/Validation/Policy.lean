/-
  ModelCatalog/Validation/Policy.lean
  ===================================
  **How strictly an input is judged.**

  Three choices, independent of each other: whether members without a meaning are
  dropped or refused, whether identifiers must be given and say something, and
  whether the bounds of scaling must be in order.  `{}` is the most lenient policy.
-/
import ModelCatalog.Descriptor.Names
import ModelCatalog.Json.Fields
import ModelCatalog.Text.Blank

namespace ModelCatalog

inductive UnknownFieldPolicy where
  /-- They are dropped, and a log line says so. -/
  | permissive
  | strict
deriving DecidableEq, Repr

instance : Named UnknownFieldPolicy where
  all := [.permissive, .strict]
  name
    | .permissive => "permissive"
    | .strict => "strict"

/-- The policy that a setting names, in capitals or not, blank characters around it
    left out. -/
def UnknownFieldPolicy.ofSetting? (s : String) : Option UnknownFieldPolicy :=
  Named.ofName? (Text.lowerAscii (Text.trim s))

inductive IdentifierPolicy where
  /-- One that is not given is a placeholder, and a blank one passes. -/
  | lenient
  /-- It must be given and hold a character that is not blank. -/
  | strict
deriving DecidableEq, Repr

instance : Named IdentifierPolicy where
  all := [.lenient, .strict]
  name
    | .lenient => "lenient"
    | .strict => "strict"

structure Policy where
  unknownFields : UnknownFieldPolicy := .permissive
  identifiers : IdentifierPolicy := .lenient
  enforceCapacityOrder : Bool := false
deriving DecidableEq, Repr

namespace Policy

/-- The policy that lets nothing pass. -/
def strict : Policy := ⟨.strict, .strict, true⟩

def toJson (p : Policy) : Json :=
  .object [
    ("enforce_capacity_order", .bool p.enforceCapacityOrder),
    ("identifiers", .string (Named.name p.identifiers)),
    ("unknown_fields", .string (Named.name p.unknownFields))]

/-- All three choices have to be made. -/
def ofJson? (v : Json) : Option Policy := do
  let fields ← Json.fields? 3 v
  let unknownFields ← fields.required 0 "unknown_fields" (Json.named? .plain)
  let identifiers ← fields.required 1 "identifiers" (Json.named? .plain)
  let enforceCapacityOrder ← fields.required 2 "enforce_capacity_order" Json.bool?
  return { unknownFields, identifiers, enforceCapacityOrder }

end Policy

end ModelCatalog
