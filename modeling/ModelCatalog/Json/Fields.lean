/-
  ModelCatalog/Json/Fields.lean
  =============================
  **The fields of a structure, read from JSON as they were written.**

  A structure is written as an object, and may also be written as the list of its
  fields in their order.  `Fields` is either form; a field is asked for by name and
  position together.  Reading here is exact: a value of another kind, a null or a
  number out of range is refused, and members with other names are passed over.
-/
import ModelCatalog.Descriptor.Names
import ModelCatalog.Json.Basic

namespace ModelCatalog.Json

/-! ### Leaves -/

def text? : Json → Option String
  | .string s => some s
  | _ => none

def bool? : Json → Option Bool
  | .bool b => some b
  | _ => none

def count? : Json → Option UInt32
  | .number (.integer n) =>
    if 0 ≤ n ∧ n.toNat < UInt32.size then some (.ofNat n.toNat) else none
  | _ => none

def double? : Json → Option Double
  | .number n => some n.toDouble
  | _ => none

def list? {α : Type} (item? : Json → Option α) : Json → Option (List α)
  | .array items => items.mapM item?
  | _ => none

def optional? {α : Type} (value? : Json → Option α) : Json → Option (Option α)
  | .null => some none
  | v => (value? v).map some

/-- How an alternative may be written beside its bare name: as an object with the
    name for its only member, whose value says nothing. -/
inductive Spelling where
  /-- The value is null. -/
  | plain
  /-- The value is null or an empty object. -/
  | merged
deriving DecidableEq, Repr

/-- Whether a value says nothing. -/
def Spelling.isVoid : Spelling → Json → Bool
  | _, .null => true
  | .merged, .object [] => true
  | _, _ => false

def named? {α : Type} [Named α] (spelling : Spelling) : Json → Option α
  | .string s => Named.ofName? s
  | .object [(name, v)] => if spelling.isVoid v then Named.ofName? name else none
  | _ => none

/-! ### Structures -/

inductive Fields where
  | ofObject (members : List (String × Json))
  | ofList (items : List Json)

namespace Fields

def get? : Fields → Nat → String → Option Json
  | .ofObject members, _, name => Entries.get? members name
  | .ofList items, position, _ => items[position]?

/-- A field that takes a value of its own when nothing stands for it. -/
def withDefault {α : Type} (fields : Fields) (position : Nat) (name : String) (initial : α)
    (read : Json → Option α) : Option α :=
  match fields.get? position name with
  | none => some initial
  | some v => read v

def required {α : Type} (fields : Fields) (position : Nat) (name : String)
    (read : Json → Option α) : Option α :=
  (fields.get? position name).bind read

end Fields

/-- The fields of a structure that has so many of them: those of an object, or a list
    no longer than that. -/
def fields? (size : Nat) : Json → Option Fields
  | .object members => some (.ofObject members)
  | .array items => if items.length ≤ size then some (.ofList items) else none
  | _ => none

/-- The fields of a structure that is never written as a list, because others are
    written into it. -/
def mergedFields? : Json → Option Fields
  | .object members => some (.ofObject members)
  | _ => none

end ModelCatalog.Json
