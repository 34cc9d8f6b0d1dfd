/-
  ModelCatalog/Validation/Leaf.lean
  =================================
  **Reading the leaves of a descriptor.**

  A leaf reader takes what is given for a field, or nothing; a null is nothing.  It
  answers with the value of the field, or with `initial`, which the field takes when
  nothing is given, and says what is wrong with what is given instead.
-/
import ModelCatalog.Number.Decimal
import ModelCatalog.Validation.Survey

namespace ModelCatalog.Validation

/-! ### Members -/

/-- What an object gives for a name: null gives nothing. -/
def given (members : Json.Members) (name : String) : Option Json :=
  match members.get? name with
  | some .null => none
  | other => other

/-- Surveys the field of a name with the reader of its values. -/
def field {α : Type} (members : Json.Members) (name : String)
    (read : Option Json → Survey α) : Survey α :=
  (read (given members name)).under (.key name)

/-! ### Texts and flags -/

def text (initial : String) : Option Json → Survey String
  | none => pure initial
  | some (.string s) => pure s
  | some v => .flawed initial (.expected .string v.kind)

/-- The identifier or the name of a model: a text that is not empty. -/
def identifier (initial : String) : Option Json → Survey String
  | none => .flawed initial .unidentified
  | some (.string s) =>
    if s.isEmpty then .flawed s .empty
    else if Text.isAllBlank s then .flawed s .blank
    else pure s
  | some v => .flawed initial (.expected .string v.kind)

def requiredText : Option Json → Survey (Option String)
  | none => .flawed none .required
  | some (.string s) => pure (some s)
  | some v => .flawed none (.expected .string v.kind)

def flag (initial : Bool) : Option Json → Survey Bool
  | none => pure initial
  | some (.bool b) => pure b
  | some v => .flawed initial (.expected .boolean v.kind)

def named {α : Type} [Named α] : Option Json → Survey (Option α)
  | none => pure none
  | some (.string s) =>
    match Named.ofName s with
    | .ok a => pure (some a)
    | .error u => .flawed none (.unknownName u)
  | some v => .flawed none (.expected .string v.kind)

def textItems (position : Nat) : List Json → Survey (List String)
  | [] => pure []
  | .string s :: rest => do
    let ss ← textItems (position + 1) rest
    return s :: ss
  | v :: rest => do
    (Survey.flaw (.expected .string v.kind)).under (.index position)
    textItems (position + 1) rest

def texts (initial : List String) : Option Json → Survey (List String)
  | none => pure initial
  | some (.array items) => textItems 0 items
  | some v => .flawed initial (.expected .stringList v.kind)

/-! ### Numbers -/

/-- The finite double that a value denotes: a number does, and so does a text that
    spells one, blank characters around it left out. -/
def double? (v : Json) : Option Double :=
  let read : Option Double :=
    match v with
    | .number n => some n.toDouble
    | .string s => Double.ofText? (Text.trim s)
    | _ => none
  read.filter Double.isFinite

def number (initial : Double) (least : Nat) : Option Json → Survey Double
  | none => pure initial
  | some v =>
    match double? v with
    | none => .flawed initial (.expected .number v.kind)
    | some x => if x.lt (.ofNat least) then .flawed initial (.tooSmall least) else pure x

/-- A whole number that is at least `least` and takes no more than 32 bits. -/
def count (initial : UInt32) (least : Nat) : Option Json → Survey UInt32
  | none => pure initial
  | some v =>
    match double? v with
    | none => .flawed initial (.expected .number v.kind)
    | some x =>
      if x.lt (.ofNat least) then .flawed initial (.tooSmall least)
      else
        match x.natural? with
        | none => .flawed initial .notWhole
        | some n => if n < UInt32.size then pure (.ofNat n) else .flawed initial .tooLarge

end ModelCatalog.Validation
