/-
  ModelCatalog/Descriptor/Names.lean
  ==================================
  **Closed sets of named alternatives.**

  What kind of model it is, what serves it and what it is doing are each one of a
  few alternatives with fixed names.  `Named` lists the alternatives of such a type
  in their order and gives each its name; `ofName` finds the one of a name, which
  must be spelled exactly, and answers any other text with the names it knows.
-/

namespace ModelCatalog

/-! ### Named alternatives -/

/-- A type whose values are a few named alternatives. -/
class Named (α : Type) where
  all : List α
  name : α → String

/-- A text that names no alternative, and the names that would. -/
structure UnknownName where
  given : String
  expected : List String
deriving DecidableEq, Repr

namespace UnknownName

def message (u : UnknownName) : String :=
  "'" ++ u.given ++ "' is not one of: " ++ ", ".intercalate u.expected

end UnknownName

namespace Named

variable {α : Type} [Named α]

def ofName (s : String) : Except UnknownName α :=
  match (all : List α).find? fun a => name a == s with
  | some a => .ok a
  | none => .error ⟨s, (all : List α).map name⟩

def ofName? (s : String) : Option α :=
  (ofName s).toOption

end Named

/-! ### The alternatives of a model -/

inductive ModelType where
  | textgen | embedding
deriving DecidableEq, Repr, Inhabited

instance : Named ModelType where
  all := [.textgen, .embedding]
  name
    | .textgen => "textgen"
    | .embedding => "embedding"

inductive InferenceContainer where
  | tgi | tei | vllm | instructor
deriving DecidableEq, Repr

instance : Named InferenceContainer where
  all := [.tgi, .tei, .vllm, .instructor]
  name
    | .tgi => "tgi"
    | .tei => "tei"
    | .vllm => "vllm"
    | .instructor => "instructor"

/-- The phase of its life that a deployed model is in.  It is reported, never
    submitted. -/
inductive Status where
  | creating | inService | stopping | stopped | updating | deleting | failed
deriving DecidableEq, Repr

instance : Named Status where
  all := [.creating, .inService, .stopping, .stopped, .updating, .deleting, .failed]
  name
    | .creating => "Creating"
    | .inService => "InService"
    | .stopping => "Stopping"
    | .stopped => "Stopped"
    | .updating => "Updating"
    | .deleting => "Deleting"
    | .failed => "Failed"

/-- Whether a model in this phase is on its way to another. -/
def Status.isTransitional : Status → Bool
  | .creating | .stopping | .updating | .deleting => true
  | .inService | .stopped | .failed => false

end ModelCatalog
