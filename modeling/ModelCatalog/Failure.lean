/-
  ModelCatalog/Failure.lean
  =========================
  **What can go wrong, and how it is answered.**

  Each failure has a message, and the status and the body of the reply that reports
  it.  Violations are reported one by one; of every other failure the reply has the
  message.
-/
import ModelCatalog.Settings.Environment
import ModelCatalog.Violation

namespace ModelCatalog

inductive Failure where
  | invalid (violations : Violations)
  | notFound (id : String)
  | alreadyExists (id : String)
  | environment (cause : EnvironmentFault)
  | badSetting (message : String)
  | inputOutput (message : String)
  | malformedJson
  | metrics (message : String)
deriving DecidableEq, Repr

namespace Failure

def message : Failure → String
  | .invalid violations => "Invalid model configuration: " ++ violations.summary
  | .notFound id => "Model '" ++ id ++ "' not found"
  | .alreadyExists id => "Model '" ++ id ++ "' already exists"
  | .environment cause => "Failed to load environment config: " ++ cause.message
  | .badSetting message => "Invalid config: " ++ message
  | .inputOutput message => "IO Error: " ++ message
  | .malformedJson => "Serde JSON Error:"
  | .metrics message => "Prometheus Error: " ++ message

def status : Failure → Nat
  | .invalid _ => 400
  | .notFound _ => 404
  | .alreadyExists _ => 409
  | _ => 500

def body : Failure → Json
  | .invalid violations => violations.toJson
  | f => .object [("error", .string f.message)]

end Failure

end ModelCatalog
