/-
  ModelCatalog/Settings/Configuration.lean
  ========================================
  **The settings of the service.**

  What the environment leaves open has a value of its own, written beside the field.
  The policy on unknown members is given by name, and any other name is refused.
-/
import ModelCatalog.Failure
import ModelCatalog.Validation.Policy

namespace ModelCatalog

structure Configuration where
  serverHost : String := "0.0.0.0"
  serverPort : UInt16 := 8888
  policy : Policy := {}
deriving DecidableEq, Repr

/-- Refuses a name that is none of a policy on unknown members. -/
def Failure.unknownPolicy (given : String) : Failure :=
  .badSetting
    ("unknown field policy '" ++ given ++ "', expected 'permissive' or 'strict'")

def UnknownFieldPolicy.ofSetting (given : String) : Except Failure UnknownFieldPolicy :=
  match UnknownFieldPolicy.ofSetting? given with
  | some policy => .ok policy
  | none => .error (.unknownPolicy given)

namespace Configuration

/-- The configuration that the settings of an environment make. -/
def ofEnvironment (e : Environment) : Except Failure Configuration := do
  let d : Configuration := {}
  let unknownFields ← UnknownFieldPolicy.ofSetting (e.unknownFields.getD "permissive")
  let identifiers : IdentifierPolicy :=
    if e.strictIdentifiers.getD false then .strict else .lenient
  return {
    serverHost := e.serverHost.getD d.serverHost
    serverPort := e.serverPort.getD d.serverPort
    policy := {
      unknownFields, identifiers
      enforceCapacityOrder := e.enforceCapacityOrder.getD d.policy.enforceCapacityOrder } }

def ofVariables (row : List (String × String)) : Except Failure Configuration := do
  let e ← (Environment.ofVariables row).mapError Failure.environment
  ofEnvironment e

def bindAddress (c : Configuration) : String :=
  c.serverHost ++ ":" ++ toString c.serverPort.toNat

end Configuration

end ModelCatalog
