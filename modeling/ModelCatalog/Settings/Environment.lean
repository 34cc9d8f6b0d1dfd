/-
  ModelCatalog/Settings/Environment.lean
  ======================================
  **Settings from environment variables.**

  Five settings are read from variables of their names, in capitals or not.  The
  variables are taken in order and the first one that will not do is the answer: a
  second variable for one setting, a number that does not fit, or a truth value that
  is neither of the two words.  Other variables are passed over.
-/
import ModelCatalog.Descriptor.Names
import ModelCatalog.Number.Word

namespace ModelCatalog

/-! ### Variables -/

/-- The variables that a row of assignments leaves: one that is assigned again keeps
    its place and takes the new value. -/
def Variables.ofAssignments (assignments : List (String × String)) : List (String × String) :=
  assignments.foldl (fun done a =>
    if done.any (fun v => v.1 == a.1) then
      done.map fun v => if v.1 == a.1 then a else v
    else done ++ [a]) []

/-! ### Faults -/

inductive EnvironmentFault where
  /-- A second variable is for a setting that already has one. -/
  | duplicate (setting : String)
  | word (cause : WordFault) (name value : String)
  | flag (name value : String)
deriving DecidableEq, Repr

/-- A cause, with the value that it concerns and the variable that has it. -/
def causeWithin (cause name value : String) : String :=
  cause ++ " while parsing value '" ++ value ++ "' provided by " ++ name

def EnvironmentFault.message : EnvironmentFault → String
  | .duplicate setting => "duplicate field `" ++ setting ++ "`"
  | .word cause name value => causeWithin cause.message name value
  | .flag name value =>
    causeWithin "provided string was not `true` or `false`" name value

def readFlag? (s : String) : Option Bool :=
  if s = "true" then some true else if s = "false" then some false else none

/-! ### Settings -/

inductive Setting where
  | serverHost | serverPort | unknownFields | strictIdentifiers | enforceCapacityOrder
deriving DecidableEq, Repr

instance : Named Setting where
  all := [.serverHost, .serverPort, .unknownFields, .strictIdentifiers, .enforceCapacityOrder]
  name
    | .serverHost => "server_host"
    | .serverPort => "server_port"
    | .unknownFields => "unknown_fields"
    | .strictIdentifiers => "strict_identifiers"
    | .enforceCapacityOrder => "enforce_capacity_order"

/-- The small form of a character, as far as it is an ASCII letter: those are the
    small forms of the ASCII capitals and of the Kelvin sign. -/
def smallLetter (c : Char) : Char :=
  if c = '\u212A' then 'k' else c.toLower

def Setting.ofVariable? (name : String) : Option Setting :=
  Named.ofName? (String.ofList (name.toList.map smallLetter))

structure Environment where
  serverHost : Option String := none
  serverPort : Option UInt16 := none
  unknownFields : Option String := none
  strictIdentifiers : Option Bool := none
  enforceCapacityOrder : Option Bool := none
deriving DecidableEq, Repr

namespace Environment

def has (e : Environment) : Setting → Bool
  | .serverHost => e.serverHost.isSome
  | .serverPort => e.serverPort.isSome
  | .unknownFields => e.unknownFields.isSome
  | .strictIdentifiers => e.strictIdentifiers.isSome
  | .enforceCapacityOrder => e.enforceCapacityOrder.isSome

/-- The truth value of a variable, or the fault that it has none. -/
def flagOf (name value : String) : Except EnvironmentFault Bool :=
  match readFlag? value with
  | some b => .ok b
  | none => .error (.flag name value)

def give (e : Environment) (setting : Setting) (name value : String) :
    Except EnvironmentFault Environment :=
  match setting with
  | .serverHost => .ok { e with serverHost := some value }
  | .serverPort =>
    match readWord value with
    | .ok number => .ok { e with serverPort := some number }
    | .error cause => .error (.word cause name value)
  | .unknownFields => .ok { e with unknownFields := some value }
  | .strictIdentifiers =>
    (flagOf name value).map fun b => { e with strictIdentifiers := some b }
  | .enforceCapacityOrder =>
    (flagOf name value).map fun b => { e with enforceCapacityOrder := some b }

def take (e : Environment) (v : String × String) :
    Except EnvironmentFault Environment :=
  match Setting.ofVariable? v.1 with
  | none => .ok e
  | some setting =>
    if e.has setting then .error (.duplicate (Named.name setting))
    else e.give setting v.1 v.2

def ofVariables (row : List (String × String)) : Except EnvironmentFault Environment :=
  row.foldlM take {}

end Environment

end ModelCatalog
