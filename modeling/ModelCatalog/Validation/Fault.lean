/-
  ModelCatalog/Validation/Fault.lean
  ==================================
  **Everything that a value can be at fault for.**

  A fault is a cause.  Its kind and its reason are what a violation says of it, and
  `counts` says under which policies it is a violation at all: a member without a
  meaning, an identifier that says nothing and bounds out of order are found under
  every policy, but held against the input only under some.
-/
import ModelCatalog.Violation
import ModelCatalog.Validation.Policy

namespace ModelCatalog

inductive Expectation where
  | object | string | boolean | number | stringList | pair | pairList
deriving DecidableEq, Repr

def Expectation.phrase : Expectation → String
  | .object => "an object"
  | .string => "a string"
  | .boolean => "a boolean"
  | .number => "a number"
  | .stringList => "a list of strings"
  | .pair => "a key/value pair"
  | .pairList => "a list of key/value pairs"

/-- The cause of a finding. -/
inductive Fault where
  /-- A status is submitted, which is only ever reported. -/
  | outputOnly
  /-- A member means nothing where it stands. -/
  | unrecognized
  | unidentified
  | blank
  | required
  | empty
  | expected (what : Expectation) (found : Json.Kind)
  | unknownName (u : UnknownName)
  | tooSmall (least : Nat)
  | notWhole
  | tooLarge
  /-- The lower bound of scaling is above the upper one.  The order is `masked` if a
      member without a meaning has a name that makes it look like a bound. -/
  | capacityOrder (maxCapacity : UInt32) (masked : Bool)
deriving DecidableEq, Repr

namespace Fault

def kind : Fault → ViolationKind
  | .unknownName _ => .enumeration
  | .tooSmall _ | .notWhole | .tooLarge | .capacityOrder _ _ => .range
  | _ => .shape

def reason : Fault → String
  | .outputOnly => "is output-only and cannot be submitted"
  | .unrecognized => "is not a recognized field"
  | .unidentified | .required => "is required"
  | .blank => "must not be blank"
  | .empty => "must contain at least 1 character"
  | .expected what found => "expected " ++ what.phrase ++ ", found " ++ found.phrase
  | .unknownName u => u.message
  | .tooSmall least => "must be greater than or equal to " ++ toString least
  | .notWhole => "must be a whole number"
  | .tooLarge => "must be less than or equal to 4294967295"
  | .capacityOrder maxCapacity _ =>
    "must be less than or equal to maxCapacity (" ++ toString maxCapacity.toNat ++ ")"

/-- Whether a policy makes a violation of a fault.  Bounds that look out of order are
    not reported beside a refused member that looks like one of them. -/
def counts (p : Policy) : Fault → Bool
  | .unrecognized => p.unknownFields = .strict
  | .unidentified | .blank => p.identifiers = .strict
  | .capacityOrder _ masked =>
    p.enforceCapacityOrder && !(masked && p.unknownFields = .strict)
  | _ => true

end Fault

end ModelCatalog
