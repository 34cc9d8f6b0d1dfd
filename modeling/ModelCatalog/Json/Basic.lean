/-
  ModelCatalog/Json/Basic.lean
  ============================
  **JSON values.**

  A number is an integer when it is written as one and fits the 64-bit range, and
  a double otherwise; so 5 and 5.0 are two values, though they denote one number.
  An object holds its members as entries in ascending order of their names, each
  name once: `WellFormed` says so at every depth, and whatever the library reads
  or writes is well formed.
-/
import ModelCatalog.Entries
import ModelCatalog.Number.Double

namespace ModelCatalog

/-! ### Numbers -/

inductive Number where
  | integer (n : Int)
  | double (d : Double)
deriving DecidableEq, Repr

namespace Number

/-- Whether an integer is one that a number can hold as such: from the least signed
    to the greatest unsigned integer of 64 bits. -/
def Fits (n : Int) : Prop := -9223372036854775808 ≤ n ∧ n ≤ 18446744073709551615

instance (n : Int) : Decidable (Fits n) := inferInstanceAs (Decidable (_ ∧ _))

def toDouble : Number → Double
  | .integer n => Double.ofInt n
  | .double d => d

/-- An integer in range, or a finite double. -/
def WellFormed : Number → Prop
  | .integer n => Fits n
  | .double d => d.isFinite

end Number

/-! ### Values -/

inductive Json where
  | null
  | bool (b : Bool)
  | number (n : Number)
  | string (s : String)
  | array (items : List Json)
  | object (members : List (String × Json))
deriving Repr

namespace Json

abbrev Members := Entries Json

instance : Inhabited Json := ⟨.null⟩

inductive Kind where
  | null | boolean | number | string | list | object
deriving DecidableEq, Repr

def kind : Json → Kind
  | .null => .null
  | .bool _ => .boolean
  | .number _ => .number
  | .string _ => .string
  | .array _ => .list
  | .object _ => .object

def Kind.phrase : Kind → String
  | .null => "null"
  | .boolean => "a boolean"
  | .number => "a number"
  | .string => "a string"
  | .list => "a list"
  | .object => "an object"

def ofNat (n : Nat) : Json := .number (.integer n)

/-- A double as JSON has it: no JSON number is infinite or undefined, and a double
    that is becomes null. -/
def ofDouble (d : Double) : Json :=
  if d.isFinite then .number (.double d) else .null

def ofStrings (ss : List String) : Json := .array (ss.map .string)

/-- An object of members given in any order; of two with one name the later
    stays. -/
def ofMembers (members : List (String × Json)) : Json :=
  .object (members.foldl (fun (done : Members) m => Entries.insert m.1 m.2 done) [])

/-! ### Well-formed values -/

mutual

/-- At every depth the names of members ascend, integers are in range and doubles
    are finite. -/
def WellFormed : Json → Prop
  | .number n => n.WellFormed
  | .array items => AllWellFormed items
  | .object members => Entries.Ascending members ∧ MembersWellFormed members
  | _ => True

def AllWellFormed : List Json → Prop
  | [] => True
  | item :: rest => item.WellFormed ∧ AllWellFormed rest

def MembersWellFormed : List (String × Json) → Prop
  | [] => True
  | (_, value) :: rest => value.WellFormed ∧ MembersWellFormed rest

end

end Json

end ModelCatalog
