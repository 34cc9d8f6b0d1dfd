/-
  ModelCatalog/Service/Message.lean
  =================================
  **Requests and replies.**

  A request names what it is about by method and target, and may carry a body.  A
  body is octets, and the request may say beforehand how many they are.  It is read as
  JSON only if its content type means JSON, if it is not larger than two mebibytes, and if
  its octets spell a text.
-/
import ModelCatalog.Failure
import ModelCatalog.Json.Reader
import ModelCatalog.Service.MediaType
import ModelCatalog.Service.Target

namespace ModelCatalog

/-! ### Requests and replies -/

/-- What a request carries: octets, and how many they are said to be. -/
structure Body where
  octets : List UInt8
  announced : Option Nat := none
deriving DecidableEq, Repr

/-- A text, with nothing said of its length. -/
def Body.ofText (s : String) : Body := { octets := Text.octets s }

instance : Coe String Body := ⟨Body.ofText⟩

structure Call where
  method : String
  target : Target
  contentType : Option String := none
  body : Body := ""
deriving DecidableEq, Repr

inductive Content where
  | json (v : Json)
  | text (s : String)

structure Reply where
  status : Nat
  content : Content

def Reply.empty (status : Nat) : Reply := ⟨status, .text ""⟩

def Reply.json (status : Nat) (v : Json) : Reply := ⟨status, .json v⟩

def Failure.reply (f : Failure) : Reply := .json f.status f.body

/-! ### Bodies -/

/-- How many octets a body may have: two mebibytes. -/
def Body.limit : Nat := 2097152

/-- Why a body is not read.  One that is announced to be too large is refused before any
    of it is read. -/
inductive BodyFault where
  | contentType
  | announced (length : Nat)
  | overflow
  | malformed
deriving DecidableEq, Repr

namespace BodyFault

def message : BodyFault → String
  | .contentType => "invalid JSON body: Content type error"
  | .announced length =>
    "invalid JSON body: JSON payload (" ++ toString length ++
      " bytes) is larger than allowed (limit: " ++ toString Body.limit ++ " bytes)."
  | .overflow =>
    "invalid JSON body: JSON payload has exceeded limit (" ++ toString Body.limit ++ " bytes)."
  | .malformed => "invalid JSON body: Json deserialize error:"

def violation (f : BodyFault) : Violation := ⟨rootPath, .shape, f.message⟩

end BodyFault

namespace Body

/-- The text that the octets spell, if they spell one. -/
def text? (b : Body) : Option String :=
  let s := Text.ofOctets b.octets
  if Text.octets s = b.octets then some s else none

def json (b : Body) : Except BodyFault Json :=
  match b.announced.filter (limit < ·) with
  | some length => .error (.announced length)
  | none =>
    if limit < b.octets.length then .error .overflow
    else
      match b.text?.bind Json.read? with
      | some v => .ok v
      | none => .error .malformed

end Body

def Call.json (c : Call) : Except BodyFault Json :=
  if (c.contentType.map MediaType.isJson).getD false then c.body.json
  else .error .contentType

end ModelCatalog
