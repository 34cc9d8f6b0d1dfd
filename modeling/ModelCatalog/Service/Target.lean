/-
  ModelCatalog/Service/Target.lean
  ================================
  **What the target of a request names.**

  A target is a path, and behind a question mark a query; the scheme and the host that
  may stand before them name nothing here.  Escapes in the path are resolved before it
  is compared with the routes, but for those of the percent sign, the slash and the
  plus sign: an escaped slash separates no segments.  What is left escaped is resolved
  when a segment is taken as an identifier.  A query is a row of named values as forms
  send them.
-/
import ModelCatalog.Service.Authority
import ModelCatalog.Text.Percent
import ModelCatalog.Text.Pieces

namespace ModelCatalog

/-! ### Targets -/

/-- The path and the query of a request, still escaped. -/
structure Target where
  path : String
  query : String
deriving DecidableEq, Repr

namespace Target

/-- The characters that may stand in a target beside the letters and digits, and that
    may do so on both sides of the question mark. -/
def isTargetChar (c : Char) : Bool :=
  let n := c.toNat
  n == 0x21 || (0x24 ≤ n && n ≤ 0x3B) || n == 0x3D || (0x40 ≤ n && n ≤ 0x5F) ||
    (0x61 ≤ n && n ≤ 0x7A) || n == 0x7C || n == 0x7E

/-- The characters of a path: those of every target, the double quote and the curly
    brackets. -/
def isPathChar (c : Char) : Bool :=
  isTargetChar c || c == '"' || c == '{' || c == '}'

/-- The characters of a query: those of every target, the question mark, the
    backquote and the curly brackets. -/
def isQueryChar (c : Char) : Bool :=
  isTargetChar c || c == '?' || c.toNat == 0x60 || c == '{' || c == '}'

/-- Reads a path and a query.  A fragment at the end is cut off, and no path is the
    path of the root. -/
def ofPath? (s : String) : Option Target :=
  let (before, _) := Text.cutFirst '#' s
  let (path, query) := Text.cutFirst '?' before
  let query := query.getD ""
  if path.toList.all isPathChar && query.toList.all isQueryChar then
    some ⟨if path.isEmpty then "/" else path, query⟩
  else none

def isSchemeChar (c : Char) : Bool :=
  c.isAlphanum || "+-.~".toList.contains c

/-- The scheme that a text begins with and what stands behind its colon and its two
    slashes, if it begins with a scheme. -/
def cutScheme (cs : List Char) : Option (List Char × List Char) :=
  match cs.dropWhile isSchemeChar with
  | ':' :: '/' :: '/' :: rest => some (cs.takeWhile isSchemeChar, rest)
  | _ => none

def maxScheme : Nat := 64

def maxOctets : Nat := 65534

/-- Reads a target: an absolute path, an asterisk alone, an authority alone, or a
    scheme and an authority with a path behind them.  Of scheme and authority nothing
    is kept, and an authority alone has an empty path. -/
def ofText? (s : String) : Option Target :=
  let cs := s.toList
  if maxOctets < s.utf8ByteSize then none
  else if s = "*" then some ⟨"*", ""⟩
  else if cs.head? = some '/' then ofPath? s
  else
    match cutScheme cs with
    | none => if Authority.isAuthority cs then some ⟨"", ""⟩ else none
    | some (scheme, rest) =>
      let authority := rest.takeWhile (!Authority.isEnd ·)
      if scheme.length ≤ maxScheme && Authority.isAuthority authority then
        ofPath? (String.ofList (rest.dropWhile (!Authority.isEnd ·)))
      else none

/-- The octets that stay escaped while routes are compared. -/
def isKept (b : UInt8) : Bool :=
  b == 0x25 || b == 0x2F || b == 0x2B

/-- The segments of the path, as they are compared with the routes; an absolute path
    begins with an empty one. -/
def segments (t : Target) : List String :=
  Text.pieces '/' (Text.percentDecode isKept t.path)

def identifierOf (segment : String) : String :=
  Text.percentDecode (fun _ => false) segment

end Target

/-! ### Queries -/

/-- Reads one part of a form: plus signs are blanks, and no octet stays escaped. -/
def formText (s : String) : String :=
  Text.percentDecode (fun _ => false)
    (String.ofList (s.toList.map fun c => if c = '+' then ' ' else c))

/-- The named values of a query.  A piece without an equals sign names the empty
    text. -/
def formPairs (query : String) : List (String × String) :=
  ((Text.pieces '&' query).filter fun piece => !piece.isEmpty).map fun piece =>
    let (name, value) := Text.cutFirst '=' piece
    (formText name, formText (value.getD ""))

inductive QueryFault where
  | duplicate (name : String)
deriving DecidableEq, Repr

def QueryFault.message : QueryFault → String
  | .duplicate name => "Query deserialize error: duplicate field `" ++ name ++ "`"

/-- The value of a name in a query, which may give it once at most. -/
def formValue (name query : String) : Except QueryFault (Option String) :=
  match (formPairs query).filter fun pair => pair.1 == name with
  | [] => .ok none
  | [pair] => .ok (some pair.2)
  | _ => .error (.duplicate name)

end ModelCatalog
