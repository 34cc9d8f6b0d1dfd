/-
  ModelCatalog/Service/MediaType.lean
  ===================================
  **Which content types mean JSON.**

  A content type is a type and a subtype, joined by a slash, and parameters behind
  semicolons.  The subtype may end in a plus sign and a suffix.  It means JSON if the
  subtype, up to its suffix, or the suffix is `json`, in capitals or not.  A text that
  is no content type means nothing.
-/

namespace ModelCatalog.MediaType

/-! ### Parameters -/

def isToken (c : Char) : Bool :=
  c.isAlphanum || "!#$%&'*+-.^_`|~".toList.contains c

/-- What the reader of parameters is in the middle of. -/
inductive Scan where
  /-- Before a parameter, where blanks may stand and the text may end. -/
  | before
  | name
  | value
  | bare
  | opened
  | quoted
  | closed
deriving DecidableEq, Repr

/-- Takes one character of the parameters; `none` if none go on like this. -/
def Scan.step (s : Scan) (c : Char) : Option Scan :=
  match s with
  | .before => if c = ' ' then some .before else if isToken c then some .name else none
  | .name => if c = '=' then some .value else if isToken c then some .name else none
  | .value => if c = '"' then some .opened else if isToken c then some .bare else none
  | .bare => if c = ';' then some .before else if isToken c then some .bare else none
  | .opened => if 0x20 ≤ c.toNat ∧ c.toNat < 0x7F then some .quoted else none
  | .quoted =>
    if c = '"' then some .closed
    else if 0x20 ≤ c.toNat ∧ c.toNat < 0x7F then some .quoted
    else none
  | .closed => if c = ';' then some .before else if c = ' ' then some .closed else none

def Scan.mayEnd : Scan → Bool
  | .before | .value | .bare | .closed => true
  | .name | .opened | .quoted => false

/-- Whether a text is a row of parameters. -/
def areParameters (cs : List Char) : Bool :=
  match cs.foldlM Scan.step .before with
  | some s => s.mayEnd
  | none => false

/-! ### Content types -/

/-- The part of a subtype before its last plus sign, and the part behind it; a plus
    sign that begins the subtype is a part of it like any other character. -/
def cutSuffix (subtype : List Char) : List Char × Option (List Char) :=
  let suffix := (subtype.reverse.takeWhile (· != '+')).reverse
  let rest := subtype.take (subtype.length - suffix.length - 1)
  if suffix.length < subtype.length ∧ rest ≠ [] then (rest, some suffix) else (subtype, none)

def isJsonSubtype (subtype : List Char) : Bool :=
  let parts := cutSuffix (subtype.map Char.toLower)
  parts.1 == "json".toList || parts.2 == some "json".toList

def isJson (contentType : String) : Bool :=
  let cs := contentType.toList
  let type := cs.takeWhile (· != '/')
  let rest := (cs.dropWhile (· != '/')).drop 1
  let subtype := rest.takeWhile (· != ';')
  let parameters := (rest.dropWhile (· != ';')).drop 1
  !type.isEmpty && type.all isToken && !subtype.isEmpty && subtype.all isToken &&
    areParameters parameters && isJsonSubtype subtype

end ModelCatalog.MediaType
