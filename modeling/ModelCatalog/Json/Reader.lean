/-
  ModelCatalog/Json/Reader.lean
  =============================
  **Reading a JSON text.**

  `read?` builds the value from the tokens of the text, one at a time, with the
  containers that are still open in a list of frames.  At most `maxDepth` of them may
  be open at once.  Of two members with one name the later stays.
-/
import ModelCatalog.Json.Token

namespace ModelCatalog.Json

/-! ### Open containers -/

/-- An open container that waits for a value: an array with its items so far, last
    one first, or an object with its members so far and the name of the next. -/
inductive Frame where
  | items (done : List Json)
  | member (done : List (String × Json)) (name : String)

/-- What the reader expects next.  `frames` are the open containers, innermost
    first; a container that has not yet got an item or a name is not among them. -/
inductive Builder where
  | value (frames : List Frame)
  /-- The first item of an array, or its end. -/
  | item (frames : List Frame)
  /-- The name of a member, or the end of the object if `first`. -/
  | name (frames : List Frame) (done : List (String × Json)) (first : Bool)
  | colon (frames : List Frame) (done : List (String × Json)) (name : String)
  /-- Whatever may follow a value that is now complete. -/
  | after (frames : List Frame) (value : Json)

def maxDepth : Nat := 127

namespace Builder

def start (frames : List Frame) : Token → Option Builder
  | .null => some (.after frames .null)
  | .bool b => some (.after frames (.bool b))
  | .number n => some (.after frames (.number n))
  | .string s => some (.after frames (.string s))
  | .openArray => if frames.length < maxDepth then some (.item frames) else none
  | .openObject => if frames.length < maxDepth then some (.name frames [] true) else none
  | _ => none

/-- Takes one token; `none` if no JSON text goes on like this. -/
def step (b : Builder) (t : Token) : Option Builder :=
  match b, t with
  | .value frames, t => start frames t
  | .item frames, .closeArray => some (.after frames (.array []))
  | .item frames, t => start (.items [] :: frames) t
  | .name frames done _, .string s => some (.colon frames done s)
  | .name frames done true, .closeObject => some (.after frames (.object done))
  | .colon frames done key, .colon => some (.value (.member done key :: frames))
  | .after (.items done :: frames) v, .comma => some (.value (.items (v :: done) :: frames))
  | .after (.items done :: frames) v, .closeArray =>
    some (.after frames (.array (v :: done).reverse))
  | .after (.member done key :: frames) v, .comma =>
    some (.name frames (Entries.insert key v done) false)
  | .after (.member done key :: frames) v, .closeObject =>
    some (.after frames (.object (Entries.insert key v done)))
  | _, _ => none

def finish : Builder → Option Json
  | .after [] v => some v
  | _ => none

end Builder

/-- The value that a list of tokens spells, if it spells exactly one. -/
def ofTokens? (tokens : List Token) : Option Json :=
  (tokens.foldlM Builder.step (.value [])).bind Builder.finish

def read? (text : String) : Option Json :=
  (tokens? text).bind ofTokens?

end ModelCatalog.Json
