/-
  ModelCatalog/Validation/Location.lean
  =====================================
  **Places in a JSON value.**

  A location leads from the root to a value through the names of members and the
  positions of items.  Its text joins the names with dots and attaches positions in
  brackets, as in `a.b[2].c`; a name that starts with a bracket is attached too.
-/

namespace ModelCatalog

inductive Segment where
  | key (name : String)
  | index (position : Nat)
deriving DecidableEq, Repr

def Segment.text : Segment → String
  | .key name => name
  | .index position => "[" ++ toString position ++ "]"

abbrev Location := List Segment

namespace Location

def append (path : String) (s : Segment) : String :=
  if path.isEmpty || s.text.toList.head? == some '[' then path ++ s.text
  else path ++ "." ++ s.text

def joined (l : Location) : String :=
  l.foldl append ""

/-- The text of a location; that of the root is a dollar sign. -/
def text (l : Location) : String :=
  if l.isEmpty then "$" else joined l

/-- Whether the text of a location ends in another text. -/
def EndsWith (l : Location) (ending : String) : Prop :=
  ending.toList <:+ (joined l).toList

instance (l : Location) (ending : String) : Decidable (l.EndsWith ending) :=
  inferInstanceAs (Decidable (_ <:+ _))

end Location

end ModelCatalog
