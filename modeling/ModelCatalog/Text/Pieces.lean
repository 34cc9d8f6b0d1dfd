/-
  ModelCatalog/Text/Pieces.lean
  =============================
  **Cutting a text at a separator.**

  The pieces are what stands between the separators: always one more than there are
  separators, and empty where two of them meet or one ends the text.
-/

namespace ModelCatalog.Text

def consFirst (c : Char) : List (List Char) → List (List Char)
  | [] => [[c]]
  | piece :: pieces => (c :: piece) :: pieces

def piecesOf (separator : Char) : List Char → List (List Char)
  | [] => [[]]
  | c :: cs =>
    if c = separator then [] :: piecesOf separator cs
    else consFirst c (piecesOf separator cs)

def pieces (separator : Char) (s : String) : List String :=
  (piecesOf separator s.toList).map String.ofList

/-- The text before the first separator and the text behind it, which is `none` if
    there is no separator. -/
def cutFirst (separator : Char) (s : String) : String × Option String :=
  let rest := s.toList.dropWhile (· != separator)
  (String.ofList (s.toList.takeWhile (· != separator)),
    rest.tail?.map String.ofList)

end ModelCatalog.Text
