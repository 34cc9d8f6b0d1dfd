/-
  ModelCatalog/Text/Blank.lean
  ============================
  **White space at the ends of a text.**

  A character is blank when Unicode gives it the property White_Space.  Trimming
  takes the blank characters off both ends of a text and leaves those inside it;
  a text made of blank characters alone trims to nothing.
-/

namespace ModelCatalog.Text

/-! ### Blank characters -/

/-- The 25 code points with the Unicode property White_Space.  The zero width
    space and the byte order mark are not among them. -/
def isBlank (c : Char) : Bool :=
  let n := c.toNat
  (9 ≤ n && n ≤ 13) || n == 0x20 || n == 0x85 || n == 0xA0 || n == 0x1680 ||
    (0x2000 ≤ n && n ≤ 0x200A) || n == 0x2028 || n == 0x2029 || n == 0x202F ||
    n == 0x205F || n == 0x3000

/-- A text with no character that is not blank; the empty text is one. -/
def isAllBlank (s : String) : Bool :=
  s.toList.all isBlank

/-! ### Trimming -/

/-- The characters that are left once the blank ones at both ends are gone. -/
def trimChars (cs : List Char) : List Char :=
  ((cs.dropWhile isBlank).reverse.dropWhile isBlank).reverse

def trim (s : String) : String :=
  String.ofList (trimChars s.toList)

/-- A text with its ASCII capitals made small and every other character kept. -/
def lowerAscii (s : String) : String :=
  String.ofList (s.toList.map Char.toLower)

end ModelCatalog.Text
