/-
  ModelCatalog/Number/Word.lean
  =============================
  **Numbers of 16 bits, read from text.**

  The text is a row of digits, with a plus sign before them or not.  It is read from
  the front, and the first thing amiss decides what is answered: a character that is
  no digit, or a digit that makes the number too large.
-/

namespace ModelCatalog

inductive WordFault where
  | empty | invalidDigit | tooLarge
deriving DecidableEq, Repr

def WordFault.message : WordFault → String
  | .empty => "cannot parse integer from empty string"
  | .invalidDigit => "invalid digit found in string"
  | .tooLarge => "number too large to fit in target type"

/-- Reads digits, given the number that those before them spell. -/
def wordFrom (n : Nat) : List Char → Except WordFault Nat
  | [] => .ok n
  | c :: cs =>
    if !c.isDigit then .error .invalidDigit
    else
      let n := 10 * n + (c.toNat - '0'.toNat)
      if n < UInt16.size then wordFrom n cs else .error .tooLarge

/-- The digits of a text: a plus sign before them is left out, unless it is all there
    is. -/
def withoutPlus : List Char → List Char
  | '+' :: c :: cs => c :: cs
  | cs => cs

/-- Reads a number of 16 bits. -/
def readWord (s : String) : Except WordFault UInt16 :=
  if s.isEmpty then .error .empty else (wordFrom 0 (withoutPlus s.toList)).map .ofNat

end ModelCatalog
