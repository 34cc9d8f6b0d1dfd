/-
  ModelCatalog/Number/Decimal.lean
  ================================
  **Decimal numerals, and the doubles they denote.**

  A numeral is read into its parts by `Numeral.scan?`, which knows no sign and is
  shared by the two grammars of the library: that of JSON numbers, which is strict
  about empty and about leading digits, and that of numbers given as text, which
  takes `5.`, `.5` and a plus sign, and the names of infinity.  A decimal
  `c * 10 ^ e` denotes the double nearest to it.
-/
import ModelCatalog.Number.Double

namespace ModelCatalog

/-! ### Decimals -/

/-- A number written in base ten: `coefficient * 10 ^ exponent` and a sign. -/
structure Decimal where
  negative : Bool
  coefficient : Nat
  exponent : Int
deriving DecidableEq, Repr

namespace Decimal

/-- The double nearest to a decimal.

    A coefficient other than zero makes at least `10 ^ e`, which above `10 ^ 400` is
    infinite; and with a negative exponent the value is under `2 ^ (l + 1 - 3 * e)`
    for a coefficient of `l + 1` bits, which below `2 ^ -1080` is zero.  Both are
    answered from the exponent alone, so that no power grows beyond the numeral. -/
def toDouble (d : Decimal) : Double :=
  if d.coefficient = 0 then Double.signedZero d.negative
  else
    match d.exponent with
    | .ofNat e =>
      if 400 < e then Double.infinity d.negative
      else Double.ofRatio d.negative (d.coefficient * Nat.pow 10 e) 1
    | .negSucc e =>
      if Nat.log2 d.coefficient + 1081 < 3 * (e + 1) then Double.signedZero d.negative
      else Double.ofRatio d.negative d.coefficient (Nat.pow 10 (e + 1))

end Decimal

/-! ### Digits -/

/-- The digits of a natural number. -/
def digits (n : Nat) : List Char := Nat.toDigits 10 n

def digitValue (c : Char) : Nat := c.toNat - '0'.toNat

/-- The number that a row of digits spells; no digits spell zero. -/
def ofDigits (cs : List Char) : Nat :=
  cs.foldl (fun n c => 10 * n + digitValue c) 0

/-! ### Numerals -/

/-- An unsigned numeral in its parts: the digits before the point, those after it
    if there is a point, and the exponent if there is one. -/
structure Numeral where
  whole : List Char
  fraction : Option (List Char)
  exponent : Option Int
deriving DecidableEq, Repr

namespace Numeral

/-- Reads a point and the digits behind it, if a point comes next. -/
def scanFraction : List Char → Option (List Char) × List Char
  | '.' :: cs => (some (cs.takeWhile Char.isDigit), cs.dropWhile Char.isDigit)
  | cs => (none, cs)

/-- Reads the digits of an exponent up to the end of the text: one at least. -/
def scanExponentDigits (negative : Bool) (cs : List Char) : Option Int :=
  if cs.isEmpty || !cs.all Char.isDigit then none
  else some (if negative then -(ofDigits cs : Int) else ofDigits cs)

/-- Reads an exponent, sign and all, up to the end of the text. -/
def scanExponent : List Char → Option Int
  | '-' :: cs => scanExponentDigits true cs
  | '+' :: cs => scanExponentDigits false cs
  | cs => scanExponentDigits false cs

/-- Reads an unsigned numeral that takes up the whole text.  Digits may be missing
    on either side of the point, or on both. -/
def scan? (cs : List Char) : Option Numeral :=
  let whole := cs.takeWhile Char.isDigit
  let (fraction, rest) := scanFraction (cs.dropWhile Char.isDigit)
  match rest with
  | [] => some ⟨whole, fraction, none⟩
  | c :: rest =>
    if c = 'e' ∨ c = 'E' then (scanExponent rest).map fun e => ⟨whole, fraction, some e⟩
    else none

/-- The decimal that a numeral spells. -/
def toDecimal (n : Numeral) (negative : Bool) : Decimal :=
  let fraction := n.fraction.getD []
  ⟨negative, ofDigits (n.whole ++ fraction), n.exponent.getD 0 - fraction.length⟩

def fractionText : Option (List Char) → List Char
  | some cs => '.' :: cs
  | none => []

/-- An exponent as a text, without a plus sign. -/
def exponentText : Option Int → List Char
  | some e => 'e' :: (toString e).toList
  | none => []

def text (n : Numeral) : List Char :=
  n.whole ++ (fractionText n.fraction ++ exponentText n.exponent)

end Numeral

/-! ### Numbers given as text -/

/-- Reads an unsigned number: a numeral with a digit somewhere around its point,
    or a name of infinity or of what is no number, in capitals or not. -/
def unsignedOfText? (negative : Bool) (cs : List Char) : Option Double :=
  let name := cs.map Char.toLower
  if name = "inf".toList ∨ name = "infinity".toList then some (Double.infinity negative)
  else if name = "nan".toList then
    some ⟨negative, Double.infiniteMagnitude + Double.binade / 2, by decide⟩
  else
    match Numeral.scan? cs with
    | none => none
    | some n =>
      if n.whole.isEmpty && (n.fraction.getD []).isEmpty then none
      else some (n.toDecimal negative).toDouble

/-- The double that a text denotes, if it is a number: an optional sign and then
    an unsigned number, with nothing around them. -/
def Double.ofText? (s : String) : Option Double :=
  match s.toList with
  | '-' :: cs => unsignedOfText? true cs
  | '+' :: cs => unsignedOfText? false cs
  | cs => unsignedOfText? false cs

end ModelCatalog
