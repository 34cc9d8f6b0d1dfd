/-
  ModelCatalog/Json/NumberText.lean
  =================================
  **Numbers in a JSON text.**

  Reading and writing are not each other's inverse.  A double is written as the
  shortest decimal that denotes it.  But it is read in steps, each of which rounds: the
  digits become a significand of 64 bits, those that do not fit are dropped, the
  significand becomes a double, and this is multiplied or divided by a power of ten.  With
  few digits and a small exponent only the last step rounds, and the double read is the
  one that the decimal denotes; but 0.9999999999999999 is read as one.

  Numbers follow the strict grammar of JSON: no plus sign, no leading zero before another
  digit, and a digit on both sides of a point.
-/
import ModelCatalog.Json.Basic
import ModelCatalog.Number.Decimal

namespace ModelCatalog

/-! ### Reading -/

/-- The greatest significand that is kept: 2 ^ 64 - 1. -/
def maxSignificand : Nat := 18446744073709551615

/-- Takes digits behind a significand as long as it may grow; the significand, and the
    digits that are left over. -/
def takeDigits (significand : Nat) : List Char → Nat × List Char
  | [] => (significand, [])
  | c :: cs =>
    let next := 10 * significand + digitValue c
    if next ≤ maxSignificand then takeDigits next cs else (significand, c :: cs)

/-- What is kept of a numeral.  Of the digits left over those before the point still count
    for the exponent, those behind it do not count.  (The original keeps the exponent in 32
    bits; no text of less than two gigabytes tells the difference.) -/
def Numeral.kept (n : Numeral) (negative : Bool) : Decimal :=
  let fraction := n.fraction.getD []
  let (significand, left) := takeDigits 0 n.whole
  let (significand, dropped) := takeDigits significand fraction
  let places : Int := fraction.length - dropped.length
  ⟨negative, significand, left.length - places + n.exponent.getD 0⟩

/-- The greatest power of ten that is a factor in one step. -/
def maxPower : Nat := 308

def Double.powerOfTen (k : Nat) : Double := ofRatio false (Nat.pow 10 k) 1

/-- Divides so many times by the greatest power of ten, and then by another one; zero is
    left as it is. -/
def Double.divPowers (last : Nat) : Nat → Double → Double
  | 0, x => x.div (powerOfTen last)
  | times + 1, x =>
    if x.magnitude = 0 then x else divPowers last times (x.div (powerOfTen maxPower))

/-- The double that a decimal is read as, step by step; none if it is infinite. -/
def Decimal.approximate? (d : Decimal) : Option Double :=
  let x := Double.ofNat d.coefficient
  let size : Option Double :=
    match d.exponent with
    | .ofNat e =>
      if e ≤ maxPower then some (x.mul (Double.powerOfTen e))
      else if x.magnitude = 0 then some x
      else none
    | .negSucc e => some (x.divPowers (e % maxPower + 1) (e / maxPower))
  (size.filter Double.isFinite).map fun y => { y with negative := d.negative }

namespace Number

/-- The number that a sign and an unsigned numeral are read as, if the numeral is one of
    JSON's.  Without point and exponent it is an integer, unless it is minus zero or
    out of range; every other numeral is read as a double. -/
def ofNumeral? (negative : Bool) (n : Numeral) : Option Number :=
  let leadingZero := n.whole.head? == some '0' && 1 < n.whole.length
  if n.whole.isEmpty || leadingZero || n.fraction == some [] then none
  else
    let size : Int := ofDigits n.whole
    let integer := if negative then -size else size
    let isInteger := n.fraction.isNone && n.exponent.isNone && !(negative && size == 0)
    if isInteger && decide (Fits integer) then some (.integer integer)
    else (n.kept negative).approximate?.map .double

def ofWord? : List Char → Option Number
  | '-' :: cs => (Numeral.scan? cs).bind (ofNumeral? true)
  | cs => (Numeral.scan? cs).bind (ofNumeral? false)

end Number

/-! ### Writing -/

/-- How often two divides a number, counted no further than `limit`. -/
def factorsOfTwo : Nat → Nat → Nat
  | 0, _ => 0
  | limit + 1, n => if n % 2 = 0 then factorsOfTwo limit (n / 2) + 1 else 0

namespace Double

/-- A finite double in full: `m * 2 ^ -k` is `m * 5 ^ k` with `k` decimal places, once
    the factors of two that `m` and `2 ^ k` share are gone. -/
def toDecimal (d : Double) : Decimal :=
  let shared := factorsOfTwo 1074 d.scaled
  let places := 1074 - shared
  ⟨d.negative, d.scaled / Nat.pow 2 shared * Nat.pow 5 places, -places⟩

/-- The two multiples of a unit around a number, counted in units: the nearer one comes
    first, and of two as near the even one. -/
def neighbours (n unit : Nat) : List Nat :=
  let below := n / unit
  if roundQuotient n unit = below then [below, below + 1] else [below + 1, below]

/-- A decimal that denotes the double, with as many of the last digits dropped as can be,
    but no more than so many. -/
def shorten (d : Double) : Nat → Decimal
  | 0 => d.toDecimal
  | dropped + 1 =>
    let full := d.toDecimal
    let shorter (c : Nat) : Decimal := ⟨d.negative, c, full.exponent + (dropped + 1 : Nat)⟩
    match (neighbours full.coefficient (Nat.pow 10 (dropped + 1))).find? fun c =>
        (shorter c).toDouble = d with
    | some c => shorter c
    | none => shorten d dropped

/-- The shortest decimal that denotes a finite double. -/
def shortest (d : Double) : Decimal :=
  if d.magnitude = 0 then d.toDecimal else d.shorten (digits d.toDecimal.coefficient).length

end Double

/-- Lays out `c * 10 ^ e`: with a point inside, before or behind the digits if the number
    is neither large nor small, and else with one digit before the point and an exponent. -/
def Numeral.layout (c : Nat) (e : Int) : Numeral :=
  let ds := digits c
  let point : Int := ds.length + e
  if 0 ≤ e ∧ point ≤ 16 then ⟨ds ++ List.replicate e.toNat '0', some ['0'], none⟩
  else if 0 < point ∧ point ≤ 16 then ⟨ds.take point.toNat, some (ds.drop point.toNat), none⟩
  else if -5 < point ∧ point ≤ 0 then
    ⟨['0'], some (List.replicate (-point).toNat '0' ++ ds), none⟩
  else if ds.length = 1 then ⟨ds, none, some (point - 1)⟩
  else ⟨ds.take 1, some (ds.drop 1), some (point - 1)⟩

/-- The numeral that a finite double is written as, without its sign. -/
def Double.numeral (d : Double) : Numeral :=
  Numeral.layout d.shortest.coefficient d.shortest.exponent

/-- The text of a finite double. -/
def Double.render (d : Double) : String :=
  (if d.negative then "-" else "") ++ String.ofList d.numeral.text

end ModelCatalog
