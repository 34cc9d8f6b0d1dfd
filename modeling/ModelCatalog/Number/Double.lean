/-
  ModelCatalog/Number/Double.lean
  ===============================
  **Double-precision numbers as their binary64 encoding.**

  A double is a sign and a magnitude of 63 bits.  Below `infiniteMagnitude` the
  magnitude is a finite number, there it is infinity, and above it no number at
  all.  Two facts make this form easy to compute and to reason with: magnitudes
  are ordered as the numbers they encode, and every finite double is a whole
  multiple of 2 ^ -1074, the least positive one.  `scaled` is that multiple.

  `ofRatio` rounds a quotient of natural numbers to the nearest double, a tie to
  the one whose last bit is zero.  The quotient, counted in units of 2 ^ -1074, is
  cut to 53 significant bits by dropping `p` of them, and then
  `p * 2 ^ 52 + m` is the encoding of the significand `m` in units of `2 ^ p`:
  a significand that rounds up to 2 ^ 53 runs over into the next exponent, as it
  should.
-/

namespace ModelCatalog

/-! ### Encoding -/

/-- The number of magnitudes: 2 ^ 63. -/
def Double.magnitudes : Nat := Nat.pow 2 63

/-- A binary64 number: the sign, and the bits below it as a natural number. -/
structure Double where
  negative : Bool
  magnitude : Nat
  magnitude_lt : magnitude < Double.magnitudes
deriving DecidableEq, Repr

namespace Double

/-- How many magnitudes share an exponent: 2 ^ 52. -/
def binade : Nat := Nat.pow 2 52

/-- The magnitude of infinity: all bits of the exponent, none of the fraction. -/
def infiniteMagnitude : Nat := 2047 * binade

/-- The number one, in units of the least positive double: 2 ^ 1074. -/
def unitsPerOne : Nat := Nat.pow 2 1074

def signedZero (negative : Bool) : Double := ⟨negative, 0, by decide⟩

def zero : Double := signedZero false

instance : Inhabited Double := ⟨zero⟩

/-- Neither infinite nor undefined. -/
def isFinite (d : Double) : Bool :=
  d.magnitude < infiniteMagnitude

def isNaN (d : Double) : Bool :=
  infiniteMagnitude < d.magnitude

def bits (d : Double) : Nat :=
  (if d.negative then magnitudes else 0) + d.magnitude

/-! ### Value and order -/

/-- The absolute value of a finite double, in units of 2 ^ -1074. -/
def scaled (d : Double) : Nat :=
  let exponent := d.magnitude / binade
  let fraction := d.magnitude % binade
  if exponent = 0 then fraction else (binade + fraction) * Nat.pow 2 (exponent - 1)

/-- The place of a double among all doubles that are numbers; both zeros have
    place zero. -/
def rank (d : Double) : Int :=
  if d.negative then -(d.magnitude : Int) else d.magnitude

/-- Strictly less, as numbers.  What is not a number is less than nothing and
    has nothing less than it. -/
def lt (a b : Double) : Bool :=
  !a.isNaN && !b.isNaN && a.rank < b.rank

/-- Equal as numbers: the two zeros are, and what is not a number equals nothing. -/
def numEq (a b : Double) : Bool :=
  !a.isNaN && !b.isNaN && a.rank == b.rank

/-- The natural number that a double is, if it is one; minus zero is zero. -/
def natural? (d : Double) : Option Nat :=
  if d.isFinite && (!d.negative || d.magnitude == 0) && d.scaled % unitsPerOne == 0 then
    some (d.scaled / unitsPerOne)
  else none

/-! ### Rounding -/

/-- The whole number nearest to a quotient, a tie going to the even one. -/
def roundQuotient (num den : Nat) : Nat :=
  let quotient := num / den
  let rest := num % den
  if 2 * rest < den then quotient
  else if den < 2 * rest then quotient + 1
  else quotient + quotient % 2

/-- The magnitude nearest to a quotient, infinity included. -/
def roundMagnitude (num den : Nat) : Nat :=
  let units := num * unitsPerOne
  let dropped := Nat.log2 (units / den) - 52
  min infiniteMagnitude (dropped * binade + roundQuotient units (den * Nat.pow 2 dropped))

/-- No quotient is rounded beyond infinity, so the result is a number. -/
theorem roundMagnitude_le (num den : Nat) : roundMagnitude num den ≤ infiniteMagnitude :=
  Nat.min_le_left _ _

/-- The double nearest to a quotient, with a sign of its own. -/
def ofRatio (negative : Bool) (num den : Nat) : Double :=
  ⟨negative, roundMagnitude num den,
    Nat.lt_of_le_of_lt (roundMagnitude_le num den) (by decide)⟩

def infinity (negative : Bool) : Double :=
  ⟨negative, infiniteMagnitude, by decide⟩

def ofNat (n : Nat) : Double :=
  ofRatio false n 1

/-- The double nearest to a whole number; zero has a plus sign. -/
def ofInt (n : Int) : Double :=
  ofRatio (n < 0) n.natAbs 1

/-! ### Products and quotients -/

/-- The product of two finite doubles, rounded. -/
def mul (a b : Double) : Double :=
  ofRatio (a.negative != b.negative) (a.scaled * b.scaled) (unitsPerOne * unitsPerOne)

/-- The quotient of two finite doubles, rounded; the second one is not zero. -/
def div (a b : Double) : Double :=
  ofRatio (a.negative != b.negative) a.scaled b.scaled

end Double

end ModelCatalog
