/-
  ModelCatalog/Text/Percent.lean
  ==============================
  **Percent escapes.**

  A percent sign and two hexadecimal digits stand for one octet.  Decoding may
  keep some octets escaped; a percent sign that starts no escape, and one that
  starts a kept escape, stands for itself, and reading goes on right behind it.
  `percentEncode` escapes everything but the unreserved characters, so its result
  is one segment of a path whatever the text holds.
-/
import ModelCatalog.Text.Utf8

namespace ModelCatalog.Text

/-! ### Decoding -/

def percentSign : UInt8 := 0x25

def hexDigit? (b : UInt8) : Option Nat :=
  let n := b.toNat
  if 0x30 ≤ n ∧ n ≤ 0x39 then some (n - 0x30)
  else if 0x41 ≤ n ∧ n ≤ 0x46 then some (n - 0x41 + 10)
  else if 0x61 ≤ n ∧ n ≤ 0x66 then some (n - 0x61 + 10)
  else none

def hexPair? (high low : UInt8) : Option UInt8 :=
  match hexDigit? high, hexDigit? low with
  | some h, some l => some (UInt8.ofNat (16 * h + l))
  | _, _ => none

/-- Replaces every escape by the octet it names, but for the octets to be kept
    escaped. -/
def percentDecodeOctets (kept : UInt8 → Bool) : List UInt8 → List UInt8
  | [] => []
  | [a] => [a]
  | [a, b] => [a, b]
  | a :: h :: l :: rest =>
    if a = percentSign then
      match hexPair? h l with
      | some octet =>
        if kept octet then a :: percentDecodeOctets kept (h :: l :: rest)
        else octet :: percentDecodeOctets kept rest
      | none => a :: percentDecodeOctets kept (h :: l :: rest)
    else a :: percentDecodeOctets kept (h :: l :: rest)

/-- Replaces every escape but the kept ones and reads the octets as text. -/
def percentDecode (kept : UInt8 → Bool) (s : String) : String :=
  ofOctets (percentDecodeOctets kept (octets s))

/-! ### Encoding -/

/-- Letters, digits, hyphen, dot, underscore and tilde: what needs no escape. -/
def isUnreserved (b : UInt8) : Bool :=
  let n := b.toNat
  (0x30 ≤ n && n ≤ 0x39) || (0x41 ≤ n && n ≤ 0x5A) || (0x61 ≤ n && n ≤ 0x7A) ||
    n == 0x2D || n == 0x2E || n == 0x5F || n == 0x7E

/-- The capital hexadecimal digit of a value below sixteen, as an octet. -/
def hexDigitOctet (n : Nat) : UInt8 :=
  UInt8.ofNat (if n < 10 then 0x30 + n else 0x37 + n)

/-- One octet as it stands in a segment: itself, or its escape. -/
def percentEncodeOctet (b : UInt8) : List UInt8 :=
  if isUnreserved b then [b]
  else [percentSign, hexDigitOctet (b.toNat / 16), hexDigitOctet (b.toNat % 16)]

def percentEncode (s : String) : String :=
  String.ofList (((octets s).flatMap percentEncodeOctet).map fun b => Char.ofNat b.toNat)

end ModelCatalog.Text
