/-
  ModelCatalog/Text/Utf8.lean
  ===========================
  **Text as UTF-8 octets, and octets read as text without ever failing.**

  Reading is lenient: octets that begin no character, or that break off in the
  middle of one, are read as the replacement character U+FFFD, one for each
  longest run that could still have become a character.  The reader is a machine
  that takes one octet at a time; `Pending` says what it is in the middle of.
-/

namespace ModelCatalog.Text

/-! ### Writing -/

def octets (s : String) : List UInt8 :=
  s.toList.flatMap String.utf8EncodeChar

/-! ### Reading -/

/-- A character begun and not finished: how many octets it still needs, the least
    and the greatest value that the next of them may have, and the bits so far. -/
structure Pending where
  needed : Nat
  least : Nat
  greatest : Nat
  bits : Nat
deriving DecidableEq, Repr

inductive Lead where
  | whole (c : Char)
  | opens (p : Pending)
  | stray

/-- Classifies an octet that stands where a character may begin.  The bounds on
    the second octet leave out overlong spellings, surrogates and everything
    above U+10FFFF. -/
def lead (b : Nat) : Lead :=
  if b < 0x80 then .whole (Char.ofNat b)
  else if b < 0xC2 then .stray
  else if b < 0xE0 then .opens ⟨1, 0x80, 0xBF, b - 0xC0⟩
  else if b = 0xE0 then .opens ⟨2, 0xA0, 0xBF, 0⟩
  else if b = 0xED then .opens ⟨2, 0x80, 0x9F, 0xD⟩
  else if b < 0xF0 then .opens ⟨2, 0x80, 0xBF, b - 0xE0⟩
  else if b = 0xF0 then .opens ⟨3, 0x90, 0xBF, 0⟩
  else if b < 0xF4 then .opens ⟨3, 0x80, 0xBF, b - 0xF0⟩
  else if b = 0xF4 then .opens ⟨3, 0x80, 0x8F, 4⟩
  else .stray

/-- Stands for octets that spell no character. -/
def replacement : Char := '\uFFFD'

/-- Reads the rest of the octets, given the character that is under way, if any. -/
def decodeFrom : Option Pending → List UInt8 → List Char
  | none, [] => []
  | some _, [] => [replacement]
  | none, b :: rest =>
    match lead b.toNat with
    | .whole c => c :: decodeFrom none rest
    | .opens p => decodeFrom (some p) rest
    | .stray => replacement :: decodeFrom none rest
  | some p, b :: rest =>
    if p.least ≤ b.toNat ∧ b.toNat ≤ p.greatest then
      let bits := p.bits * 64 + b.toNat % 64
      if p.needed ≤ 1 then Char.ofNat bits :: decodeFrom none rest
      else decodeFrom (some ⟨p.needed - 1, 0x80, 0xBF, bits⟩) rest
    else
      match lead b.toNat with
      | .whole c => replacement :: c :: decodeFrom none rest
      | .opens q => replacement :: decodeFrom (some q) rest
      | .stray => replacement :: replacement :: decodeFrom none rest

/-- The text that octets spell, with U+FFFD where they spell none. -/
def ofOctets (bs : List UInt8) : String :=
  String.ofList (decodeFrom none bs)

end ModelCatalog.Text
