/-
  ModelCatalog/Service/Authority.lean
  ===================================
  **Which texts name a host.**

  An authority is a host, with a user and an at sign before it or a colon and a port
  behind it.  An address that has colons of its own stands in brackets.  Neither the
  user nor the port is looked into; what is checked is that the characters may stand
  there, that brackets come as one pair, that at most one colon belongs to the port,
  and that escapes stand before an at sign or in brackets.
-/

namespace ModelCatalog.Authority

/-! ### Characters -/

def isPlain (c : Char) : Bool :=
  c.isAlphanum || "!$&'()*+,-.;=_~".toList.contains c

def isEnd (c : Char) : Bool :=
  c == '/' || c == '?' || c == '#'

/-! ### Reading -/

/-- What was read so far: the colons and the escapes since the last at sign or closing
    bracket, and the brackets. -/
structure Scan where
  colons : Nat := 0
  escaped : Bool := false
  opened : Bool := false
  closed : Bool := false
deriving DecidableEq, Repr

namespace Scan

/-- Forgets the colons and escapes, which belong to the user or to an address. -/
def settle (s : Scan) : Scan := { s with colons := 0, escaped := false }

/-- Takes one character; `none` if no authority goes on like this.  The longest
    address has eight colons, the one before its port included. -/
def step (s : Scan) (c : Char) : Option Scan :=
  if c = ':' then
    if s.colons < 8 then some { s with colons := s.colons + 1 } else none
  else if c = '%' then some { s with escaped := true }
  else if c = '@' then some s.settle
  else if c = '[' then
    if s.escaped || s.opened then none else some { s with opened := true }
  else if c = ']' then
    if s.opened && !s.closed then some { s.settle with closed := true } else none
  else if isPlain c then some s
  else none

def mayEnd (s : Scan) : Bool :=
  s.opened == s.closed && s.colons ≤ 1 && !s.escaped

end Scan

/-- Whether a text is an authority: one that is not empty and names a host behind
    every at sign. -/
def isAuthority (cs : List Char) : Bool :=
  !cs.isEmpty && cs.getLast? != some '@' &&
    match cs.foldlM Scan.step {} with
    | some s => s.mayEnd
    | none => false

end ModelCatalog.Authority
