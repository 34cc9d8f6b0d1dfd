/-
  ModelCatalog/Json/Token.lean
  ============================
  **The tokens of a JSON text.**

  `tokens?` reads a text one character at a time; `Scan` says what the reader is in
  the middle of.  A word is a longest run of characters that are no white space, no
  punctuation and no quote; it must be one of the three literal names or a number.
-/
import ModelCatalog.Json.NumberText

namespace ModelCatalog

namespace Json

/-! ### Tokens -/

inductive Token where
  | openObject | closeObject | openArray | closeArray | colon | comma
  | null
  | bool (b : Bool)
  | number (n : Number)
  | string (s : String)
deriving DecidableEq, Repr

namespace Token

def punctuation? (c : Char) : Option Token :=
  if c = '{' then some .openObject
  else if c = '}' then some .closeObject
  else if c = '[' then some .openArray
  else if c = ']' then some .closeArray
  else if c = ':' then some .colon
  else if c = ',' then some .comma
  else none

def ofWord? (word : List Char) : Option Token :=
  if word = "null".toList then some .null
  else if word = "true".toList then some (.bool true)
  else if word = "false".toList then some (.bool false)
  else (Number.ofWord? word).map .number

end Token

/-! ### Reading characters -/

/-- The four characters that may stand between tokens. -/
def isSpace (c : Char) : Bool :=
  c == ' ' || c == '\t' || c == '\n' || c == '\r'

/-- What the reader is in the middle of.  What it has of a word or a text is kept
    last character first. -/
inductive Scan where
  | between
  | word (done : List Char)
  | text (done : List Char)
  | escape (done : List Char)
  /-- In an escape by number: the first half of the pair it completes, if there is
      one, how many digits are still to come, and the value of those before. -/
  | unicode (done : List Char) (high : Option Nat) (missing : Nat) (value : Nat)
  /-- Behind the first half of a pair, where a backslash must come. -/
  | half (done : List Char) (high : Nat)
  /-- Behind the backslash after the first half of a pair. -/
  | halfEscape (done : List Char) (high : Nat)
deriving DecidableEq, Repr

/-- The reader between two characters: what it is in, and the tokens it has read,
    last one first. -/
structure Lexer where
  scan : Scan
  tokens : List Token
deriving DecidableEq, Repr

namespace Lexer

def stepBetween (tokens : List Token) (c : Char) : Lexer :=
  if isSpace c then ⟨.between, tokens⟩
  else if c = '"' then ⟨.text [], tokens⟩
  else
    match Token.punctuation? c with
    | some t => ⟨.between, t :: tokens⟩
    | none => ⟨.word [c], tokens⟩

def endsWord (c : Char) : Bool :=
  isSpace c || c == '"' || (Token.punctuation? c).isSome

/-- The character that an escape of one letter stands for. -/
def shortEscape? (c : Char) : Option Char :=
  if c = '"' then some '"'
  else if c = '\\' then some '\\'
  else if c = '/' then some '/'
  else if c = 'b' then some '\x08'
  else if c = 'f' then some '\x0c'
  else if c = 'n' then some '\n'
  else if c = 'r' then some '\r'
  else if c = 't' then some '\t'
  else none

def hexDigit? (c : Char) : Option Nat :=
  if '0' ≤ c ∧ c ≤ '9' then some (c.toNat - '0'.toNat)
  else if 'A' ≤ c ∧ c ≤ 'F' then some (c.toNat - 'A'.toNat + 10)
  else if 'a' ≤ c ∧ c ≤ 'f' then some (c.toNat - 'a'.toNat + 10)
  else none

/-- Ends an escape by number with the value of its four digits.  The first half of
    a surrogate pair waits for the second; neither half stands alone. -/
def finishUnicode (done : List Char) (high : Option Nat) (value : Nat) : Option Scan :=
  let isHigh := 0xD800 ≤ value && value < 0xDC00
  let isLow := 0xDC00 ≤ value && value < 0xE000
  match high with
  | none =>
    if isHigh then some (.half done value)
    else if isLow then none
    else some (.text (Char.ofNat value :: done))
  | some h =>
    if isLow then
      some (.text (Char.ofNat (0x10000 + (h - 0xD800) * 0x400 + (value - 0xDC00)) :: done))
    else none

/-- Takes one character; `none` if no JSON text goes on like this. -/
def step (l : Lexer) (c : Char) : Option Lexer :=
  match l.scan with
  | .between => some (stepBetween l.tokens c)
  | .word done =>
    if endsWord c then
      (Token.ofWord? done.reverse).map fun t => stepBetween (t :: l.tokens) c
    else some ⟨.word (c :: done), l.tokens⟩
  | .text done =>
    if c = '"' then some ⟨.between, .string (String.ofList done.reverse) :: l.tokens⟩
    else if c = '\\' then some ⟨.escape done, l.tokens⟩
    else if c.toNat < 0x20 then none
    else some ⟨.text (c :: done), l.tokens⟩
  | .escape done =>
    if c = 'u' then some ⟨.unicode done none 4 0, l.tokens⟩
    else (shortEscape? c).map fun e => ⟨.text (e :: done), l.tokens⟩
  | .unicode done high missing value =>
    match hexDigit? c with
    | none => none
    | some digit =>
      let value := 16 * value + digit
      if missing ≤ 1 then (finishUnicode done high value).map fun s => ⟨s, l.tokens⟩
      else some ⟨.unicode done high (missing - 1) value, l.tokens⟩
  | .half done high => if c = '\\' then some ⟨.halfEscape done high, l.tokens⟩ else none
  | .halfEscape done high =>
    if c = 'u' then some ⟨.unicode done (some high) 4 0, l.tokens⟩ else none

def finish (l : Lexer) : Option (List Token) :=
  match l.scan with
  | .between => some l.tokens.reverse
  | .word done => (Token.ofWord? done.reverse).map fun t => (t :: l.tokens).reverse
  | _ => none

end Lexer

def tokens? (text : String) : Option (List Token) :=
  (text.toList.foldlM Lexer.step ⟨.between, []⟩).bind Lexer.finish

end Json

end ModelCatalog
