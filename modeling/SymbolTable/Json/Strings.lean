/-
# JSON strings

A string stands between quotes.  Control characters must be escaped.  An escape of four
hexadecimal digits stands for a UTF-16 unit, so a character beyond the first 65536 takes two of
them, a leading and a trailing surrogate.

A string that is used has to spell a text: surrogates come in pairs.  In a string that is only
passed over the units are not looked at.
-/
import SymbolTable.Json.Reader

namespace SymbolTable.Json

/-! ## 1. Escapes -/

def hexDigit? (c : Char) : Option Nat :=
  if '0' ≤ c ∧ c ≤ '9' then some (c.toNat - '0'.toNat)
  else if 'a' ≤ c ∧ c ≤ 'f' then some (c.toNat - 'a'.toNat + 10)
  else if 'A' ≤ c ∧ c ≤ 'F' then some (c.toNat - 'A'.toNat + 10)
  else none

/-- The number that hexadecimal digits spell. -/
def hexValue? (cs : List Char) : Option Nat :=
  cs.foldlM (fun n c => (hexDigit? c).map (16 * n + ·)) 0

/-- Four hexadecimal digits.  The text is cut short if fewer than four bytes of it are left. -/
def hexUnit : Reader Nat := fun text =>
  match text with
  | a :: b :: c :: d :: rest =>
    match hexValue? [a, b, c, d] with
    | some n => .ok (n, rest)
    | none => .error .malformed
  | short => if (String.ofList short).utf8ByteSize < 4 then .error .cutShort else .error .malformed

def isLeading (unit : Nat) : Bool := 0xD800 ≤ unit && unit ≤ 0xDBFF

def isTrailing (unit : Nat) : Bool := 0xDC00 ≤ unit && unit ≤ 0xDFFF

/-- The character that a leading and a trailing surrogate stand for. -/
def joinSurrogates (leading trailing : Nat) : Char :=
  Char.ofNat (0x10000 + (leading - 0xD800) * 0x400 + (trailing - 0xDC00))

/-- The trailing surrogate that has to follow a leading one. -/
def trailingUnit : Reader Nat := do
  letters ['\\', 'u']
  let unit ← hexUnit
  if isTrailing unit then pure unit else throw .malformed

/-- The character of an escape of digits.  Where surrogates need not be in pairs the character
does not matter. -/
def unicodeEscape (pairs : Bool) : Reader Char := do
  let unit ← hexUnit
  if !pairs then pure (Char.ofNat unit)
  else if isTrailing unit then throw .malformed
  else if isLeading unit then do
    let trailing ← trailingUnit
    pure (joinSurrogates unit trailing)
  else pure (Char.ofNat unit)

/-- The character of an escape, from after the backslash. -/
def escape (pairs : Bool) : Reader Char := do
  match ← take with
  | '"' => pure '"'
  | '\\' => pure '\\'
  | '/' => pure '/'
  | 'b' => pure '\x08'
  | 'f' => pure '\x0c'
  | 'n' => pure '\n'
  | 'r' => pure '\r'
  | 't' => pure '\t'
  | 'u' => unicodeEscape pairs
  | _ => throw .malformed

/-! ## 2. Strings -/

/-- Reads to the closing quote.  `seen` holds the characters so far, the last one first; `fuel`
bounds their number. -/
def stringFrom (pairs : Bool) : (fuel : Nat) → (seen : List Char) → Reader String
  | 0, _ => throw .cutShort
  | fuel + 1, seen => do
    match ← take with
    | '"' => pure (String.ofList seen.reverse)
    | '\\' => do
      let c ← escape pairs
      stringFrom pairs fuel (c :: seen)
    | c => if c < ' ' then throw .malformed else stringFrom pairs fuel (c :: seen)

/-- Reads a string from after its opening quote. -/
def stringRest (pairs : Bool) : Reader String := do
  let text ← get
  stringFrom pairs (text.length + 1) []

/-- The key of a member of an object. -/
def key (pairs : Bool) : Reader String := do
  expect '"'
  stringRest pairs

end SymbolTable.Json
