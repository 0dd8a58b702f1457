/-
# Reading JSON from left to right

A document is read once, from its first character to its last, and the first thing that is wrong
decides the fault.  Text that ends too soon is one kind of fault, text that is not JSON another,
and JSON that says something else than was asked for the third.
-/

namespace SymbolTable.Json

/-- What is wrong with a document. -/
inductive Fault where
  /-- It is not JSON. -/
  | malformed
  /-- It is JSON, but not of the right shape. -/
  | mismatch
  /-- It ends where more is needed. -/
  | cutShort
deriving DecidableEq, Repr

abbrev Text := List Char

/-- Takes something from the front of the text and leaves the rest. -/
abbrev Reader := StateT Text (Except Fault)

/-! ## 1. Characters -/

def isBlank (c : Char) : Bool := c = ' ' || c = '\t' || c = '\n' || c = '\r'

def skipBlanks (text : Text) : Text := text.dropWhile isBlank

/-- Passes over blanks. -/
def blanks : Reader Unit := modify skipBlanks

/-- The next character, which is left in place. -/
def look : Reader (Option Char) := do return (← get).head?

def take : Reader Char
  | [] => .error .cutShort
  | c :: rest => .ok (c, rest)

/-- Passes over the next character if it is one of those wanted, and tells whether it was. -/
def optional (wanted : Char → Bool) : Reader Bool
  | [] => .ok (false, [])
  | c :: rest => if wanted c then .ok (true, rest) else .ok (false, c :: rest)

/-- Passes over blanks and one given character. -/
def expect (c : Char) : Reader Unit := do
  blanks
  if (← take) = c then pure () else throw .malformed

/-- Passes over the letters of a literal. -/
def letters : List Char → Reader Unit
  | [] => pure ()
  | l :: rest => do
    if (← take) = l then letters rest else throw .malformed

/-- Reads a document that holds one thing and nothing else but blanks. -/
def document {α : Type} (read : Reader α) (text : String) : Except Fault α := do
  let (x, rest) ← read text.toList
  if skipBlanks rest = [] then pure x else throw .malformed

/-! ## 2. Items between brackets -/

/-- Reads items up to `close`, with a comma before each but the first.  `item` reads one and
adds it to what was read before.  `fuel` bounds the number of items. -/
def itemsFrom {σ : Type} (close : Char) (item : σ → Reader σ) :
    (fuel : Nat) → (first : Bool) → σ → Reader σ
  | 0, _, _ => throw .cutShort
  | fuel + 1, first, seen => do
    blanks
    match ← look with
    | none => throw .cutShort
    | some c =>
      if c = close then do
        let _ ← take
        pure seen
      else if first then do
        let seen ← item seen
        itemsFrom close item fuel false seen
      else if c = ',' then do
        let _ ← take
        let seen ← item seen
        itemsFrom close item fuel false seen
      else throw .malformed

/-- Reads items up to `close`.  Each takes at least one character, so there are no more items
than characters. -/
def items {σ : Type} (close : Char) (item : σ → Reader σ) (start : σ) : Reader σ := do
  let text ← get
  itemsFrom close item (text.length + 1) true start

end SymbolTable.Json
