/-
# Passing over JSON values

Most of a document is not used, but all of it has to be JSON.  What that means is not the same
everywhere, and `Rules` says what it means in a place:

* `kept` is for values that are looked at: strings have to be texts, numbers have to be in range,
  and brackets nest at most 127 deep, counted from the outermost one of the document;
* `skipped` is for values that nobody asked for: any nesting will do, and a number that ends
  before a digit is malformed even at the end of the text.

Brackets are kept on a stack, so that the depth of a value is not a depth of recursion.
-/
import SymbolTable.Json.Strings
import SymbolTable.Json.Numbers

namespace SymbolTable.Json

/-- How strictly a value is read. -/
structure Rules where
  /-- Escaped surrogates have to come in pairs. -/
  pairs : Bool
  /-- The fault of a number at the end of the text that lacks a digit. -/
  missing : Fault
  /-- Numbers have to be in range. -/
  ranged : Bool
  /-- How deep brackets may nest. -/
  deepest : Option Nat
deriving DecidableEq, Repr

namespace Rules

def kept : Rules := ⟨true, .cutShort, true, some 127⟩

def skipped : Rules := ⟨false, .malformed, false, none⟩

end Rules

/-! ## 1. Scalars -/

/-- A value without brackets, as far as anybody asks for it. -/
inductive Scalar where
  | text (content : String)
  | natural (n : Nat)
  | other
deriving DecidableEq, Repr

def Scalar.ofNumber (n : Number) : Scalar :=
  match n.natural? with
  | some k => natural k
  | none => other

def scalar (r : Rules) : Reader Scalar := do
  match ← look with
  | none => throw .cutShort
  | some '"' => do
    let _ ← take
    .text <$> stringRest r.pairs
  | some 't' => do
    letters ['t', 'r', 'u', 'e']
    pure .other
  | some 'f' => do
    letters ['f', 'a', 'l', 's', 'e']
    pure .other
  | some 'n' => do
    letters ['n', 'u', 'l', 'l']
    pure .other
  | some c =>
    if c = '-' || isDigit c then do
      let n ← number r.missing
      if r.ranged && !n.inRange then throw .malformed else pure (.ofNumber n)
    else throw .malformed

/-! ## 2. Values with brackets -/

inductive Bracket where
  | list
  | object
deriving DecidableEq, Repr

namespace Bracket

def opened? (c : Char) : Option Bracket :=
  if c = '[' then some list else if c = '{' then some object else none

def close : Bracket → Char
  | list => ']'
  | object => '}'

/-- Passes over what comes before a value: in an object, its key. -/
def label (r : Rules) : Bracket → Reader Unit
  | list => pure ()
  | object => do
    let _ ← key r.pairs
    expect ':'

end Bracket

/-- What comes next inside the brackets that are open. -/
inductive Due where
  | value
  /-- The first item, or the closing bracket. -/
  | first
  /-- A comma and an item, or the closing bracket. -/
  | more
deriving DecidableEq, Repr

/-- Passes over the rest of a value.  `outer` brackets are open around it and the ones of `stack`
in it, the innermost first.  `fuel` bounds the number of steps. -/
def passFrom (r : Rules) (outer : Nat) : (fuel : Nat) → Due → (stack : List Bracket) → Reader Unit
  | 0, _, _ => throw .cutShort
  | fuel + 1, .value, stack => do
    blanks
    match (← look).bind Bracket.opened? with
    | some b =>
      if r.deepest.any (· < outer + stack.length + 1) then throw .malformed
      else do
        let _ ← take
        passFrom r outer fuel .first (b :: stack)
    | none => do
      let _ ← scalar r
      passFrom r outer fuel .more stack
  | _ + 1, _, [] => pure ()
  | fuel + 1, due, b :: stack => do
    blanks
    match ← look with
    | none => throw .cutShort
    | some c =>
      if c = b.close then do
        let _ ← take
        passFrom r outer fuel .more stack
      else if due = .first then do
        b.label r
        passFrom r outer fuel .value (b :: stack)
      else if c = ',' then do
        let _ ← take
        b.label r
        passFrom r outer fuel .value (b :: stack)
      else throw .malformed

/-- Passes over a value inside `outer` open brackets.  A character is passed in at most two
steps. -/
def pass (r : Rules) (outer : Nat) : Reader Unit := do
  let text ← get
  passFrom r outer (2 * text.length + 2) .value []

/-! ## 3. Values that are asked for -/

/-- The fault of a value of another shape than was asked for.  A scalar is read to its end, so
its own faults come first. -/
def wrongShape {α : Type} : Reader α := do
  blanks
  match (← look).bind Bracket.opened? with
  | some _ => throw .mismatch
  | none => do
    let _ ← scalar .kept
    throw .mismatch

/-- A string. -/
def text : Reader String := do
  blanks
  if ← optional (· = '"') then stringRest true else wrongShape

/-- A list of strings. -/
def texts : Reader (List String) := do
  blanks
  if ← optional (· = '[') then
    List.reverse <$> items ']' (fun seen => (· :: seen) <$> text) []
  else wrongShape

/-- Any value inside `outer` open brackets.  Only whether it is a natural number is told. -/
def natural? (outer : Nat) : Reader (Option Nat) := do
  blanks
  match (← look).bind Bracket.opened? with
  | some _ => do
    pass .kept outer
    pure none
  | none =>
    match ← scalar .kept with
    | .natural n => pure (some n)
    | _ => pure none

end SymbolTable.Json
