/-
# Fields as bytes

What entities are made of, each with its writer and its reader: texts, optional texts, counted
sequences and property values.

Values nest.  The reader of values takes a bound on the nesting, and `readAnyValue` passes the
number of bytes that are left: a value that nests deeper has more bytes than that, so the bound
cannot be reached before the bytes end.
-/
import SymbolTable.Wire.Varint
import SymbolTable.Value

namespace SymbolTable.Wire

/-! ## 1. Texts, options and sequences -/

/-- The number of bytes, then the bytes. -/
def writeText (s : String) : Bytes := writeVarint (utf8 s).length ++ utf8 s

def readText : Reader String := do
  let n ← readNat64
  match utf8? (← readBytes n) with
  | some s => pure s
  | none => throw .badText

/-- 0 for nothing, or 1 and the text. -/
def writeOption : Option String → Bytes
  | none => [0]
  | some s => 1 :: writeText s

def readOption : Reader (Option String) := do
  let mark ← readByte
  if mark = 0 then pure none
  else if mark = 1 then some <$> readText
  else throw .badOption

/-- The number of items, then the items. -/
def writeSeq {α : Type} (write : α → Bytes) (xs : List α) : Bytes :=
  writeVarint xs.length ++ xs.flatMap write

/-- Exactly `n` items. -/
def readTimes {α : Type} (read : Reader α) : (n : Nat) → Reader (List α)
  | 0 => pure []
  | n + 1 => do
    let x ← read
    let xs ← readTimes read n
    pure (x :: xs)

def readSeq {α : Type} (read : Reader α) : Reader (List α) := do
  let n ← readNat64
  readTimes read n

/-! ## 2. Values -/

def writeFlag (b : Bool) : Bytes := [if b then 1 else 0]

def readFlag : Reader Bool := do
  let b ← readByte
  if b = 0 then pure false
  else if b = 1 then pure true
  else throw .badFlag

mutual

/-- The number of the shape, then the contents. -/
def writeValue : Value → Bytes
  | .text s => writeVarint 0 ++ writeText s
  | .integer n => writeVarint 1 ++ writeInt64 n
  | .boolean b => writeVarint 2 ++ writeFlag b
  | .list items => writeVarint 3 ++ (writeVarint items.length ++ writeValues items)

def writeValues : List Value → Bytes
  | [] => []
  | v :: rest => writeValue v ++ writeValues rest

end

/-- Reads a value of at most `depth` levels. -/
def readValue : (depth : Nat) → Reader Value
  | 0 => throw .endOfBytes
  | depth + 1 => do
    match ← readNat32 with
    | 0 => .text <$> readText
    | 1 => .integer <$> readInt64
    | 2 => .boolean <$> readFlag
    | 3 => .list <$> readSeq (readValue depth)
    | _ => throw .unknownShape

/-- Reads a value however deep it is. -/
def readAnyValue : Reader Value := fun bytes => readValue bytes.length bytes

/-! ## 3. Payloads -/

def writeProperty (pair : String × Value) : Bytes := writeText pair.1 ++ writeValue pair.2

def readProperty : Reader (String × Value) := do
  let key ← readText
  let value ← readAnyValue
  pure (key, value)

def writePayload (p : Payload) : Bytes := writeSeq writeProperty p.pairs

/-- A key that comes again keeps its first place and takes its last value. -/
def readPayload : Reader Payload := Payload.ofPairs <$> readSeq readProperty

end SymbolTable.Wire
