/-
# Numbers as bytes

A natural number is written in groups of seven bits, the lowest group first; every byte but the
last has its high bit set.  A reader accepts longer spellings than the writer chooses, but no
more bytes than the number's width can need, and no bits beyond that width.

A signed number is folded onto the naturals first: 0, -1, 1, -2, … become 0, 1, 2, 3, …, so that
small numbers of either sign are short.

* `unzigzag_zigzag`: folding loses nothing.
-/
import SymbolTable.Bytes

namespace SymbolTable.Wire

/-! ## 1. Readers -/

/-- Why bytes cannot be read. -/
inductive Fault where
  /-- The bytes end where more are needed. -/
  | endOfBytes
  /-- A number that is too long or too large for its width. -/
  | badVarint
  /-- A truth value that is neither 0 nor 1. -/
  | badFlag
  /-- The mark of an optional value that is neither 0 nor 1. -/
  | badOption
  /-- A text that is not UTF-8. -/
  | badText
  /-- A value of no known shape. -/
  | unknownShape
deriving DecidableEq, Repr

namespace Fault

def message : Fault → String
  | endOfBytes => "Hit the end of buffer, expected more data"
  | badVarint => "Found a varint that didn't terminate. Is the usize too big for this platform?"
  | badFlag => "Found a bool that wasn't 0 or 1"
  | badOption => "Found an Option discriminant that wasn't 0 or 1"
  | badText => "Tried to parse invalid utf-8"
  | unknownShape => "Serde Deserialization Error"

end Fault

/-- Takes a value from the front of the bytes and leaves the rest. -/
abbrev Reader := StateT Bytes (Except Fault)

def readByte : Reader UInt8
  | [] => .error .endOfBytes
  | b :: rest => .ok (b, rest)

/-- The next `n` bytes. -/
def readBytes (n : Nat) : Reader Bytes := fun bytes =>
  if n ≤ bytes.length then .ok (bytes.take n, bytes.drop n) else .error .endOfBytes

/-! ## 2. Natural numbers -/

def writeVarint (n : Nat) : Bytes :=
  if n < 128 then [n.toUInt8] else (n % 128 + 128).toUInt8 :: writeVarint (n / 128)
termination_by n
decreasing_by omega

/-- Reads a number of at most `length` bytes.  If all of them are used, the last one is at most
`last`. -/
def readVarint (last : Nat) : (length : Nat) → Reader Nat
  | 0 => throw .badVarint
  | length + 1 => do
    let b ← readByte
    if b.toNat < 128 then
      if length = 0 ∧ last < b.toNat then throw .badVarint else pure b.toNat
    else do
      let high ← readVarint last length
      pure (b.toNat - 128 + 128 * high)

/-- A number below 2 ^ 64: nine bytes of seven bits and one more bit. -/
def readNat64 : Reader Nat := readVarint 1 10

/-- A number below 2 ^ 32: four bytes of seven bits and four more bits. -/
def readNat32 : Reader Nat := readVarint 15 5

/-! ## 3. Signed numbers -/

/-- Folds a signed number onto the naturals. -/
def zigzag (n : Int64) : Nat :=
  if 0 ≤ n.toInt then (2 * n.toInt).toNat else (-2 * n.toInt - 1).toNat

/-- The signed number that was folded. -/
def unzigzag (n : Nat) : Int64 :=
  if n % 2 = 0 then Int64.ofInt (n / 2) else Int64.ofInt (-(n / 2) - 1)

theorem unzigzag_zigzag (n : Int64) : unzigzag (zigzag n) = n := by
  unfold zigzag
  by_cases h : 0 ≤ n.toInt
  · have e : (((2 * n.toInt).toNat : Nat) : Int) / 2 = n.toInt := by omega
    have m : (2 * n.toInt).toNat % 2 = 0 := by omega
    rw [if_pos h, unzigzag, if_pos m, e, Int64.ofInt_toInt]
  · have e : -((((-2 * n.toInt - 1).toNat : Nat) : Int) / 2) - 1 = n.toInt := by omega
    have m : ¬ (-2 * n.toInt - 1).toNat % 2 = 0 := by omega
    rw [if_neg h, unzigzag, if_neg m, e, Int64.ofInt_toInt]

def writeInt64 (n : Int64) : Bytes := writeVarint (zigzag n)

def readInt64 : Reader Int64 := unzigzag <$> readNat64

end SymbolTable.Wire
