/-
# JSON numbers

A number is read as its digits.  What is used of it is at most that it is a natural number below
2 ^ 64, written without a point or an exponent.  Any other number is only required to be in range:
as a binary fraction of 53 bits it has to stay below 2 ^ 1024.

The range is that of a reader which gathers the digits into one number below 2 ^ 64, drops the
digits that do not fit, rounds that number and the power of ten it stands for to 53 bits each, and
rounds their product.
-/
import SymbolTable.Json.Reader

namespace SymbolTable.Json

/-! ## 1. Digits -/

def isDigit (c : Char) : Bool := '0' ≤ c && c ≤ '9'

def digitValue (c : Char) : Nat := c.toNat - '0'.toNat

/-- At least one digit.  `missing` is the fault of a text that ends here. -/
def digits (missing : Fault) : Reader (List Nat) := fun text =>
  match text.takeWhile isDigit with
  | [] => .error (if text = [] then missing else .malformed)
  | ds => .ok (ds.map digitValue, text.dropWhile isDigit)

/-- The number that digits spell. -/
def decimal (ds : List Nat) : Nat := ds.foldl (fun n d => 10 * n + d) 0

structure Number where
  negative : Bool
  whole : List Nat
  fraction : Option (List Nat)
  exponent : Option Int
deriving DecidableEq, Repr

/-! ## 2. Reading -/

/-- The digits before a point.  A leading zero is the only one. -/
def whole (missing : Fault) : Reader (List Nat) := do
  let ds ← digits missing
  if ds.head? = some 0 ∧ 1 < ds.length then throw .malformed else pure ds

/-- The digits after a point, if there is one. -/
def fraction? (missing : Fault) : Reader (Option (List Nat)) := do
  if ← optional (· = '.') then some <$> digits missing else pure none

/-- Passes over a sign and tells whether it is a minus. -/
def sign : Reader Bool := do
  if ← optional (· = '-') then pure true
  else do
    let _ ← optional (· = '+')
    pure false

/-- The exponent after an `e`, if there is one. -/
def exponent? (missing : Fault) : Reader (Option Int) := do
  if ← optional (fun c => c = 'e' || c = 'E') then do
    let negative ← sign
    let n := decimal (← digits missing)
    pure (some (if negative then -(n : Int) else n))
  else pure none

def number (missing : Fault) : Reader Number := do
  let negative ← optional (· = '-')
  let whole ← whole missing
  let fraction ← fraction? missing
  let exponent ← exponent? missing
  pure ⟨negative, whole, fraction, exponent⟩

/-! ## 3. Natural numbers and the range -/

namespace Number

/-- The natural number below 2 ^ 64 that is written, if it is one. -/
def natural? (n : Number) : Option Nat :=
  if !n.negative && n.fraction.isNone && n.exponent.isNone && decimal n.whole < Nat.pow 2 64 then
    some (decimal n.whole)
  else none

/-- Gathers digits as long as the number stays below 2 ^ 64.  Yields the number and how many
digits were left out. -/
def gather (start : Nat) : List Nat → Nat × Nat
  | [] => (start, 0)
  | d :: ds =>
    if 10 * start + d < Nat.pow 2 64 then gather (10 * start + d) ds else (start, ds.length + 1)

/-- The nearest number of 53 bits; of two that are equally near, the even one. -/
def roundTo53 (n : Nat) : Nat :=
  let unit := Nat.pow 2 (n.log2 + 1 - 53)
  let twice := 2 * (n % unit)
  if unit < twice ∨ twice = unit ∧ n / unit % 2 = 1 then (n / unit + 1) * unit
  else n / unit * unit

/-- Whether `n` times ten to the `e` rounds to 2 ^ 1024 or more. -/
def tooLarge (n : Nat) (e : Int) : Bool :=
  n ≠ 0 && (308 < e || (0 ≤ e &&
    Nat.pow 2 1024 - Nat.pow 2 970 ≤ roundTo53 n * roundTo53 (Nat.pow 10 e.toNat)))

def inRange (n : Number) : Bool :=
  let (whole, dropped) := gather 0 n.whole
  let fraction := n.fraction.getD []
  let (significand, ignored) := gather whole fraction
  let scale : Int := dropped - (fraction.length - ignored : Nat)
  !tooLarge significand (scale + n.exponent.getD 0)

end Number

end SymbolTable.Json
