/-
# Property values and payloads

A parser attaches properties to the objects it finds.  The table does not interpret them: it
keeps them in the order in which their keys first came, and compares them.

* `Payload.get?_set`: what a property reads as after one is set;
* `Payload.same`: equality that does not count the order of the keys.
-/
import SymbolTable.Keyed

namespace SymbolTable

/-! ## 1. Values -/

/-- A value that a parser attached to an object. -/
inductive Value where
  | text (content : String)
  | integer (number : Int64)
  | boolean (flag : Bool)
  | list (items : List Value)
deriving Repr

namespace Value

mutual

/-- Two values are equal when they have one shape and equal contents. -/
def decEq : (a b : Value) → Decidable (a = b)
  | text s, text t => decidable_of_iff (s = t) (by simp)
  | integer m, integer n => decidable_of_iff (m = n) (by simp)
  | boolean b, boolean c => decidable_of_iff (b = c) (by simp)
  | list xs, list ys =>
    match decEqList xs ys with
    | isTrue h => isTrue (by rw [h])
    | isFalse h => isFalse (by simpa using h)
  | text _, integer _ => isFalse (by simp)
  | text _, boolean _ => isFalse (by simp)
  | text _, list _ => isFalse (by simp)
  | integer _, text _ => isFalse (by simp)
  | integer _, boolean _ => isFalse (by simp)
  | integer _, list _ => isFalse (by simp)
  | boolean _, text _ => isFalse (by simp)
  | boolean _, integer _ => isFalse (by simp)
  | boolean _, list _ => isFalse (by simp)
  | list _, text _ => isFalse (by simp)
  | list _, integer _ => isFalse (by simp)
  | list _, boolean _ => isFalse (by simp)

def decEqList : (xs ys : List Value) → Decidable (xs = ys)
  | [], [] => isTrue rfl
  | [], _ :: _ => isFalse (by simp)
  | _ :: _, [] => isFalse (by simp)
  | x :: xs, y :: ys =>
    match decEq x y with
    | isFalse h => isFalse (by simp [h])
    | isTrue h =>
      match decEqList xs ys with
      | isFalse h' => isFalse (by simp [h'])
      | isTrue h' => isTrue (by rw [h, h'])

end

instance : DecidableEq Value := decEq

end Value

/-! ## 2. Payloads -/

/-- The properties of an object, one value to a key. -/
structure Payload where
  pairs : List (String × Value)
  nodup : (pairs.map Prod.fst).Nodup
deriving DecidableEq, Repr

namespace Payload

def empty : Payload := ⟨[], List.nodup_nil⟩

def get? (p : Payload) (key : String) : Option Value :=
  (p.pairs.find? fun pair => pair.1 = key).map Prod.snd

/-- A key that is there already keeps its place and takes the new value. -/
def set (p : Payload) (key : String) (value : Value) : Payload :=
  ⟨upsert Prod.fst (key, value) p.pairs, nodup_upsert Prod.fst (key, value) p.nodup⟩

/-- The payload that pairs build one after the other: the first position and the last value of
each key. -/
def ofPairs (pairs : List (String × Value)) : Payload :=
  pairs.foldl (fun p pair => p.set pair.1 pair.2) empty

theorem get?_set (p : Payload) (key key' : String) (value : Value) :
    (p.set key value).get? key' = if key = key' then some value else p.get? key' := by
  unfold get? set
  rw [find?_upsert]
  split <;> simp

/-- Equality up to the order of the keys. -/
def same (p q : Payload) : Bool :=
  p.pairs.length = q.pairs.length && p.pairs.all fun pair => q.get? pair.1 = some pair.2

end Payload

end SymbolTable
