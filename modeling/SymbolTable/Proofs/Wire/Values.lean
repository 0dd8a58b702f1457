/-
# Property values as bytes

A value stands in its bytes at every nesting depth, as long as the sizes in it fit into the
numbers that announce them (`Fits`).

The reader of values is bounded in depth by the number of bytes that are left.  That bound is
never felt: a reader takes bytes from the front only (`Shrinks`), and one level of nesting takes
at least one byte, so any bound that is as large reads the same (`readValue_eq_readAnyValue`).
-/
import SymbolTable.Proofs.Wire.Codes

namespace SymbolTable

/-! ## 1. Sizes -/

/-- The number of bytes of a text can be announced in 64 bits. -/
def TextFits (s : String) : Prop := (utf8 s).length < 2 ^ 64

instance (s : String) : Decidable (TextFits s) := inferInstanceAs (Decidable (_ < _))

namespace Value

mutual

/-- Every size in a value can be announced in 64 bits. -/
def Fits : Value → Prop
  | text s => TextFits s
  | integer _ => True
  | boolean _ => True
  | list items => items.length < 2 ^ 64 ∧ AllFit items

def AllFit : List Value → Prop
  | [] => True
  | v :: rest => v.Fits ∧ AllFit rest

end

mutual

def decFits : (v : Value) → Decidable v.Fits
  | text s => inferInstanceAs (Decidable (TextFits s))
  | integer _ => isTrue trivial
  | boolean _ => isTrue trivial
  | list items =>
    have := decAllFit items
    inferInstanceAs (Decidable (items.length < 2 ^ 64 ∧ AllFit items))

def decAllFit : (items : List Value) → Decidable (AllFit items)
  | [] => isTrue trivial
  | v :: rest =>
    have := decFits v
    have := decAllFit rest
    inferInstanceAs (Decidable (v.Fits ∧ AllFit rest))

end

instance (v : Value) : Decidable v.Fits := decFits v

end Value

namespace Wire

/-! ## 2. Readers take bytes from the front -/

/-- What a reader leaves is not longer than what it was given. -/
def Shrinks {α : Type} (read : Reader α) : Prop :=
  ∀ ⦃bytes : Bytes⦄ ⦃x : α⦄ ⦃rest : Bytes⦄,
    read bytes = .ok (x, rest) → rest.length ≤ bytes.length

namespace Shrinks

variable {α β : Type}

theorem pure (x : α) : Shrinks (Pure.pure x) := by
  intro bytes y rest h
  cases h
  exact Nat.le_refl _

theorem throw (fault : Fault) : Shrinks (throw fault : Reader α) := by
  intro bytes y rest h
  cases h

theorem bind {read : Reader α} {next : α → Reader β} (h : Shrinks read)
    (h' : ∀ x, Shrinks (next x)) : Shrinks (read >>= next) := by
  intro bytes y rest hy
  rw [bind_apply] at hy
  split at hy
  · next x rest' hx => exact Nat.le_trans (h' x hy) (h hx)
  · cases hy

theorem map {read : Reader α} (f : α → β) (h : Shrinks read) : Shrinks (f <$> read) := by
  rw [← bind_pure_comp]
  exact h.bind fun x => Shrinks.pure (f x)

theorem byte : Shrinks readByte := by
  intro bytes b rest h
  cases bytes with
  | nil => cases h
  | cons c bytes =>
    cases h
    exact Nat.le_succ _

theorem bytes (n : Nat) : Shrinks (readBytes n) := by
  intro bytes front rest h
  unfold readBytes at h
  split at h
  · cases h
    simp
  · cases h

theorem varint (last length : Nat) : Shrinks (readVarint last length) := by
  induction length with
  | zero => exact Shrinks.throw _
  | succ length ih =>
    refine Shrinks.byte.bind fun b => ?_
    split
    · split
      · exact Shrinks.throw _
      · exact Shrinks.pure _
    · exact ih.bind fun high => Shrinks.pure _

theorem text : Shrinks readText := by
  refine (Shrinks.varint 1 10).bind fun n => (Shrinks.bytes n).bind fun b => ?_
  split
  · exact Shrinks.pure _
  · exact Shrinks.throw _

theorem flag : Shrinks readFlag := by
  refine Shrinks.byte.bind fun b => ?_
  split
  · exact Shrinks.pure _
  · split
    · exact Shrinks.pure _
    · exact Shrinks.throw _

theorem times {read : Reader α} (h : Shrinks read) (n : Nat) : Shrinks (readTimes read n) := by
  induction n with
  | zero => exact Shrinks.pure _
  | succ n ih => exact h.bind fun x => ih.bind fun xs => Shrinks.pure _

theorem seq {read : Reader α} (h : Shrinks read) : Shrinks (readSeq read) :=
  (Shrinks.varint 1 10).bind fun n => h.times n

theorem value (depth : Nat) : Shrinks (readValue depth) := by
  induction depth with
  | zero => exact Shrinks.throw _
  | succ depth ih =>
    refine (Shrinks.varint 15 5).bind fun shape => ?_
    split
    · exact Shrinks.text.map _
    · exact ((Shrinks.varint 1 10).map _).map _
    · exact Shrinks.flag.map _
    · exact ih.seq.map _
    · exact Shrinks.throw _

end Shrinks

/-- A number takes at least one byte. -/
theorem length_lt_of_readVarint {last length n : Nat} {bytes rest : Bytes}
    (h : readVarint last length bytes = .ok (n, rest)) : rest.length < bytes.length := by
  cases length with
  | zero => cases h
  | succ length =>
    cases bytes with
    | nil => cases h
    | cons b bytes =>
      rw [readVarint, bind_apply, readByte] at h
      have hrest : rest.length ≤ bytes.length := by
        dsimp only at h
        split at h
        · split at h
          · exact Shrinks.throw _ h
          · exact Shrinks.pure _ h
        · exact (Shrinks.varint last length).bind (fun high => Shrinks.pure _) h
      exact Nat.lt_succ_of_le hrest

/-! ## 3. The bound on the nesting is never felt -/

/-- Two readers that agree on short bytes agree when they are used again and again. -/
theorem readTimes_congr {α : Type} {read read' : Reader α} {limit : Nat} (h : Shrinks read)
    (heq : ∀ bytes : Bytes, bytes.length ≤ limit → read bytes = read' bytes) (n : Nat) :
    ∀ bytes : Bytes, bytes.length ≤ limit → readTimes read n bytes = readTimes read' n bytes := by
  induction n with
  | zero => exact fun _ _ => rfl
  | succ n ih =>
    intro bytes hlen
    rw [readTimes, readTimes, bind_apply, bind_apply, ← heq bytes hlen]
    cases hx : read bytes with
    | error fault => rfl
    | ok result =>
      have hrest : result.2.length ≤ limit := Nat.le_trans (h hx) hlen
      dsimp only
      rw [bind_apply, bind_apply, ih result.2 hrest]

/-- The number in front of a sequence takes at least one byte, so the items are in fewer. -/
theorem readSeq_congr {α : Type} {read read' : Reader α} {limit : Nat} (h : Shrinks read)
    (heq : ∀ bytes : Bytes, bytes.length ≤ limit → read bytes = read' bytes) {bytes : Bytes}
    (hlen : bytes.length ≤ limit + 1) : readSeq read bytes = readSeq read' bytes := by
  rw [readSeq, readSeq, bind_apply, bind_apply]
  cases hn : readNat64 bytes with
  | error fault => rfl
  | ok result =>
    obtain ⟨n, items⟩ := result
    have hitems := length_lt_of_readVarint hn
    exact readTimes_congr h heq n items (by omega)

theorem readValue_congr (depth : Nat) :
    ∀ (depth' : Nat) (bytes : Bytes), bytes.length ≤ depth → bytes.length ≤ depth' →
      readValue depth bytes = readValue depth' bytes := by
  induction depth with
  | zero =>
    intro depth' bytes hlen _
    obtain rfl := List.length_eq_zero_iff.1 (Nat.le_zero.1 hlen)
    cases depth' with
    | zero => rfl
    | succ depth' => rfl
  | succ depth ih =>
    intro depth' bytes hlen hlen'
    cases depth' with
    | zero =>
      obtain rfl := List.length_eq_zero_iff.1 (Nat.le_zero.1 hlen')
      rfl
    | succ depth' =>
      rw [readValue, readValue, bind_apply, bind_apply]
      cases hshape : readNat32 bytes with
      | error fault => rfl
      | ok result =>
        obtain ⟨shape, rest⟩ := result
        have hrest := length_lt_of_readVarint hshape
        dsimp only
        split
        · rfl
        · rfl
        · rfl
        · -- only lists look at the bound, for the items that follow their number
          have hih : ∀ bs : Bytes, bs.length ≤ min depth depth' →
              readValue depth bs = readValue depth' bs :=
            fun bs hbs => ih depth' bs (by omega) (by omega)
          have hlen : rest.length ≤ min depth depth' + 1 := by omega
          rw [← bind_pure_comp, ← bind_pure_comp, bind_apply, bind_apply,
            readSeq_congr (Shrinks.value depth) hih hlen]
        · rfl

/-- Any bound that is at least the number of bytes reads what the reader without a bound reads. -/
theorem readValue_eq_readAnyValue {depth : Nat} {bytes : Bytes} (h : bytes.length ≤ depth) :
    readValue depth bytes = readAnyValue bytes :=
  readValue_congr depth bytes.length bytes h (Nat.le_refl _)

/-! ## 4. Values -/

theorem length_writeVarint_pos (n : Nat) : 0 < (writeVarint n).length := by
  rw [writeVarint]
  split <;> simp

theorem length_writeValue_pos (v : Value) : 0 < (writeValue v).length := by
  cases v <;> simp only [writeValue, List.length_append] <;>
    exact Nat.add_pos_left (length_writeVarint_pos _) _

mutual

theorem codes_readValue : ∀ (v : Value) (depth : Nat), v.Fits →
    (writeValue v).length ≤ depth → Codes (readValue depth) (writeValue v) v
  | v, 0, _, hlen => absurd (length_writeValue_pos v) (by omega)
  | .text s, depth + 1, hfit, _ => by
    rw [writeValue]
    exact (codes_nat32 (by omega)).bind ((codes_text hfit).map Value.text)
  | .integer n, depth + 1, _, _ => by
    rw [writeValue]
    exact (codes_nat32 (by omega)).bind ((codes_int64 n).map Value.integer)
  | .boolean b, depth + 1, _, _ => by
    rw [writeValue]
    exact (codes_nat32 (by omega)).bind ((codes_flag b).map Value.boolean)
  | .list items, depth + 1, hfit, hlen => by
    rw [Value.Fits] at hfit
    have hitems : (writeValues items).length ≤ depth := by
      have := length_writeVarint_pos 3
      rw [writeValue, List.length_append, List.length_append] at hlen
      omega
    have hseq := (codes_nat64 hfit.1).bind (codes_readValues items depth hfit.2 hitems)
    rw [writeValue]
    exact (codes_nat32 (by omega)).bind (hseq.map Value.list)

theorem codes_readValues : ∀ (vs : List Value) (depth : Nat), Value.AllFit vs →
    (writeValues vs).length ≤ depth →
      Codes (readTimes (readValue depth) vs.length) (writeValues vs) vs
  | [], _, _, _ => Codes.pure []
  | v :: rest, depth, hfit, hlen => by
    rw [Value.AllFit] at hfit
    rw [writeValues, List.length_append] at hlen
    have hv := codes_readValue v depth hfit.1 (by omega)
    have hrest := codes_readValues rest depth hfit.2 (by omega)
    rw [writeValues]
    exact hv.bind (hrest.bind_nil (Codes.pure (v :: rest)))

end

/-- **A value stands in its bytes**, however deep it is. -/
theorem codes_value {v : Value} (h : v.Fits) : Codes readAnyValue (writeValue v) v where
  whole rest := by
    rw [← readValue_eq_readAnyValue (Nat.le_refl _)]
    exact (codes_readValue v _ h (by simp)).whole rest
  cut front back hfb hback := by
    have hlen : front.length ≤ (writeValue v).length := by
      rw [← hfb, List.length_append]
      omega
    rw [← readValue_eq_readAnyValue hlen]
    exact (codes_readValue v _ h (Nat.le_refl _)).cut front back hfb hback

end Wire
end SymbolTable
