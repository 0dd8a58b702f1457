/-
# What else stands for a value

A reader takes more than what is written: numbers may be padded with empty groups of bits, at
every length, count and mark.  All of these spellings are longer.  `Spells bytes short` says that
`bytes` are what is written, `short`, or more of them.

`Takes read P` says what is known when a reader has taken something from the front of some bytes:
that `P` holds of the bytes that it took and of what it made of them.  With `Spells` for `P` it
goes through readers as they are put together, because a part that is longer makes the whole
longer.

* `Takes.varint`, `takes_text`, `Takes.seq`, `takes_value`: what is read fits into what it was read
  from, and is spelled by it.
-/
import SymbolTable.Proofs.Wire.Values

namespace SymbolTable.Wire

/-! ## 1. Spellings -/

/-- The bytes are the given ones, or they are longer. -/
def Spells (bytes short : Bytes) : Prop := bytes = short ∨ short.length < bytes.length

namespace Spells

variable {a a' b b' : Bytes}

theorem refl (a : Bytes) : Spells a a := Or.inl rfl

theorem length_le (h : Spells a b) : b.length ≤ a.length := by
  rcases h with rfl | h
  · exact Nat.le_refl _
  · exact Nat.le_of_lt h

theorem eq_of_length_eq (h : Spells a b) (hlen : b.length = a.length) : b = a := by
  rcases h with rfl | h
  · rfl
  · omega

theorem append (h : Spells a b) (h' : Spells a' b') : Spells (a ++ a') (b ++ b') := by
  have hle := h.length_le
  have hle' := h'.length_le
  rcases h with rfl | h
  · rcases h' with rfl | h'
    · exact refl _
    · refine Or.inr ?_
      simp only [List.length_append]
      omega
  · refine Or.inr ?_
    simp only [List.length_append]
    omega

theorem trans {c : Bytes} (h : Spells a b) (h' : Spells b c) : Spells a c := by
  have hle := h.length_le
  rcases h' with rfl | h'
  · exact h
  · exact Or.inr (Nat.lt_of_lt_of_le h' hle)

theorem cons (x : UInt8) (h : Spells a b) : Spells (x :: a) (x :: b) := (refl [x]).append h

end Spells

/-! ## 2. What a reader takes -/

/-- Whatever the reader takes from the front of some bytes has `P`, with what is read from it. -/
def Takes {α : Type} (read : Reader α) (P : Bytes → α → Prop) : Prop :=
  ∀ ⦃bytes : Bytes⦄ ⦃x : α⦄ ⦃rest : Bytes⦄, read bytes = .ok (x, rest) →
    ∃ front, bytes = front ++ rest ∧ P front x

namespace Takes

variable {α β : Type} {P : Bytes → α → Prop} {Q : Bytes → β → Prop}

theorem pure {x : α} (h : P [] x) : Takes (Pure.pure x) P := by
  intro bytes y rest hread
  cases hread
  exact ⟨[], rfl, h⟩

theorem throw (fault : Fault) : Takes (throw fault) P := fun _ _ _ hread => nomatch hread

theorem bind {read : Reader α} {next : α → Reader β} (h : Takes read P)
    (h' : ∀ front x, P front x → Takes (next x) fun back y => Q (front ++ back) y) :
    Takes (read >>= next) Q := by
  intro bytes y rest hread
  rw [bind_apply] at hread
  split at hread
  · next x middle hx =>
    obtain ⟨front, rfl, hfront⟩ := h hx
    obtain ⟨back, rfl, hback⟩ := h' front x hfront hread
    exact ⟨front ++ back, (List.append_assoc ..).symm, hback⟩
  · cases hread

theorem map {read : Reader α} {f : α → β} (h : Takes read P)
    (hf : ∀ front x, P front x → Q front (f x)) : Takes (f <$> read) Q := by
  rw [← bind_pure_comp]
  refine h.bind fun front x hx => Takes.pure ?_
  rw [List.append_nil]
  exact hf front x hx

theorem byte : Takes readByte fun front b => front = [b] := by
  intro bytes b rest hread
  cases bytes with
  | nil => cases hread
  | cons c bytes =>
    cases hread
    exact ⟨[b], rfl, rfl⟩

theorem bytes (n : Nat) : Takes (readBytes n) fun front bs => front = bs ∧ bs.length = n := by
  intro bytes bs rest hread
  unfold readBytes at hread
  split at hread
  · next hle =>
    cases hread
    exact ⟨bytes.take n, (List.take_append_drop n bytes).symm, rfl, by simp [hle]⟩
  · cases hread

end Takes

/-! ## 3. Numbers -/

theorem writeVarint_toNat {b : UInt8} (h : b.toNat < 128) : writeVarint b.toNat = [b] := by
  rw [writeVarint, if_pos h]
  simp

/-- A byte with its high bit set, and the groups that follow it, spell what is written for them.
A highest group that is empty is padding. -/
theorem spells_group {b : UInt8} (hb : 128 ≤ b.toNat) {groups : Bytes} {high : Nat}
    (h : Spells groups (writeVarint high)) :
    Spells (b :: groups) (writeVarint (b.toNat - 128 + 128 * high)) := by
  have hlt := b.toNat_lt
  by_cases hzero : high = 0
  · have hlen := h.length_le
    have hpos := length_writeVarint_pos high
    have hsmall : b.toNat - 128 + 128 * high < 128 := by omega
    rw [writeVarint, if_pos hsmall]
    refine Or.inr ?_
    simp only [List.length_cons, List.length_nil]
    omega
  · have hlow : (b.toNat - 128 + 128 * high) % 128 + 128 = b.toNat := by omega
    have hrest : (b.toNat - 128 + 128 * high) / 128 = high := by omega
    have hbyte : b.toNat.toUInt8 = b := UInt8.ofNat_toNat
    rw [writeVarint, if_neg (by omega), hlow, hrest, hbyte]
    exact h.cons b

namespace Takes

/-- The number fits into its width.  The induction is on the number of bytes after the first. -/
theorem varint (last length : Nat) :
    Takes (readVarint last (length + 1)) fun front n =>
      n < (last + 1) * 128 ^ length ∧ Spells front (writeVarint n) := by
  induction length with
  | zero =>
    rw [readVarint]
    refine Takes.byte.bind fun front b hb => ?_
    subst hb
    split
    · next hsmall =>
      split
      · exact Takes.throw _
      · refine Takes.pure ⟨by omega, ?_⟩
        rw [writeVarint_toNat hsmall]
        exact Spells.refl _
    · exact (Takes.throw (P := fun _ _ => False) _).bind fun _ _ h => h.elim
  | succ length ih =>
    have hpow : (last + 1) * 128 ^ (length + 1) = (last + 1) * 128 ^ length * 128 := by ring
    rw [readVarint, hpow]
    refine Takes.byte.bind fun front b hb => ?_
    subst hb
    split
    · next hsmall =>
      have hpos : 0 < (last + 1) * 128 ^ length :=
        Nat.mul_pos (Nat.succ_pos _) (Nat.pow_pos (by omega))
      rw [if_neg (by omega)]
      refine Takes.pure ⟨by omega, ?_⟩
      rw [writeVarint_toNat hsmall]
      exact Spells.refl _
    · next hlarge =>
      refine ih.bind ?_
      rintro groups high ⟨hhigh, hspells⟩
      refine Takes.pure ⟨?_, ?_⟩
      · have := b.toNat_lt
        omega
      · rw [List.append_nil]
        exact spells_group (Nat.not_lt.1 hlarge) hspells

end Takes

theorem takes_nat64 : Takes readNat64 fun front n => n < 2 ^ 64 ∧ Spells front (writeVarint n) :=
  Takes.varint 1 9

theorem takes_nat32 : Takes readNat32 fun front n => n < 2 ^ 32 ∧ Spells front (writeVarint n) :=
  Takes.varint 15 4

/-- Each number of 64 bits is folded from one signed number. -/
theorem zigzag_unzigzag {n : Nat} (h : n < 2 ^ 64) : zigzag (unzigzag n) = n := by
  have hmax : (n : Int) / 2 < 2 ^ 63 := by omega
  unfold unzigzag zigzag
  split
  · have hto : (Int64.ofInt (n / 2)).toInt = n / 2 := Int64.toInt_ofInt_of_le (by omega) (by omega)
    rw [hto, if_pos (by omega)]
    omega
  · have hto : (Int64.ofInt (-(n / 2) - 1)).toInt = -(n / 2) - 1 :=
      Int64.toInt_ofInt_of_le (by omega) (by omega)
    rw [hto, if_neg (by omega)]
    omega

theorem takes_int64 : Takes readInt64 fun front n => Spells front (writeInt64 n) := by
  refine takes_nat64.map ?_
  rintro front n ⟨hn, hspells⟩
  rwa [writeInt64, zigzag_unzigzag hn]

theorem takes_flag : Takes readFlag fun front b => front = writeFlag b := by
  refine Takes.byte.bind fun front b hb => ?_
  split
  · next h => exact Takes.pure (by rw [hb, h]; rfl)
  · split
    · next h => exact Takes.pure (by rw [hb, h]; rfl)
    · exact Takes.throw _

/-! ## 4. Texts, options and sequences -/

theorem takes_text : Takes readText fun front s => TextFits s ∧ Spells front (writeText s) := by
  refine takes_nat64.bind ?_
  rintro length n ⟨hn, hspells⟩
  refine (Takes.bytes n).bind ?_
  rintro front bs ⟨hfront, hlen⟩
  split
  · next s hs =>
    have hutf : utf8 s = bs := utf8_of_utf8? hs
    refine Takes.pure ⟨?_, ?_⟩
    · rw [TextFits, hutf, hlen]
      exact hn
    · rw [List.append_nil, writeText, hutf, hlen, hfront]
      exact hspells.append (Spells.refl bs)
  · exact Takes.throw _

theorem takes_option : Takes readOption fun front o =>
    (∀ s, o = some s → TextFits s) ∧ Spells front (writeOption o) := by
  refine Takes.byte.bind fun front b hb => ?_
  split
  · next h => exact Takes.pure ⟨nofun, by rw [hb, h]; exact Spells.refl _⟩
  · split
    · next h =>
      refine takes_text.map ?_
      rintro text s ⟨hfits, hspells⟩
      refine ⟨?_, ?_⟩
      · rintro s' ⟨⟩
        exact hfits
      · rw [hb, h]
        exact hspells.cons 1
    · exact Takes.throw _

section Sequences

variable {α : Type} {read : Reader α} {good : α → Prop} {write : α → Bytes}

theorem Takes.times (h : Takes read fun front x => good x ∧ Spells front (write x)) (n : Nat) :
    Takes (readTimes read n) fun front xs =>
      xs.length = n ∧ (∀ x ∈ xs, good x) ∧ Spells front (xs.flatMap write) := by
  induction n with
  | zero => exact Takes.pure ⟨rfl, by simp, Spells.refl _⟩
  | succ n ih =>
    refine h.bind ?_
    rintro front x ⟨hx, hspells⟩
    refine ih.bind ?_
    rintro back xs ⟨hlen, hxs, hspells'⟩
    refine Takes.pure ⟨by rw [List.length_cons, hlen], ?_, ?_⟩
    · exact List.forall_mem_cons.2 ⟨hx, hxs⟩
    · rw [List.append_nil]
      exact hspells.append hspells'

theorem Takes.seq (h : Takes read fun front x => good x ∧ Spells front (write x)) :
    Takes (readSeq read) fun front xs =>
      xs.length < 2 ^ 64 ∧ (∀ x ∈ xs, good x) ∧ Spells front (writeSeq write xs) := by
  refine takes_nat64.bind ?_
  rintro count n ⟨hn, hcount⟩
  intro bytes xs rest hread
  obtain ⟨front, hbytes, hlen, hgood, hspells⟩ := h.times n hread
  subst hlen
  exact ⟨front, hbytes, hn, hgood, hcount.append hspells⟩

end Sequences

/-! ## 5. Values -/

theorem writeValues_eq_flatMap (vs : List Value) : writeValues vs = vs.flatMap writeValue := by
  induction vs with
  | nil => rfl
  | cons v rest ih => rw [writeValues, List.flatMap_cons, ih]

theorem allFit_iff {vs : List Value} : Value.AllFit vs ↔ ∀ v ∈ vs, v.Fits := by
  induction vs with
  | nil => simp [Value.AllFit]
  | cons v rest ih => rw [Value.AllFit, ih, List.forall_mem_cons]

theorem takes_readValue (depth : Nat) :
    Takes (readValue depth) fun front v => v.Fits ∧ Spells front (writeValue v) := by
  induction depth with
  | zero => exact Takes.throw _
  | succ depth ih =>
    rw [readValue]
    refine takes_nat32.bind ?_
    rintro shape n ⟨_, hshape⟩
    split
    · refine takes_text.map ?_
      rintro front s ⟨hfits, hspells⟩
      refine ⟨?_, ?_⟩
      · rwa [Value.Fits]
      · rw [writeValue]
        exact hshape.append hspells
    · refine takes_int64.map fun front n hspells => ⟨by rw [Value.Fits]; trivial, ?_⟩
      rw [writeValue]
      exact hshape.append hspells
    · refine takes_flag.map fun front b hfront => ⟨by rw [Value.Fits]; trivial, ?_⟩
      rw [writeValue, hfront]
      exact hshape.append (Spells.refl _)
    · refine ih.seq.map ?_
      rintro front items ⟨hlen, hfits, hspells⟩
      refine ⟨?_, ?_⟩
      · rw [Value.Fits]
        exact ⟨hlen, allFit_iff.2 hfits⟩
      · rw [writeValue, writeValues_eq_flatMap]
        exact hshape.append hspells
    · exact Takes.throw _

/-- **A value is spelled by the bytes that it was read from**, however deep it is. -/
theorem takes_value : Takes readAnyValue fun front v => v.Fits ∧ Spells front (writeValue v) :=
  fun bytes _ _ hread => takes_readValue bytes.length hread

end SymbolTable.Wire
