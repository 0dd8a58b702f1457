/-
# Bytes that stand for a value

`Codes read bytes x` says that `bytes` stand for `x` to a reader, in both ways that matter for a
format without end marks: the reader takes these bytes and no others, whatever follows them, and
it notices when the last of them are missing.

The relation goes along with the way in which readers are put together: what is read one after
the other is written one after the other (`Codes.bind`).

* `Codes.varint`, `codes_nat64`, `codes_int64`: numbers;
* `codes_text`, `codes_option`, `Codes.seq`: texts, optional texts, counted sequences.
-/
import SymbolTable.Wire.Field
import Mathlib.Tactic.Ring

namespace SymbolTable.Wire

/-! ## 1. Readers -/

theorem bind_apply {α β : Type} (read : Reader α) (next : α → Reader β) (bytes : Bytes) :
    (read >>= next) bytes =
      match read bytes with
      | .ok (x, rest) => next x rest
      | .error fault => .error fault := by
  show StateT.bind read next bytes = _
  unfold StateT.bind
  cases read bytes with
  | error fault => rfl
  | ok result => rfl

/-- The reader takes `bytes` for `x`, and misses them when they are cut off. -/
structure Codes {α : Type} (read : Reader α) (bytes : Bytes) (x : α) : Prop where
  whole : ∀ rest, read (bytes ++ rest) = .ok (x, rest)
  cut : ∀ front back, front ++ back = bytes → back ≠ [] → read front = .error .endOfBytes

namespace Codes

variable {α β : Type}

theorem pure (x : α) : Codes (Pure.pure x) [] x where
  whole _ := rfl
  cut _ _ h hback := absurd (List.append_eq_nil_iff.1 h).2 hback

theorem bind {read : Reader α} {next : α → Reader β} {bytes bytes' : Bytes} {x : α} {y : β}
    (h : Codes read bytes x) (h' : Codes (next x) bytes' y) :
    Codes (read >>= next) (bytes ++ bytes') y where
  whole rest := by
    rw [bind_apply, List.append_assoc, h.whole]
    exact h'.whole rest
  cut front back hfb hback := by
    rw [bind_apply]
    rcases List.append_eq_append_iff.1 hfb with ⟨missing, hbytes, hmissing⟩ | ⟨front', rfl, hb'⟩
    · cases missing with
      | nil =>
        -- the first part is complete, so what is missing is the second part as a whole
        rw [List.append_nil] at hbytes
        have hwhole := h.whole []
        rw [List.append_nil, hbytes] at hwhole
        rw [hwhole]
        exact h'.cut [] bytes' rfl (by rwa [hmissing] at hback)
      | cons b missing =>
        rw [h.cut front (b :: missing) hbytes.symm (List.cons_ne_nil _ _)]
    · rw [h.whole]
      exact h'.cut front' back hb'.symm hback

/-- What comes after the last byte only looks at what was read. -/
theorem bind_nil {read : Reader α} {next : α → Reader β} {bytes : Bytes} {x : α} {y : β}
    (h : Codes read bytes x) (h' : Codes (next x) [] y) : Codes (read >>= next) bytes y := by
  have hbind := h.bind h'
  rwa [List.append_nil] at hbind

theorem map {read : Reader α} {bytes : Bytes} {x : α} (f : α → β) (h : Codes read bytes x) :
    Codes (f <$> read) bytes (f x) := by
  rw [← bind_pure_comp]
  exact h.bind_nil (Codes.pure (f x))

/-! ## 2. Numbers -/

theorem byte (b : UInt8) : Codes readByte [b] b where
  whole _ := rfl
  cut front back h hback := by
    cases front with
    | nil => rfl
    | cons c front =>
      have hnil := (List.append_eq_nil_iff.1 (List.cons.inj h).2).2
      exact absurd hnil hback

theorem bytes (bs : Bytes) : Codes (readBytes bs.length) bs bs where
  whole rest := by simp [readBytes]
  cut front back h hback := by
    have hlen : ¬ bs.length ≤ front.length := by
      have := List.length_pos_iff.2 hback
      rw [← h, List.length_append]
      omega
    rw [readBytes, if_neg hlen]

theorem toNat_toUInt8 {n : Nat} (h : n < 256) : n.toUInt8.toNat = n := by
  simp [Nat.mod_eq_of_lt h]

/-- A number that fits into the bytes that the reader allows.  The induction is on the number of
bytes after the first. -/
theorem varint {last : Nat} (hlast : last < 128) (length : Nat) :
    ∀ {n : Nat}, n < (last + 1) * 128 ^ length →
      Codes (readVarint last (length + 1)) (writeVarint n) n := by
  induction length with
  | zero =>
    intro n hn
    have hsmall : n < 128 := by omega
    have hb := toNat_toUInt8 (by omega : n < 256)
    rw [writeVarint, if_pos hsmall, readVarint]
    refine (Codes.byte n.toUInt8).bind_nil ?_
    rw [hb, if_pos hsmall, if_neg (by omega)]
    exact Codes.pure n
  | succ length ih =>
    intro n hn
    rw [writeVarint, readVarint]
    by_cases hsmall : n < 128
    · have hb := toNat_toUInt8 (by omega : n < 256)
      rw [if_pos hsmall]
      refine (Codes.byte n.toUInt8).bind_nil ?_
      rw [hb, if_pos hsmall, if_neg (by omega)]
      exact Codes.pure n
    · have hb := toNat_toUInt8 (by omega : n % 128 + 128 < 256)
      have hhigh : n / 128 < (last + 1) * 128 ^ length := by
        rw [Nat.div_lt_iff_lt_mul (by omega)]
        calc n < (last + 1) * 128 ^ (length + 1) := hn
          _ = (last + 1) * 128 ^ length * 128 := by ring
      have hsum : n % 128 + 128 - 128 + 128 * (n / 128) = n := by omega
      rw [if_neg hsmall]
      refine (Codes.byte (n % 128 + 128).toUInt8).bind ?_
      rw [hb, if_neg (by omega)]
      refine (ih hhigh).bind_nil ?_
      rw [hsum]
      exact Codes.pure n

end Codes

theorem codes_nat64 {n : Nat} (h : n < 2 ^ 64) : Codes readNat64 (writeVarint n) n :=
  Codes.varint (by omega) 9 (by omega)

theorem codes_nat32 {n : Nat} (h : n < 2 ^ 32) : Codes readNat32 (writeVarint n) n :=
  Codes.varint (by omega) 4 (by omega)

/-- Folding stays within 64 bits. -/
theorem zigzag_lt (n : Int64) : zigzag n < 2 ^ 64 := by
  have h1 := n.toInt_lt
  have h2 := n.le_toInt
  unfold zigzag
  split <;> omega

theorem codes_int64 (n : Int64) : Codes readInt64 (writeInt64 n) n := by
  have h := (codes_nat64 (zigzag_lt n)).map unzigzag
  rwa [unzigzag_zigzag] at h

theorem codes_flag (b : Bool) : Codes readFlag (writeFlag b) b := by
  refine (Codes.byte _).bind_nil ?_
  cases b with
  | false => exact Codes.pure false
  | true => exact Codes.pure true

/-! ## 3. Texts, options and sequences -/

theorem codes_text {s : String} (h : (utf8 s).length < 2 ^ 64) :
    Codes readText (writeText s) s := by
  refine (codes_nat64 h).bind ?_
  refine (Codes.bytes (utf8 s)).bind_nil ?_
  rw [utf8?_utf8]
  exact Codes.pure s

theorem codes_option {o : Option String} (h : ∀ s, o = some s → (utf8 s).length < 2 ^ 64) :
    Codes readOption (writeOption o) o := by
  cases o with
  | none => exact (Codes.byte 0).bind_nil (Codes.pure none)
  | some s => exact (Codes.byte 1).bind ((codes_text (h s rfl)).map some)

namespace Codes

variable {α : Type} {read : Reader α} {write : α → Bytes}

theorem times {xs : List α} (h : ∀ x ∈ xs, Codes read (write x) x) :
    Codes (readTimes read xs.length) (xs.flatMap write) xs := by
  induction xs with
  | nil => exact Codes.pure []
  | cons x xs ih =>
    have hxs := ih fun y hy => h y (List.mem_cons_of_mem x hy)
    exact (h x List.mem_cons_self).bind (hxs.bind_nil (Codes.pure (x :: xs)))

theorem seq {xs : List α} (hlen : xs.length < 2 ^ 64) (h : ∀ x ∈ xs, Codes read (write x) x) :
    Codes (readSeq read) (writeSeq write xs) xs :=
  (codes_nat64 hlen).bind (times h)

end Codes
end SymbolTable.Wire
