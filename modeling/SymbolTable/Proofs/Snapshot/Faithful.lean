/-
# Nothing else is read from a snapshot

A snapshot whose sizes do not fit into the numbers that announce them is refused, and one that was
not written to its end is refused as well.  What matters then is that it is not taken for another
one: whatever is decoded from the bytes of a table, or from the beginning of them, is that table,
and this holds without a bound on anything.

`Faithful read bytes x` is what every part of a snapshot has of this, and it goes along with the way
in which readers are put together.  It asks less than `Codes`, so numbers of a fixed width have it
from there (`Codes.faithful`).

* `Faithful.varint`, `Faithful.seq`, `faithful_value`, `faithful_entity`: the parts;
* `Table.eq_of_decode_part`: the whole.
-/
import SymbolTable.Proofs.Snapshot.RoundTrip

namespace SymbolTable
namespace Wire

/-! ## 1. Readers -/

/-- If the reader takes anything from the front of `bytes` and what follows them, cut off anywhere,
then it takes `bytes`, for `x`. -/
def Faithful {α : Type} (read : Reader α) (bytes : Bytes) (x : α) : Prop :=
  ∀ ⦃front missing rest : Bytes⦄ ⦃y : α⦄ ⦃rest' : Bytes⦄, front ++ missing = bytes ++ rest →
    read front = .ok (y, rest') → y = x ∧ rest' ++ missing = rest

theorem Codes.faithful {α : Type} {read : Reader α} {bytes : Bytes} {x : α}
    (h : Codes read bytes x) : Faithful read bytes x := by
  intro front missing rest y rest' hfront hread
  rcases List.append_eq_append_iff.1 hfront with ⟨back, hbytes, hmissing⟩ | ⟨more, rfl, hrest⟩
  · cases back with
    | nil =>
      obtain rfl : bytes = front := by simpa using hbytes
      have hwhole := h.whole []
      rw [List.append_nil, hread] at hwhole
      cases hwhole
      exact ⟨rfl, hmissing⟩
    | cons b back =>
      rw [h.cut front (b :: back) hbytes.symm (List.cons_ne_nil _ _)] at hread
      cases hread
  · rw [h.whole] at hread
    cases hread
    exact ⟨rfl, hrest.symm⟩

namespace Faithful

variable {α β : Type}

theorem pure (x : α) : Faithful (Pure.pure x) [] x := (Codes.pure x).faithful

theorem throw (fault : Fault) (bytes : Bytes) (x : α) : Faithful (throw fault) bytes x :=
  fun _ _ _ _ _ _ hread => nomatch hread

theorem bind {read : Reader α} {next : α → Reader β} {bytes bytes' : Bytes} {x : α} {y : β}
    (h : Faithful read bytes x) (h' : Faithful (next x) bytes' y) :
    Faithful (read >>= next) (bytes ++ bytes') y := by
  intro front missing rest z rest' hfront hread
  rw [bind_apply] at hread
  rw [List.append_assoc] at hfront
  split at hread
  · next x' middle hx =>
    obtain ⟨rfl, hmiddle⟩ := h hfront hx
    exact h' hmiddle hread
  · cases hread

/-- What comes after the last byte only looks at what was read. -/
theorem bind_nil {read : Reader α} {next : α → Reader β} {bytes : Bytes} {x : α} {y : β}
    (h : Faithful read bytes x) (h' : Faithful (next x) [] y) :
    Faithful (read >>= next) bytes y := by
  have hbind := h.bind h'
  rwa [List.append_nil] at hbind

theorem map {read : Reader α} {bytes : Bytes} {x : α} (f : α → β) (h : Faithful read bytes x) :
    Faithful (f <$> read) bytes (f x) := by
  rw [← bind_pure_comp]
  exact h.bind_nil (Faithful.pure (f x))

/-! ## 2. Numbers, texts and sequences -/

/-- Any number at all: one that does not fit is refused.  The induction is on the number of bytes
that the reader allows. -/
theorem varint (last length : Nat) :
    ∀ n : Nat, Faithful (readVarint last length) (writeVarint n) n := by
  induction length with
  | zero => exact fun n => Faithful.throw _ _ n
  | succ length ih =>
    intro n
    rw [writeVarint, readVarint]
    by_cases hsmall : n < 128
    · have hb := Codes.toNat_toUInt8 (by omega : n < 256)
      rw [if_pos hsmall]
      refine (Codes.byte n.toUInt8).faithful.bind_nil ?_
      rw [hb, if_pos hsmall]
      split
      · exact Faithful.throw _ _ n
      · exact Faithful.pure n
    · have hb := Codes.toNat_toUInt8 (by omega : n % 128 + 128 < 256)
      have hsum : n % 128 + 128 - 128 + 128 * (n / 128) = n := by omega
      rw [if_neg hsmall]
      refine (Codes.byte (n % 128 + 128).toUInt8).faithful.bind ?_
      rw [hb, if_neg (by omega)]
      refine (ih (n / 128)).bind_nil ?_
      rw [hsum]
      exact Faithful.pure n

theorem text (s : String) : Faithful readText (writeText s) s := by
  refine (varint 1 10 (utf8 s).length).bind ?_
  refine (Codes.bytes (utf8 s)).faithful.bind_nil ?_
  rw [utf8?_utf8]
  exact Faithful.pure s

theorem option (o : Option String) : Faithful readOption (writeOption o) o := by
  cases o with
  | none => exact (Codes.byte 0).faithful.bind_nil (Faithful.pure none)
  | some s => exact (Codes.byte 1).faithful.bind ((text s).map some)

variable {read : Reader α} {write : α → Bytes}

theorem times {xs : List α} (h : ∀ x ∈ xs, Faithful read (write x) x) :
    Faithful (readTimes read xs.length) (xs.flatMap write) xs := by
  induction xs with
  | nil => exact Faithful.pure []
  | cons x xs ih =>
    have hxs := ih fun y hy => h y (List.mem_cons_of_mem x hy)
    exact (h x List.mem_cons_self).bind (hxs.bind_nil (Faithful.pure (x :: xs)))

theorem seq {xs : List α} (h : ∀ x ∈ xs, Faithful read (write x) x) :
    Faithful (readSeq read) (writeSeq write xs) xs :=
  (varint 1 10 xs.length).bind (times h)

end Faithful

/-! ## 3. Values -/

mutual

theorem faithful_readValue : ∀ (v : Value) (depth : Nat),
    Faithful (readValue depth) (writeValue v) v
  | v, 0 => Faithful.throw _ _ v
  | .text s, depth + 1 => by
    rw [writeValue]
    exact (Faithful.varint 15 5 0).bind ((Faithful.text s).map Value.text)
  | .integer n, depth + 1 => by
    rw [writeValue]
    exact (Faithful.varint 15 5 1).bind ((codes_int64 n).faithful.map Value.integer)
  | .boolean b, depth + 1 => by
    rw [writeValue]
    exact (Faithful.varint 15 5 2).bind ((codes_flag b).faithful.map Value.boolean)
  | .list items, depth + 1 => by
    have hseq := (Faithful.varint 1 10 items.length).bind (faithful_readValues items depth)
    rw [writeValue]
    exact (Faithful.varint 15 5 3).bind (hseq.map Value.list)

theorem faithful_readValues : ∀ (vs : List Value) (depth : Nat),
    Faithful (readTimes (readValue depth) vs.length) (writeValues vs) vs
  | [], _ => Faithful.pure []
  | v :: rest, depth => by
    have hv := faithful_readValue v depth
    have hrest := faithful_readValues rest depth
    rw [writeValues]
    exact hv.bind (hrest.bind_nil (Faithful.pure (v :: rest)))

end

/-- The bound on the nesting is the number of bytes, and any bound would do. -/
theorem faithful_value (v : Value) : Faithful readAnyValue (writeValue v) v :=
  fun _ _ _ _ _ hfront hread => faithful_readValue v _ hfront hread

theorem faithful_payload (p : Payload) : Faithful readPayload (writePayload p) p := by
  have hproperty : ∀ pair ∈ p.pairs, Faithful readProperty (writeProperty pair) pair :=
    fun pair _ => (Faithful.text pair.1).bind
      ((faithful_value pair.2).bind_nil (Faithful.pure pair))
  have hpairs := (Faithful.seq hproperty).map Payload.ofPairs
  rwa [Payload.ofPairs_pairs] at hpairs

end Wire

/-! ## 4. Tables -/

namespace Snapshot

open Wire

theorem faithful_entity (e : Entity) : Faithful readEntity (writeEntity e) e := by
  refine (Faithful.text e.path.text).bind ((Faithful.option _).bind
    ((Faithful.text e.kind.tag).bind ((Faithful.seq fun s _ => Faithful.text s).bind
      ((faithful_payload e.payload).bind_nil ?_))))
  rw [parent_map_text, capabilities_map_name]
  exact Faithful.pure e

theorem eq_of_decode_part {s s' : Snapshot} {front : Bytes} (hpart : front <+: s.encode)
    (h : decode front = .ok s') : s' = s := by
  unfold decode at h
  split at h
  · next hheader =>
    obtain ⟨body, rfl⟩ := List.isPrefixOf_iff_prefix.1 hheader
    obtain ⟨missing, hmissing⟩ := hpart
    have hbody : body ++ missing = writeSeq writeEntity s.entries ++ [] := by
      rw [encode, List.append_assoc] at hmissing
      rw [List.append_cancel_left hmissing, List.append_nil]
    rw [List.drop_left] at h
    split at h
    · next entries rest hread =>
      have hentries := (Faithful.seq (fun e _ => faithful_entity e) hbody hread).1
      rw [← Except.ok.inj h, hentries]
    · cases h
  · cases h

end Snapshot

/-- **Whatever is decoded from the bytes of a table, or from the beginning of them, is that
table.** -/
theorem Table.eq_of_decode_part {t u : Table} {front : Bytes} (hpart : front <+: t.encode)
    (h : Table.decode front = .ok u) : u = t := by
  unfold Table.decode at h
  cases hs : Snapshot.decode front with
  | error damage => rw [hs] at h; cases h
  | ok s =>
    rw [hs, Snapshot.eq_of_decode_part hpart hs] at h
    have hcapture := (Snapshot.restore_eq_ok_iff.1 h).2
    exact congrArg Table.mk (Snapshot.mk.inj hcapture)

end SymbolTable
