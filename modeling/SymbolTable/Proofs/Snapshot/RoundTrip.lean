/-
# Snapshots as bytes, and back

Every part of a snapshot stands in the bytes that are written for it, so the whole does: what is
decoded from an encoded snapshot is that snapshot, with every text, every parent, every capability
and every property in its place.

* `codes_entity`: one entity;
* `decode_encode`: a whole snapshot, with anything after it;
* `Table.decode_encode`: a table, which is restored as it was.
-/
import SymbolTable.Proofs.Wire.Values
import SymbolTable.Proofs.Snapshot.Restoring

namespace SymbolTable

/-! ## 1. Payloads -/

namespace Payload

/-- Setting new keys one after the other lists them in that order. -/
theorem pairs_foldl_set (pairs : List (String × Value)) :
    ∀ (p : Payload), ((p.pairs ++ pairs).map Prod.fst).Nodup →
      (pairs.foldl (fun q pair => q.set pair.1 pair.2) p).pairs = p.pairs ++ pairs := by
  induction pairs with
  | nil => simp
  | cons pair rest ih =>
    intro p hnd
    have hnew : pair.1 ∉ p.pairs.map Prod.fst := by
      rw [List.map_append, List.map_cons, List.nodup_append] at hnd
      exact fun hmem => hnd.2.2 _ hmem _ List.mem_cons_self rfl
    have hset : (p.set pair.1 pair.2).pairs = p.pairs ++ [pair] := upsert_of_notMem hnew
    have hnext := ih (p.set pair.1 pair.2) (by simpa [hset] using hnd)
    rw [List.foldl_cons, hnext, hset, List.append_assoc, List.singleton_append]

theorem ofPairs_pairs (p : Payload) : ofPairs p.pairs = p := by
  have h := pairs_foldl_set p.pairs empty (by simpa [empty] using p.nodup)
  cases p with
  | mk pairs nodup =>
    unfold ofPairs
    rw [Payload.mk.injEq]
    exact h

end Payload

/-! ## 2. Sizes -/

/-- Every size in an entity can be announced in 64 bits. -/
structure Entity.Fits (e : Entity) : Prop where
  path : TextFits e.path.text
  parent : ∀ p ∈ e.parent, TextFits p.text
  kind : TextFits e.kind.tag
  capabilities : e.capabilities.length < 2 ^ 64
  capability : ∀ c ∈ e.capabilities, TextFits c.name
  payload : e.payload.pairs.length < 2 ^ 64
  property : ∀ pair ∈ e.payload.pairs, TextFits pair.1 ∧ pair.2.Fits

instance (e : Entity) : Decidable e.Fits :=
  decidable_of_iff
    (TextFits e.path.text ∧ (∀ p ∈ e.parent, TextFits p.text) ∧ TextFits e.kind.tag ∧
      e.capabilities.length < 2 ^ 64 ∧ (∀ c ∈ e.capabilities, TextFits c.name) ∧
      e.payload.pairs.length < 2 ^ 64 ∧ ∀ pair ∈ e.payload.pairs, TextFits pair.1 ∧ pair.2.Fits)
    ⟨fun ⟨h₁, h₂, h₃, h₄, h₅, h₆, h₇⟩ => ⟨h₁, h₂, h₃, h₄, h₅, h₆, h₇⟩,
      fun h => ⟨h.path, h.parent, h.kind, h.capabilities, h.capability, h.payload, h.property⟩⟩

structure Snapshot.Fits (s : Snapshot) : Prop where
  entries : s.entries.length < 2 ^ 64
  entry : ∀ e ∈ s.entries, e.Fits

instance (s : Snapshot) : Decidable s.Fits :=
  decidable_of_iff (s.entries.length < 2 ^ 64 ∧ ∀ e ∈ s.entries, e.Fits)
    ⟨fun ⟨h, h'⟩ => ⟨h, h'⟩, fun h => ⟨h.entries, h.entry⟩⟩

/-- Every size in a table can be announced in 64 bits. -/
def Table.Fits (t : Table) : Prop := (Snapshot.capture t).Fits

instance (t : Table) : Decidable t.Fits := inferInstanceAs (Decidable (Snapshot.Fits _))

namespace Snapshot

open Wire

/-! ## 3. Entities -/

theorem codes_property {pair : String × Value} (h : TextFits pair.1 ∧ pair.2.Fits) :
    Codes readProperty (writeProperty pair) pair :=
  (codes_text h.1).bind ((codes_value h.2).bind_nil (Codes.pure pair))

theorem codes_payload {p : Payload} (hlen : p.pairs.length < 2 ^ 64)
    (h : ∀ pair ∈ p.pairs, TextFits pair.1 ∧ pair.2.Fits) :
    Codes readPayload (writePayload p) p := by
  have hpairs := (Codes.seq hlen fun pair hpair => codes_property (h pair hpair)).map
    Payload.ofPairs
  rwa [Payload.ofPairs_pairs] at hpairs

theorem codes_parent {e : Entity} (h : e.Fits) :
    Codes readOption (writeOption (e.parent.map Path.text)) (e.parent.map Path.text) := by
  refine codes_option fun s hs => ?_
  obtain ⟨p, hp, rfl⟩ := Option.map_eq_some_iff.1 hs
  exact h.parent p hp

theorem codes_capabilities {e : Entity} (h : e.Fits) :
    Codes (readSeq readText) (writeSeq writeText (e.capabilities.map Capability.name))
      (e.capabilities.map Capability.name) := by
  refine Codes.seq (by simpa using h.capabilities) fun s hs => codes_text ?_
  obtain ⟨c, hc, rfl⟩ := List.mem_map.1 hs
  exact h.capability c hc

/-- The text of a parent is all that there is to it. -/
theorem parent_map_text (e : Entity) : (e.parent.map Path.text).map Path.mk = e.parent := by
  cases e.parent <;> rfl

/-- The names of capabilities are all that there is to them. -/
theorem capabilities_map_name (e : Entity) :
    (e.capabilities.map Capability.name).map Capability.mk = e.capabilities := by
  rw [List.map_map]
  exact List.map_id _

/-- **An entity stands in its bytes.** -/
theorem codes_entity {e : Entity} (h : e.Fits) : Codes readEntity (writeEntity e) e := by
  refine (codes_text h.path).bind ((codes_parent h).bind ((codes_text h.kind).bind
    ((codes_capabilities h).bind ((codes_payload h.payload h.property).bind_nil ?_))))
  rw [parent_map_text, capabilities_map_name]
  exact Codes.pure e

/-! ## 4. Snapshots -/

theorem codes_entries {s : Snapshot} (h : s.Fits) :
    Codes (readSeq readEntity) (writeSeq writeEntity s.entries) s.entries :=
  Codes.seq h.entries fun e he => codes_entity (h.entry e he)

/-- **Decoding gives back what was encoded**, and does not look at what follows. -/
theorem decode_encode {s : Snapshot} (h : s.Fits) (rest : Bytes) :
    decode (s.encode ++ rest) = .ok s := by
  have hheader : header.isPrefixOf (s.encode ++ rest) = true := by
    rw [List.isPrefixOf_iff_prefix, encode, List.append_assoc]
    exact List.prefix_append _ _
  have hbody : (s.encode ++ rest).drop header.length = writeSeq writeEntity s.entries ++ rest := by
    rw [encode, List.append_assoc, List.drop_left]
  rw [decode, if_pos hheader, hbody, (codes_entries h).whole rest]

end Snapshot

/-- A well-formed table is decoded from its own bytes. -/
theorem Table.decode_encode {t : Table} (hwf : t.WellFormed) (hfit : t.Fits) :
    Table.decode t.encode = .ok t := by
  have hdecode := Snapshot.decode_encode hfit []
  rw [List.append_nil] at hdecode
  rw [Table.decode, Table.encode, hdecode]
  exact Snapshot.restore_capture hwf

end SymbolTable
