/-
# The shortest form of a snapshot

Many byte strings are read as one snapshot: numbers may be padded, a property may be given again
and again, and what follows the last entry is not looked at.  The one that is written is the
shortest of them, and no other one is as short.

Repeated properties are what is new here.  A payload keeps one pair for each key, and every pair
that it does not keep took bytes (`spells_ofPairs`).

* `takes_payload`, `takes_entity`: the parts;
* `exists_of_decode`: what was decoded fits, and what it was decoded from is its bytes or longer.
-/
import SymbolTable.Proofs.Wire.Spellings
import SymbolTable.Proofs.Snapshot.RoundTrip
import Mathlib.Data.List.Induction

namespace SymbolTable

/-! ## 1. Storing a key again -/

/-- The bytes of a list grow by at most those of the element that is stored, and by less if
another one gives up its place. -/
theorem spells_upsert {α κ : Type} [DecidableEq κ] (key : α → κ) {write : α → Bytes}
    (hpos : ∀ y, 0 < (write y).length) (x : α) (l : List α) :
    upsert key x l = l ++ [x] ∨ (upsert key x l).length = l.length ∧
      ((upsert key x l).flatMap write).length < (l.flatMap write).length + (write x).length := by
  induction l with
  | nil => exact Or.inl rfl
  | cons y rest ih =>
    rw [upsert]
    split
    · refine Or.inr ⟨rfl, ?_⟩
      have := hpos y
      simp only [List.flatMap_cons, List.length_append]
      omega
    · rcases ih with h | ⟨hlen, hlt⟩
      · exact Or.inl (by rw [h, List.cons_append])
      · refine Or.inr ⟨by rw [List.length_cons, List.length_cons, hlen], ?_⟩
        simp only [List.flatMap_cons, List.length_append]
        omega

namespace Wire

theorem length_writeProperty_pos (pair : String × Value) : 0 < (writeProperty pair).length := by
  rw [writeProperty, List.length_append]
  exact Nat.add_pos_right _ (length_writeValue_pos _)

/-- A larger number is not written in fewer bytes. -/
theorem length_writeVarint_mono {m n : Nat} (h : m ≤ n) :
    (writeVarint m).length ≤ (writeVarint n).length := by
  induction n using Nat.strongRecOn generalizing m with
  | ind n ih =>
    rw [writeVarint.eq_def m, writeVarint.eq_def n]
    by_cases hm : m < 128
    · rw [if_pos hm]
      split <;> simp
    · have hn : ¬ n < 128 := by omega
      rw [if_neg hm, if_neg hn, List.length_cons, List.length_cons]
      exact Nat.succ_le_succ (ih (n / 128) (by omega) (Nat.div_le_div_right h))

end Wire

/-! ## 2. Payloads -/

namespace Payload

theorem ofPairs_append_singleton (pairs : List (String × Value)) (pair : String × Value) :
    ofPairs (pairs ++ [pair]) = (ofPairs pairs).set pair.1 pair.2 := by
  rw [ofPairs, List.foldl_append]
  rfl

/-- Nothing is in a payload but the pairs that it was built from. -/
theorem mem_of_mem_ofPairs {pairs : List (String × Value)} {pair : String × Value}
    (h : pair ∈ (ofPairs pairs).pairs) : pair ∈ pairs := by
  induction pairs using List.reverseRecOn with
  | nil => cases h
  | append_singleton pairs x ih =>
    rw [ofPairs_append_singleton] at h
    rcases mem_of_mem_upsert h with rfl | h
    · exact List.mem_append_right _ List.mem_cons_self
    · exact List.mem_append_left _ (ih h)

/-- Pairs that are all kept, or of which some were given up, with their bytes.  The induction goes
from the first pair to the last, as payloads are built. -/
theorem pairs_ofPairs (pairs : List (String × Value)) :
    (ofPairs pairs).pairs = pairs ∨ (ofPairs pairs).pairs.length ≤ pairs.length ∧
      ((ofPairs pairs).pairs.flatMap Wire.writeProperty).length <
        (pairs.flatMap Wire.writeProperty).length := by
  induction pairs using List.reverseRecOn with
  | nil => exact Or.inl rfl
  | append_singleton pairs x ih =>
    have hset : (ofPairs (pairs ++ [x])).pairs = upsert Prod.fst x (ofPairs pairs).pairs := by
      rw [ofPairs_append_singleton]
      rfl
    have hupsert := spells_upsert Prod.fst Wire.length_writeProperty_pos x
      (ofPairs pairs).pairs
    rw [hset]
    rcases ih with heq | ⟨hlen, hlt⟩
    · rw [heq] at hupsert ⊢
      rcases hupsert with h | ⟨hlen, hlt⟩
      · exact Or.inl h
      · refine Or.inr ?_
        simp only [List.length_append, List.flatMap_append, List.flatMap_singleton]
        omega
    · refine Or.inr ?_
      rcases hupsert with h | ⟨hlen', hlt'⟩
      · simp only [h, List.length_append, List.flatMap_append, List.flatMap_singleton]
        omega
      · simp only [List.length_append, List.flatMap_append, List.flatMap_singleton]
        omega

end Payload

namespace Wire

theorem spells_ofPairs (pairs : List (String × Value)) :
    Spells (writeSeq writeProperty pairs) (writePayload (Payload.ofPairs pairs)) := by
  rw [writePayload]
  rcases Payload.pairs_ofPairs pairs with heq | ⟨hlen, hlt⟩
  · rw [heq]
    exact Spells.refl _
  · refine Or.inr ?_
    have hcount := length_writeVarint_mono hlen
    simp only [writeSeq, List.length_append]
    omega

theorem takes_property : Takes readProperty fun front pair =>
    (TextFits pair.1 ∧ pair.2.Fits) ∧ Spells front (writeProperty pair) := by
  refine takes_text.bind ?_
  rintro front key ⟨hkey, hspells⟩
  refine takes_value.bind ?_
  rintro back value ⟨hvalue, hspells'⟩
  refine Takes.pure ⟨⟨hkey, hvalue⟩, ?_⟩
  rw [List.append_nil]
  exact hspells.append hspells'

theorem takes_payload : Takes readPayload fun front p =>
    (p.pairs.length < 2 ^ 64 ∧ ∀ pair ∈ p.pairs, TextFits pair.1 ∧ pair.2.Fits) ∧
      Spells front (writePayload p) := by
  refine takes_property.seq.map ?_
  rintro front pairs ⟨hlen, hfits, hspells⟩
  refine ⟨⟨?_, ?_⟩, ?_⟩
  · rcases Payload.pairs_ofPairs pairs with heq | ⟨hle, -⟩
    · rwa [heq]
    · exact Nat.lt_of_le_of_lt hle hlen
  · exact fun pair hpair => hfits pair (Payload.mem_of_mem_ofPairs hpair)
  · exact hspells.trans (spells_ofPairs pairs)

end Wire

/-! ## 3. Entities and snapshots -/

namespace Snapshot

open Wire

/-- **An entity is spelled by the bytes that it was read from.** -/
theorem takes_entity : Takes readEntity fun front e => e.Fits ∧ Spells front (writeEntity e) := by
  refine takes_text.bind ?_
  rintro front₁ path ⟨hpath, hspells₁⟩
  refine takes_option.bind ?_
  rintro front₂ parent ⟨hparent, hspells₂⟩
  refine takes_text.bind ?_
  rintro front₃ kind ⟨hkind, hspells₃⟩
  refine takes_text.seq.bind ?_
  rintro front₄ capabilities ⟨hcount, hcapabilities, hspells₄⟩
  refine takes_payload.bind ?_
  rintro front₅ payload ⟨⟨hlen, hfits⟩, hspells₅⟩
  refine Takes.pure ⟨?_, ?_⟩
  · refine ⟨hpath, ?_, hkind, by simpa using hcount, ?_, hlen, hfits⟩
    · intro p hp
      obtain ⟨s, hs, rfl⟩ := Option.map_eq_some_iff.1 hp
      exact hparent s hs
    · intro c hc
      obtain ⟨s, hs, rfl⟩ := List.mem_map.1 hc
      exact hcapabilities s hs
  · have hparent : (parent.map Path.mk).map Path.text = parent := by cases parent <;> rfl
    have hnames : (capabilities.map Capability.mk).map Capability.name = capabilities := by
      rw [List.map_map]
      exact List.map_id _
    rw [writeEntity, hparent, hnames, List.append_nil]
    exact hspells₁.append (hspells₂.append (hspells₃.append (hspells₄.append hspells₅)))

/-- **What was decoded fits, and is spelled by what it was decoded from**, up to bytes that were not
looked at. -/
theorem exists_of_decode {bytes : Bytes} {s : Snapshot} (h : decode bytes = .ok s) :
    s.Fits ∧ ∃ front rest, bytes = front ++ rest ∧ Spells front s.encode := by
  unfold decode at h
  split at h
  · next hheader =>
    obtain ⟨body, rfl⟩ := List.isPrefixOf_iff_prefix.1 hheader
    rw [List.drop_left] at h
    split at h
    · next entries rest hread =>
      cases h
      obtain ⟨front, rfl, hlen, hfits, hspells⟩ := takes_entity.seq hread
      exact ⟨⟨hlen, hfits⟩, header ++ front, rest, (List.append_assoc ..).symm,
        (Spells.refl header).append hspells⟩
    · cases h
  · cases h

/-- Bytes after the last entry make it longer. -/
theorem spells_of_decode {bytes : Bytes} {s : Snapshot} (h : decode bytes = .ok s) :
    Spells bytes s.encode := by
  obtain ⟨-, front, rest, rfl, hspells⟩ := exists_of_decode h
  cases rest with
  | nil => rwa [List.append_nil]
  | cons b rest =>
    have hle := hspells.length_le
    refine Or.inr ?_
    rw [List.length_append, List.length_cons]
    omega

/-- What was decoded once is decoded again from its own bytes. -/
theorem decode_encode_of_decode {bytes : Bytes} {s : Snapshot} (h : decode bytes = .ok s) :
    decode s.encode = .ok s := by
  have hdecode := decode_encode (exists_of_decode h).1 []
  rwa [List.append_nil] at hdecode

end Snapshot
end SymbolTable
