/-
# Snapshots that are cut off

A snapshot has no end mark, so a file that was not written to its end looks like the beginning of
one.  It is never taken for a smaller snapshot: the count in front of every sequence, and the
length in front of every text, say how much is to come, and the reader misses it.

What is wrong then depends on how much is there.  Before the header is complete there is no
snapshot to speak of; after that the bytes end where more are needed.

* `decode_of_length_lt`: too few bytes for the header;
* `decode_of_missing`: too few bytes for the entries;
* `decode_whole_only`: a whole snapshot, with anything after it, and a part of one.
-/
import SymbolTable.Proofs.Snapshot.RoundTrip

namespace SymbolTable
namespace Snapshot

open Wire

/-! ## 1. The header -/

theorem decode_of_length_lt {bytes : Bytes} (h : bytes.length < header.length) :
    decode bytes = .error .badHeader := by
  have hno : ¬ header.isPrefixOf bytes = true := by
    intro hpart
    have hle := (List.isPrefixOf_iff_prefix.1 hpart).length_le
    omega
  rw [decode, if_neg hno]

theorem decode_header_append {body : Bytes} {fault : Fault}
    (h : readSeq readEntity body = .error fault) :
    decode (header ++ body) = .error (.badBody fault) := by
  have hheader : header.isPrefixOf (header ++ body) = true :=
    List.isPrefixOf_iff_prefix.2 (List.prefix_append _ _)
  rw [decode, if_pos hheader, List.drop_left, h]

/-! ## 2. Parts of a snapshot -/

/-- The header is there, but some of the bytes after it are missing. -/
theorem decode_of_missing {s : Snapshot} (h : s.Fits) {body missing : Bytes}
    (hbody : header ++ body ++ missing = s.encode) (hmissing : missing ≠ []) :
    decode (header ++ body) = .error (.badBody .endOfBytes) := by
  have hentries : body ++ missing = writeSeq writeEntity s.entries := by
    rw [encode, List.append_assoc] at hbody
    exact List.append_cancel_left hbody
  exact decode_header_append ((codes_entries h).cut body missing hentries hmissing)

/-- **A snapshot is decoded from its bytes, whatever follows them, and from no part of them.** -/
theorem decode_whole_only {s : Snapshot} (h : s.Fits) :
    (∀ rest, decode (s.encode ++ rest) = .ok s) ∧
    (∀ front, front <+: s.encode → front ≠ s.encode →
      decode front = .error (if front.length < 8 then .badHeader else .badBody .endOfBytes)) ∧
    (Damage.badBody .endOfBytes).message =
      "failed to decode snapshot: Hit the end of buffer, expected more data" := by
  refine ⟨decode_encode h, ?_, rfl⟩
  intro front hpart hne
  have hheader : header.length = 8 := rfl
  rcases Nat.lt_or_ge front.length 8 with hshort | hlong
  · rw [if_pos hshort]
    exact decode_of_length_lt (hheader ▸ hshort)
  · rw [if_neg (Nat.not_lt.2 hlong)]
    -- both are prefixes of the snapshot, and the header is the shorter one
    have hstart : header <+: front :=
      List.prefix_of_prefix_length_le (List.prefix_append _ _) hpart (hheader ▸ hlong)
    obtain ⟨body, rfl⟩ := hstart
    obtain ⟨missing, hmissing⟩ := hpart
    refine decode_of_missing h hmissing ?_
    rintro rfl
    rw [List.append_nil] at hmissing
    exact hne hmissing

/-- A Root with a parent and an entry with a capability twice and values in values, followed by
other bytes; and cut off in the header, right after it, and one byte before the end. -/
theorem decode_whole_only_nested :
    let deep : Value := .list [.integer Int64.minValue, .list [.text "é", .list []], .boolean true]
    let root : Entity := ⟨.root, some ⟨"lost"⟩, .root, [.container], .empty⟩
    let inner : Entity := ⟨⟨"A#ö"⟩, none, ⟨"method"⟩, [⟨"c"⟩, ⟨"c"⟩], .ofPairs [("deep", deep),
      ("", .integer Int64.maxValue)]⟩
    let s : Snapshot := ⟨[inner, root]⟩
    let last := s.encode.length - 1
    s.Fits ∧ decode (s.encode ++ [0xff, 0]) = .ok s ∧
      (s.encode.take 7 <+: s.encode ∧ s.encode.take 7 ≠ s.encode) ∧
      decode (s.encode.take 7) = .error .badHeader ∧
      (s.encode.take 8 <+: s.encode ∧ s.encode.take 8 ≠ s.encode) ∧
      decode (s.encode.take 8) = .error (.badBody .endOfBytes) ∧
      (s.encode.take last <+: s.encode ∧ s.encode.take last ≠ s.encode) ∧
      decode (s.encode.take last) = .error (.badBody .endOfBytes) := by
  intro deep root inner s last
  have hfits : s.Fits := by decide +kernel
  obtain ⟨hwhole, hpart, -⟩ := decode_whole_only hfits
  have hstart : ∀ n, s.encode.take n <+: s.encode := fun n => List.take_prefix n s.encode
  have h₇ : s.encode.take 7 ≠ s.encode := by decide +kernel
  have h₈ : s.encode.take 8 ≠ s.encode := by decide +kernel
  have hlast : s.encode.take last ≠ s.encode := by decide +kernel
  have hlen : ¬ (s.encode.take last).length < 8 := by decide +kernel
  have hcut := hpart _ (hstart last) hlast
  rw [if_neg hlen] at hcut
  exact ⟨hfits, hwhole _, ⟨hstart 7, h₇⟩, hpart _ (hstart 7) h₇, ⟨hstart 8, h₈⟩,
    hpart _ (hstart 8) h₈, ⟨hstart last, hlast⟩, hcut⟩

end Snapshot
end SymbolTable
