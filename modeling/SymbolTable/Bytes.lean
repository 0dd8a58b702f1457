/-
# Bytes and text

Files and snapshots hold bytes.  A text is written in UTF-8, and bytes are a text exactly when
they are valid UTF-8.

* `utf8?_utf8`, `utf8_of_utf8?`: the two directions undo each other.
-/

namespace SymbolTable

abbrev Bytes := List UInt8

/-- The UTF-8 bytes of a text. -/
def utf8 (s : String) : Bytes := s.toByteArray.data.toList

/-- The text that the bytes spell, if they are valid UTF-8. -/
def utf8? (b : Bytes) : Option String := String.fromUTF8? ⟨b.toArray⟩

theorem utf8?_utf8 (s : String) : utf8? (utf8 s) = some s := by
  have h : (⟨(utf8 s).toArray⟩ : ByteArray) = s.toByteArray := rfl
  rw [utf8?, h, String.fromUTF8?, dif_pos s.isValidUTF8]
  rfl

theorem utf8_of_utf8? {b : Bytes} {s : String} (h : utf8? b = some s) : utf8 s = b := by
  unfold utf8? String.fromUTF8? at h
  split at h
  · rw [← Option.some.inj h]
    rfl
  · simp at h

end SymbolTable
