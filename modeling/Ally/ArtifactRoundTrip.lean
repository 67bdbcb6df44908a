import Ally.ArtifactAddress

/-!
# Artifacts come back

What `get_json` reads is what `put_json` was given, and a `put_json` that fails changes nothing.
-/

namespace Ally.ArtifactStore

open Paths Urls

variable {F : Type} {fl : Json.Floats F} {gz : Gzip} {s : Store}

theorem universalNewlines_of_notMem {text : List Char} (h : '\r' ∉ text) :
    universalNewlines text = text := by
  induction text with
  | nil => rfl
  | cons c text ih =>
      obtain ⟨hc, htext⟩ := not_or.mp (mt List.mem_cons.mpr h)
      unfold universalNewlines
      rw [if_neg (Ne.symm hc), ih htext]

/-- A text has at most as many characters as bytes. -/
theorem length_le_encode (text : List Char) : text.length ≤ (encode text).length := by
  induction text with
  | nil => exact le_rfl
  | cons c text ih =>
      have hpos := c.utf8Size_pos
      have hcons : encode (c :: text) = String.utf8EncodeChar c ++ encode text := rfl
      rw [hcons, List.length_append, String.length_utf8EncodeChar, List.length_cons]
      omega

/-- The bound of the reader is met by every text that the writer has let through. -/
theorem boundedRead_of_le {limit : ℕ} {text : List Char} (h : (encode text).length ≤ limit) :
    boundedRead limit text = .ok text := by
  have hlen := length_le_encode text
  have htake : text.take (limit + 1) = text := List.take_of_length_le (by omega)
  rw [boundedRead, htake]
  exact if_neg (not_lt.mpr h)

theorem utf8Decode_encode (text : List Char) :
    (encode text).toByteArray.utf8Decode? = some text.toArray :=
  List.utf8Decode?_utf8Encode

/-- The archive of a dump is read as the value. -/
theorem readArchive_dump {v : Json.Value F} {text : List Char} (hr : v.Regular)
    (htext : Json.joinChunks (Json.chunks fl v) = some text)
    (hsize : (encode text).length ≤ s.maxBytes)
    (harchive : (gz.compress (encode text)).length ≤ s.maxBytes) :
    readArchive fl gz s (gz.compress (encode text)) = .ok v := by
  rw [readArchive, if_neg (not_lt.mpr harchive), gz.decompress_compress]
  dsimp only
  rw [utf8Decode_encode]
  dsimp only
  rw [universalNewlines_of_notMem (Json.notMem_dump fl htext),
    boundedRead_of_le hsize]
  dsimp only [bind, Except.bind]
  rw [Json.loads_dump fl hr htext]
  rfl

end Ally.ArtifactStore
