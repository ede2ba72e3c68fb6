-- SUMMARY: Text as UTF-8 bytes: encoding, decoding, and the lines of a file.
import Supermemory.Library.Framing
import Supermemory.Text

/-!
# Bytes

A file is a list of bytes. Lines are found among the bytes, and each of them is decoded by
itself, so that a file that ends within a character has a last line that is no text.
-/

abbrev Bytes := List UInt8

namespace Bytes

/-- `str::as_bytes`. -/
def encode (t : Text) : Bytes := t.flatMap String.utf8EncodeChar

/-- `String::from_utf8`. -/
def decode (bytes : Bytes) : Option Text := (String.fromUTF8? bytes.toByteArray).map String.toList

def lineFeed : UInt8 := 10

/-- `BufRead::lines`. A line that is not UTF-8 is an error. -/
def lines (file : Bytes) : List (Option String) :=
  let parts := file.splitOn lineFeed
  parts.dropLast.map (fun part => (decode part).map fun line => String.ofList (Text.stripCarriageReturn line)) ++
    (parts.getLast?.toList.filter (· ≠ [])).map fun part => (decode part).map String.ofList

-- ---------------------------------------------------------------------------
-- Encoding
-- ---------------------------------------------------------------------------

theorem toByteArray_encode (t : Text) : (encode t).toByteArray = t.utf8Encode := rfl

theorem decode_eq_some {bytes : Bytes} {t : Text} : decode bytes = some t ↔ bytes = encode t := by
  have hbytes : bytes.toByteArray = t.utf8Encode ↔ bytes = encode t := by
    rw [← toByteArray_encode]
    exact ⟨fun h => by simpa using congrArg (·.data.toList) h, congrArg _⟩
  rw [← hbytes, decode, String.fromUTF8?]
  constructor
  · intro h
    obtain ⟨s, hs, rfl⟩ := Option.map_eq_some_iff.mp h
    split at hs
    · cases hs
      rw [String.utf8Encode_toList]
      rfl
    · cases hs
  · intro h
    have hvalid : bytes.toByteArray.IsValidUTF8 := h ▸ ByteArray.isValidUTF8_utf8Encode
    have hdecoded : String.fromUTF8 bytes.toByteArray hvalid = String.ofList t := by
      apply String.toByteArray_inj.mp
      rw [String.toByteArray_ofList]
      exact h
    rw [dif_pos hvalid, Option.map_some, hdecoded, String.toList_ofList]

theorem encode_inj {t u : Text} : encode t = encode u ↔ t = u := by
  refine ⟨fun h => ?_, congrArg _⟩
  have hu : decode (encode t) = some u := decode_eq_some.mpr h
  rw [decode_eq_some.mpr rfl] at hu
  exact Option.some_inj.mp hu

theorem prefix_of_encode {t u : Text} (h : encode t <+: encode u) : t <+: u := by
  obtain ⟨rest, hrest⟩ := h
  apply List.isPrefix_of_utf8Encode_append_eq_utf8Encode rest.toByteArray
  rw [← toByteArray_encode, ← toByteArray_encode, ← hrest]
  simp

theorem lineFeed_eq_ofNat {n : Nat} (h : lineFeed = UInt8.ofNat n) (hn : n < 256) : n = 10 := by
  have hvalue := congrArg UInt8.toNat h
  rw [UInt8.toNat_ofNat'] at hvalue
  change 10 = _ at hvalue
  omega

/-- The byte of a line feed is in no other character. -/
theorem lineFeed_char {c : Char} (h : lineFeed ∈ String.utf8EncodeChar c) : c = '\n' := by
  unfold String.utf8EncodeChar at h
  simp only at h
  split at h
  · rename_i hsmall
    have hvalue : c.val.toNat = 10 := lineFeed_eq_ofNat (List.mem_singleton.mp h) (by omega)
    exact Char.ext (UInt32.toNat_inj.mp hvalue)
  · -- the bytes of a longer character are at least 128
    exfalso
    split at h
    · simp only [List.mem_cons, List.not_mem_nil, or_false] at h
      obtain h | h := h <;> have := lineFeed_eq_ofNat h (by omega) <;> omega
    · split at h
      · simp only [List.mem_cons, List.not_mem_nil, or_false] at h
        obtain h | h | h := h <;> have := lineFeed_eq_ofNat h (by omega) <;> omega
      · simp only [List.mem_cons, List.not_mem_nil, or_false] at h
        obtain h | h | h | h := h <;> have := lineFeed_eq_ofNat h (by omega) <;> omega

theorem lineFeed_not_mem {t : Text} (h : '\n' ∉ t) : lineFeed ∉ encode t := by
  intro hmem
  obtain ⟨c, hc, hbyte⟩ := List.mem_flatMap.mp hmem
  exact h (lineFeed_char hbyte ▸ hc)

-- ---------------------------------------------------------------------------
-- Lines
-- ---------------------------------------------------------------------------

/-- The lines of a file are those that end with a line feed, and what is behind the last line feed. -/
theorem lines_framed {ls : List Text} {part : Bytes} (hls : ∀ line ∈ ls, '\n' ∉ line ∧ '\r' ∉ line)
    (hpart : lineFeed ∉ part) :
    lines (Framing.framed lineFeed (ls.map encode) ++ part) =
      ls.map (fun line => some (String.ofList line)) ++
        if part = [] then [] else [(decode part).map String.ofList] := by
  have hnone : ∀ r ∈ ls.map encode, lineFeed ∉ r := by
    intro r hr
    obtain ⟨line, hline, rfl⟩ := List.mem_map.mp hr
    exact lineFeed_not_mem (hls line hline).1
  have hdecoded : ∀ line ∈ ls, ((decode (encode line)).map fun l => String.ofList (Text.stripCarriageReturn l)) =
      some (String.ofList line) := by
    intro line hline
    have hlast : line.getLast? ≠ some '\r' := fun h => (hls line hline).2 (List.mem_of_getLast? h)
    rw [decode_eq_some.mpr rfl, Option.map_some, Text.stripCarriageReturn, if_neg hlast]
  rw [lines, Framing.splitOn_framed hnone, List.splitOn_eq_singleton hpart]
  simp only [List.dropLast_concat, List.getLast?_concat, List.map_map]
  congr 1
  · exact List.map_congr_left hdecoded
  · by_cases h : part = []
    · simp [h]
    · simp [h]

end Bytes
