import LeaseLock.Proofs.Stamps
import LeaseLock.Sql.Database

/-!
# Time stamps in a column of texts

What a database does with an instant that it keeps as a text: it hands the text out again, and compares
it with others byte by byte.

## What is proved

`stored_codec`: the text of any instant, of any year, is read as the last whole millisecond that is not
after the instant; and the bytes of the texts of two instants of the years 0 to 9999 are ordered as these
milliseconds are. The characters of such a text are ASCII characters, which are one byte each, so its
bytes are ordered as its characters are (`bytes_lt_iff`); those were compared with instants before.
-/

namespace LeaseLock

namespace Text

variable {cs ds : List Char}

/-- The bytes of a text. -/
def bytes (s : String) : List UInt8 := s.toUTF8.data.toList

/-- The characters of the text are ASCII characters. -/
def IsAscii (cs : List Char) : Prop := ∀ c ∈ cs, c.toNat < 128

theorem isAscii_cons {c : Char} : IsAscii (c :: cs) ↔ c.toNat < 128 ∧ IsAscii cs :=
  List.forall_mem_cons

theorem isAscii_append : IsAscii (cs ++ ds) ↔ IsAscii cs ∧ IsAscii ds := List.forall_mem_append

theorem isAscii_of_isRun (h : Numeral.isRun cs = true) : IsAscii cs := by
  intro c hc
  have hdigit := Numeral.toNat_of_isDigit (List.all_eq_true.1 h c hc)
  omega

/-- An ASCII character is one byte, its code. -/
theorem utf8EncodeChar_of_ascii {c : Char} (h : c.toNat < 128) :
    String.utf8EncodeChar c = [c.val.toUInt8] := by
  refine String.utf8EncodeChar_eq_singleton (Char.utf8Size_eq_one_iff.2 ?_)
  have h : c.val.toNat < 128 := h
  have h127 : (127 : UInt32).toNat = 127 := rfl
  rw [UInt32.le_iff_toNat_le]
  omega

theorem bytes_ofList (h : IsAscii cs) : bytes (String.ofList cs) = cs.map (·.val.toUInt8) := by
  have hbytes : cs.flatMap String.utf8EncodeChar = cs.map (·.val.toUInt8) := by
    induction cs with
    | nil => rfl
    | cons c cs ih =>
      obtain ⟨hc, hcs⟩ := isAscii_cons.1 h
      rw [List.flatMap_cons, utf8EncodeChar_of_ascii hc, ih hcs]
      rfl
  rw [bytes, String.toUTF8, String.toByteArray_ofList, List.utf8Encode, hbytes,
    List.toList_data_toByteArray]

/-- The code of an ASCII character fits a byte. -/
theorem toNat_byte {c : Char} (h : c.toNat < 128) : c.val.toUInt8.toNat = c.toNat := by
  have h : c.val.toNat < 128 := h
  rw [UInt32.toNat_toUInt8]
  show c.val.toNat % 256 = c.val.toNat
  omega

/-- **Bytes are ordered as characters are.** -/
theorem bytes_lt_iff (hc : IsAscii cs) (hd : IsAscii ds) :
    bytes (String.ofList cs) < bytes (String.ofList ds) ↔ cs < ds := by
  rw [bytes_ofList hc, bytes_ofList hd]
  induction cs generalizing ds with
  | nil =>
    cases ds with
    | nil => exact iff_of_false (List.lt_irrefl _) (List.lt_irrefl _)
    | cons d ds => exact iff_of_true .nil .nil
  | cons c cs ih =>
    cases ds with
    | nil => exact iff_of_false (List.not_lt_nil _) (List.not_lt_nil _)
    | cons d ds =>
      obtain ⟨hc, hcs⟩ := isAscii_cons.1 hc
      obtain ⟨hd, hds⟩ := isAscii_cons.1 hd
      have hlt : c.val.toUInt8 < d.val.toUInt8 ↔ c < d := by
        rw [UInt8.lt_iff_toNat_lt, toNat_byte hc, toNat_byte hd]
        rfl
      have heq : c.val.toUInt8 = d.val.toUInt8 ↔ c = d := by
        rw [← UInt8.toNat_inj, toNat_byte hc, toNat_byte hd, Char.toNat_inj]
      rw [List.map_cons, List.map_cons, List.cons_lt_cons_iff, List.cons_lt_cons_iff, hlt, heq,
        ih hcs hds]

end Text

namespace Stamp

open Text

variable {t u : Instant}

/-! ### The bytes of stored texts -/

theorem isAscii_pair (n : Int) : IsAscii (pair n) := isAscii_of_isRun (isRun_pair n)

theorem isAscii_yearText (y : Int) : IsAscii (yearText y) := by
  have hdigits (n : Nat) : IsAscii (Numeral.padded 4 n) := isAscii_of_isRun (Numeral.isRun_padded 4 n)
  rw [yearText]
  split
  · exact hdigits _
  · refine isAscii_cons.2 ⟨?_, hdigits _⟩
    split <;> decide

theorem isAscii_storedChars (t : Instant) : IsAscii (storedChars t) := by
  have hmillis : IsAscii (millisText t.subsecond) := isAscii_of_isRun (Numeral.isRun_padded 3 _)
  simp only [storedChars, dateText, clockText, isAscii_append, isAscii_cons, isAscii_pair,
    isAscii_yearText, hmillis, and_true, true_and]
  decide

/-- The bytes of stored texts are ordered as the texts. -/
theorem bytes_stored_lt_iff (t u : Instant) :
    bytes (stored t) < bytes (stored u) ↔ stored t < stored u := by
  rw [stored, stored, bytes_lt_iff (isAscii_storedChars t) (isAscii_storedChars u)]
  show _ ↔ (String.ofList _).toList < (String.ofList _).toList
  rw [String.toList_ofList, String.toList_ofList]

/-! ### The codec -/

/-- **Stored stamps** are read as instants cut down to milliseconds, and in the years 0 to 9999 their
bytes are compared as those. -/
theorem stored_codec :
    (∀ t : Instant, ∃ u : Instant, Sql.readStamp (stored t) = .ok (.ofInstant u) ∧
      u = t.floorMillis ∧ u ≤ t ∧ t.nanos < u.nanos + nanosPerMilli ∧ nanosPerMilli ∣ u.nanos) ∧
    ∀ t u : Instant, t.InYears → u.InYears →
      (bytes (stored t) ≤ bytes (stored u) ↔ t.floorMillis ≤ u.floorMillis) ∧
      (bytes (stored t) > bytes (stored u) ↔ t.floorMillis > u.floorMillis) := by
  constructor
  · intro t
    refine ⟨t.floorMillis, ?_, rfl, t.floorMillis_le, ?_, ?_⟩
    · rw [Sql.readStamp, read_stored]
    · simp only [Instant.nanos_floorMillis, nanosPerMilli]
      omega
    · exact Int.dvd_mul_left _ _
  · intro t u ht hu
    have hgt : bytes (stored u) < bytes (stored t) ↔ u.floorMillis < t.floorMillis := by
      rw [bytes_stored_lt_iff, stored_lt_iff hu ht]
    refine ⟨?_, hgt⟩
    rw [← List.not_lt, hgt, Instant.not_lt]

/-- The last nanosecond of 1969. -/
def beforeEpoch : Instant := ⟨-1, by decide, by decide⟩

/-- It is cut down to the last millisecond, away from 1970, and its text comes first. -/
theorem codec_before_epoch :
    (∃ u, Sql.readStamp (stored beforeEpoch) = .ok (.ofInstant u) ∧ u.nanos = -1000000) ∧
      (beforeEpoch.InYears ∧ Instant.epoch.InYears) ∧
      bytes (stored beforeEpoch) ≤ bytes (stored .epoch) ∧
      bytes (stored .epoch) > bytes (stored beforeEpoch) := by
  obtain ⟨hread, hcompared⟩ := stored_codec
  obtain ⟨u, hu, rfl, -⟩ := hread beforeEpoch
  have hyears : beforeEpoch.InYears ∧ Instant.epoch.InYears := by decide
  have hle := (hcompared beforeEpoch .epoch hyears.1 hyears.2).1
  have hgt := (hcompared .epoch beforeEpoch hyears.2 hyears.1).2
  exact ⟨⟨_, hu, by decide⟩, hyears, hle.2 (by decide), hgt.2 (by decide)⟩

end Stamp
end LeaseLock
