import Provision.Json.Reader
import Provision.Proofs.Encoding
import Provision.Proofs.Outcome

/-! Strings as they are printed, read back.

Behind its opening quote a printed string is a row of characters, each as it is or escaped, and
a closing quote. `Spells` follows a reader through it from the back to the front: whatever
comes before it adds the bytes of one character. `readString_spelled` is the string as a
whole. -/
namespace Provision.Json
open Text

/-- A text goes on to the end of a string, with `rest` after the closing quote, and stands for
these bytes. -/
def Spells (text bytes rest : Bytes) : Prop :=
  ∃ pieces, StringText.split text = ⟨pieces, .closed, rest⟩ ∧
    StringText.contentOf .closed rest pieces = .ok bytes

namespace Spells

variable {text bytes rest : Bytes}

theorem quote (rest : Bytes) : Spells ('"'.toUInt8 :: rest) [] rest :=
  ⟨[], by rw [StringText.split.eq_def]; rfl, rfl⟩

theorem plain {b : UInt8} (hquote : b ≠ '"'.toUInt8) (hescape : b ≠ '\\'.toUInt8)
    (hcontrol : ¬ b < 0x20) (h : Spells text bytes rest) :
    Spells (b :: text) (b :: bytes) rest := by
  obtain ⟨pieces, hsplit, hcontent⟩ := h
  refine ⟨(.byte b, text) :: pieces, ?_, ?_⟩
  · rw [StringText.split.eq_def]
    simp only [if_neg hquote, if_neg hescape, if_neg hcontrol, hsplit]
    rfl
  · rw [StringText.contentOf.eq_def]
    simp only [hcontent]
    rfl

theorem short {e b : UInt8} (hunit : e ≠ 'u'.toUInt8) (he : shortEscape? e = some b)
    (h : Spells text bytes rest) : Spells ('\\'.toUInt8 :: e :: text) (b :: bytes) rest := by
  obtain ⟨pieces, hsplit, hcontent⟩ := h
  refine ⟨(.byte b, text) :: pieces, ?_, ?_⟩
  · rw [StringText.split.eq_def]
    simp only [if_neg (show '\\'.toUInt8 ≠ '"'.toUInt8 by decide), if_true, if_neg hunit, he,
      hsplit]
    rfl
  · rw [StringText.contentOf.eq_def]
    simp only [hcontent]
    rfl

/-- An escaped code unit that is a character by itself. -/
theorem unit {w x y z : UInt8} {code : Nat} (hcode : codeUnit? w x y z = some code)
    (hwhole : code < 0xd800) (h : Spells text bytes rest) :
    Spells ('\\'.toUInt8 :: 'u'.toUInt8 :: w :: x :: y :: z :: text)
      (String.utf8EncodeChar (Char.ofNat code) ++ bytes) rest := by
  obtain ⟨pieces, hsplit, hcontent⟩ := h
  refine ⟨(.unit code, text) :: pieces, ?_, ?_⟩
  · rw [StringText.split.eq_def]
    simp only [if_neg (show '\\'.toUInt8 ≠ '"'.toUInt8 by decide), if_true, hcode, hsplit]
    rfl
  · have hleading : isLeading code = false := by
      simp [isLeading, Nat.not_le.mpr hwhole]
    have htrailing : isTrailing code = false := by
      have hbelow : code < 0xdc00 := Nat.lt_trans hwhole (by decide)
      simp [isTrailing, Nat.not_le.mpr hbelow]
    rw [StringText.contentOf.eq_def]
    simp only [hleading, htrailing, Bool.false_eq_true, if_false, hcontent]
    rfl

/-- Bytes that no reader of strings looks at. -/
theorem upper {front : Bytes} (hfront : ∀ b ∈ front, 0x80 ≤ b)
    (h : Spells text bytes rest) : Spells (front ++ text) (front ++ bytes) rest := by
  induction front with
  | nil => exact h
  | cons b front ih =>
    have hb := hfront b (List.mem_cons_self ..)
    refine plain ?_ ?_ ?_ (ih fun other ho => hfront other (List.mem_cons_of_mem _ ho))
    · rintro rfl
      exact absurd hb (by decide)
    · rintro rfl
      exact absurd hb (by decide)
    · rw [UInt8.lt_iff_toNat_lt]
      rw [UInt8.le_iff_toNat_le] at hb
      have h80 : (0x80 : UInt8).toNat = 128 := rfl
      have h20 : (0x20 : UInt8).toNat = 32 := rfl
      omega

end Spells

/-! ### Escaped characters -/

theorem codeUnit?_of_control :
    ∀ n < 0x20, codeUnit? '0'.toUInt8 '0'.toUInt8 (Numeral.digitChar (n / 16)).toUInt8
      (Numeral.digitChar (n % 16)).toUInt8 = some n := by
  decide

theorem digitChar_ascii : ∀ n < 0x20, (Numeral.digitChar (n / 16)).toNat < 0x80 ∧
    (Numeral.digitChar (n % 16)).toNat < 0x80 := by
  decide

theorem Spells.escape (c : Char) {text bytes rest : Bytes} (h : Spells text bytes rest) :
    Spells (Utf8.ofChars (escape c) ++ text) (String.utf8EncodeChar c ++ bytes) rest := by
  unfold Json.escape
  split
  · next hc => subst hc; exact h.short (by decide) rfl
  split
  · next hc => subst hc; exact h.short (by decide) rfl
  split
  · next hc => subst hc; exact h.short (by decide) rfl
  split
  · next hc => subst hc; exact h.short (by decide) rfl
  split
  · next hc => subst hc; exact h.short (by decide) rfl
  split
  · next hc => subst hc; exact h.short (by decide) rfl
  split
  · next hc => subst hc; exact h.short (by decide) rfl
  split
  · next hcontrol =>
    obtain ⟨hhigh, hlow⟩ := digitChar_ascii c.toNat hcontrol
    have hunit := h.unit (codeUnit?_of_control c.toNat hcontrol)
      (Nat.lt_trans hcontrol (by decide))
    rw [Char.ofNat_toNat] at hunit
    rw [Utf8.ofChars_cons_ascii (by decide), Utf8.ofChars_cons_ascii (by decide),
      Utf8.ofChars_cons_ascii (by decide), Utf8.ofChars_cons_ascii (by decide),
      Utf8.ofChars_cons_ascii hhigh, Utf8.ofChars_cons_ascii hlow]
    exact hunit
  next hquote hbackslash _ _ _ _ _ hcontrol =>
  rw [Utf8.ofChars_cons, Utf8.ofChars_nil, List.append_nil]
  by_cases hascii : c.toNat < 0x80
  · rw [Utf8.encodeChar_of_ascii hascii]
    refine h.plain (Utf8.toUInt8_ne hascii (by decide) hquote)
      (Utf8.toUInt8_ne hascii (by decide) hbackslash) ?_
    rw [UInt8.lt_iff_toNat_lt, Utf8.toNat_toUInt8 hascii]
    exact hcontrol
  · exact h.upper fun b hb => Utf8.le_of_mem_encodeChar (Nat.not_lt.mp hascii) hb

/-- The bytes of a string behind its opening quote. -/
def spelled (value : String) : Bytes :=
  Utf8.ofChars (value.toList.flatMap escape) ++ ['"'.toUInt8]

theorem ofChars_printString (value : String) :
    Utf8.ofChars (printString value) = '"'.toUInt8 :: spelled value := by
  rw [printString, Utf8.ofChars_append, Utf8.ofChars_cons_ascii (by decide)]
  rfl

theorem spells_chars (chars : List Char) (rest : Bytes) :
    Spells (Utf8.ofChars (chars.flatMap escape) ++ '"'.toUInt8 :: rest) (Utf8.ofChars chars)
      rest := by
  induction chars with
  | nil => exact .quote rest
  | cons c chars ih =>
    rw [List.flatMap_cons, Utf8.ofChars_append, List.append_assoc, Utf8.ofChars_cons]
    exact ih.escape c

theorem content_ofChars {pieces : List (Piece × Bytes)} {rest : Bytes} {chars : List Char}
    (h : StringText.contentOf .closed rest pieces = .ok (Utf8.ofChars chars)) :
    StringText.content ⟨pieces, .closed, rest⟩ = .ok (String.ofList chars) := by
  refine bind_eq_ok_iff.mpr ⟨_, h, ?_⟩
  rw [Utf8.decode?_ofChars]
  rfl

/-- A printed string is read back as it was. -/
theorem readString_spelled (value : String) (rest : Bytes) :
    readString (spelled value ++ rest) = (.string value, some rest) := by
  obtain ⟨pieces, hsplit, hcontent⟩ := spells_chars value.toList rest
  rw [readString, spelled, List.append_assoc, List.singleton_append, hsplit]
  simp only [content_ofChars hcontent, String.ofList_toList]

end Provision.Json
