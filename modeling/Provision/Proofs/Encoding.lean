import Provision.Text.Utf8

/-! Characters as bytes.

The bytes of a text are those of its characters in a row, `ofChars_append`. A character below
0x80 is one byte, its own number; the bytes of any other character are 0x80 or more, so none of
them looks like a character of the first kind. -/
namespace Provision.Text.Utf8

theorem ofChars_eq_flatMap (chars : List Char) :
    ofChars chars = chars.flatMap String.utf8EncodeChar := by
  simp [ofChars, encode, List.utf8Encode]

@[simp] theorem ofChars_nil : ofChars [] = [] := rfl

theorem ofChars_cons (c : Char) (chars : List Char) :
    ofChars (c :: chars) = String.utf8EncodeChar c ++ ofChars chars := by
  rw [ofChars_eq_flatMap, ofChars_eq_flatMap, List.flatMap_cons]

@[simp] theorem ofChars_append (chars others : List Char) :
    ofChars (chars ++ others) = ofChars chars ++ ofChars others := by
  rw [ofChars_eq_flatMap, ofChars_eq_flatMap, ofChars_eq_flatMap, List.flatMap_append]

/-- What was written as characters reads back as their text. -/
theorem decode?_ofChars (chars : List Char) :
    decode? (ofChars chars) = some (String.ofList chars) :=
  decode?_encode _

theorem ofChars_inj {chars others : List Char} :
    ofChars chars = ofChars others ↔ chars = others := by
  constructor
  · intro h
    have hdecode := decode?_ofChars chars
    rw [h, decode?_ofChars] at hdecode
    exact String.ofList_injective (Option.some.inj hdecode.symm)
  · intro h
    rw [h]

/-! ### One character -/

theorem encodeChar_of_ascii {c : Char} (h : c.toNat < 0x80) :
    String.utf8EncodeChar c = [c.toUInt8] := by
  have hv : c.val.toNat ≤ 0x7f := Nat.le_of_lt_succ h
  simp only [String.utf8EncodeChar, hv, if_true]
  rfl

theorem mem_ofChars_ascii {chars : List Char} (ascii : ∀ c ∈ chars, c.toNat < 0x80) {b : UInt8}
    (h : b ∈ ofChars chars) : ∃ c ∈ chars, b = c.toUInt8 := by
  rw [ofChars_eq_flatMap, List.mem_flatMap] at h
  obtain ⟨c, hc, hb⟩ := h
  rw [encodeChar_of_ascii (ascii c hc), List.mem_singleton] at hb
  exact ⟨c, hc, hb⟩

theorem ofChars_cons_ascii {c : Char} (h : c.toNat < 0x80) (chars : List Char) :
    ofChars (c :: chars) = c.toUInt8 :: ofChars chars := by
  rw [ofChars_cons, encodeChar_of_ascii h]
  rfl

theorem toNat_toUInt8 {c : Char} (h : c.toNat < 0x80) : c.toUInt8.toNat = c.toNat := by
  show c.val.toUInt8.toNat = c.val.toNat
  rw [UInt32.toNat_toUInt8]
  exact Nat.mod_eq_of_lt (Nat.lt_trans h (by decide))

theorem toUInt8_ne {c d : Char} (hc : c.toNat < 0x80) (hd : d.toNat < 0x80) (h : c ≠ d) :
    c.toUInt8 ≠ d.toUInt8 := by
  intro he
  apply h
  rw [← Char.ofNat_toNat c, ← Char.ofNat_toNat d, ← toNat_toUInt8 hc, ← toNat_toUInt8 hd, he]

theorem le_of_mem_encodeChar {c : Char} (h : 0x80 ≤ c.toNat) {b : UInt8}
    (hb : b ∈ String.utf8EncodeChar c) : 0x80 ≤ b := by
  have hv : ¬ c.val.toNat ≤ 0x7f := Nat.not_le.mpr h
  have hmost : ∀ n : Nat, 0x80 ≤ n % 256 → (0x80 : UInt8) ≤ UInt8.ofNat n := by
    intro n hn
    rw [UInt8.le_iff_toNat_le]
    simpa using hn
  simp only [String.utf8EncodeChar, hv, if_false] at hb
  split at hb
  · simp only [List.mem_cons, List.not_mem_nil, or_false] at hb
    rcases hb with rfl | rfl <;> exact hmost _ (by omega)
  · split at hb
    · simp only [List.mem_cons, List.not_mem_nil, or_false] at hb
      rcases hb with rfl | rfl | rfl <;> exact hmost _ (by omega)
    · simp only [List.mem_cons, List.not_mem_nil, or_false] at hb
      rcases hb with rfl | rfl | rfl | rfl <;> exact hmost _ (by omega)

end Provision.Text.Utf8
