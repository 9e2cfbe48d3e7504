import Provision.Genesis.Document
import Provision.Proofs.Decimals

/-! What is written in hexadecimal, read back.

The digits of a number are read as the number, in any base that has digits for it,
`Numeral.read_write`; the digits of bytes are read as the bytes, with the mark and without it,
`Hex.readPairs_digits`. From these come the forms that a document uses: byte strings, words and
addresses of a fixed length, and numbers of 64 and of 256 bits. -/
namespace Provision

namespace Numeral

/-! ### Numbers -/

theorem digitValue?_digitChar : ∀ base ≤ 36, ∀ digit < base,
    digitValue? base (digitChar digit) = some digit := by
  decide +kernel

variable {base : Nat} (two : 2 ≤ base) (digits : base ≤ 36)

include two in
theorem mem_write {value : Nat} : ∀ c ∈ write base value, ∃ digit < base, c = digitChar digit := by
  induction value using Nat.strongRecOn with
  | ind value ih =>
    intro c hc
    rcases Nat.lt_or_ge value base with h | h
    · rw [write_of_lt h, List.mem_singleton] at hc
      exact ⟨value, h, hc⟩
    · rw [write_of_le two h] at hc
      rcases List.mem_append.mp hc with hc | hc
      · exact ih _ (Nat.div_lt_self (by omega) two) c hc
      · exact ⟨_, Nat.mod_lt _ (by omega), List.mem_singleton.mp hc⟩

theorem write_ne_nil (base value : Nat) : write base value ≠ [] := by
  rw [write, writeUpTo]
  split <;> simp

theorem readDigits_append {limit start : Nat} (front rest : List Char) :
    readDigits base limit start (front ++ rest) =
      (readDigits base limit start front >>= fun value => readDigits base limit value rest) := by
  induction front generalizing start with
  | nil => rfl
  | cons c front ih =>
    rw [List.cons_append, readDigits, readDigits]
    cases digitValue? base c with
    | none => rfl
    | some digit =>
      dsimp only
      split
      · rfl
      · exact ih

include digits in
theorem readDigits_one {limit start digit : Nat} (h : digit < base)
    (room : start * base + digit < limit) :
    readDigits base limit start [digitChar digit] = .ok (start * base + digit) := by
  rw [readDigits, digitValue?_digitChar base digits digit h]
  dsimp only
  rw [if_neg (Nat.not_le.mpr room)]
  rfl

include two digits

/-- The digits of a number that there is room for are read as the number. -/
theorem readDigits_write {limit value : Nat} (room : value < limit) :
    readDigits base limit 0 (write base value) = .ok value := by
  induction value using Nat.strongRecOn with
  | ind value ih =>
    rcases Nat.lt_or_ge value base with h | h
    · have hone : readDigits base limit 0 [digitChar value] = .ok (0 * base + value) :=
        readDigits_one digits h (by omega)
      rw [Nat.zero_mul, Nat.zero_add] at hone
      rw [write_of_lt h, hone]
    · have hless : value / base < value := Nat.div_lt_self (by omega) two
      have hmod : value % base < base := Nat.mod_lt _ (by omega)
      have hwhole : value / base * base + value % base = value := Nat.div_add_mod' value base
      have hone : readDigits base limit (value / base) [digitChar (value % base)] =
          .ok (value / base * base + value % base) :=
        readDigits_one digits hmod (by rw [hwhole]; exact room)
      rw [write_of_le two h, readDigits_append, ih _ hless (Nat.lt_trans hless room)]
      rw [hwhole] at hone
      exact hone

/-- No digit is a sign, so none is taken off. -/
theorem read_write {limit value : Nat} (room : value < limit) :
    read base limit (write base value) = .ok value := by
  rw [read.eq_def]
  have hplus : ∀ digit < 36, digitChar digit ≠ '+' := by decide
  have hsign : ∀ rest, write base value ≠ '+' :: rest := by
    intro rest he
    obtain ⟨digit, hdigit, hc⟩ := mem_write two '+' (he ▸ List.mem_cons_self ..)
    exact hplus digit (by omega) hc.symm
  split
  · next he => exact absurd he (write_ne_nil base value)
  · next he => exact absurd he (hsign _)
  · next he => exact absurd he (hsign _)
  · exact readDigits_write two digits room

omit two digits in
theorem readUInt64_decimal (number : UInt64) :
    readUInt64 (decimal number.toNat) = .ok number := by
  rw [readUInt64, decimal, read_write (by decide) (by decide) number.toNat_lt_size]
  exact congrArg Except.ok UInt64.ofNat_toNat

end Numeral

/-! ### Bytes -/

namespace Bytes.Hex
open Numeral Text

theorem pair_value (byte : UInt8) :
    digitValue? 16 (digitChar (byte.toNat / 16)) = some (byte.toNat / 16) ∧
      digitValue? 16 (digitChar (byte.toNat % 16)) = some (byte.toNat % 16) := by
  have hbyte : byte.toNat < 256 := byte.toNat_lt
  exact ⟨digitValue?_digitChar 16 (by decide) _ (by omega),
    digitValue?_digitChar 16 (by decide) _ (by omega)⟩

theorem readPairs_digits (position : Nat) (bytes : Bytes) :
    readPairs position (digits bytes) = .ok bytes := by
  induction bytes generalizing position with
  | nil => rfl
  | cons byte rest ih =>
    obtain ⟨hhigh, hlow⟩ := pair_value byte
    have hwhole : byte.toNat / 16 * 16 + byte.toNat % 16 = byte.toNat := Nat.div_add_mod' _ _
    have hcons : digits (byte :: rest) =
        digitChar (byte.toNat / 16) :: digitChar (byte.toNat % 16) :: digits rest := rfl
    rw [hcons, readPairs, hhigh, hlow]
    dsimp only
    rw [ih, hwhole, UInt8.ofNat_toNat]
    rfl

theorem length_digits (bytes : Bytes) : (digits bytes).length = 2 * bytes.length := by
  induction bytes with
  | nil => rfl
  | cons byte rest ih =>
    have hcons : (digits (byte :: rest)).length = (digits rest).length + 2 := rfl
    rw [hcons, ih, List.length_cons]
    omega

theorem mem_digits (bytes : Bytes) : ∀ c ∈ digits bytes, ∃ digit < 16, c = digitChar digit := by
  intro c hc
  obtain ⟨byte, -, hc⟩ := List.mem_flatMap.mp hc
  have hbyte : byte.toNat < 256 := byte.toNat_lt
  rcases List.mem_cons.mp hc with rfl | hc
  · exact ⟨_, by omega, rfl⟩
  · exact ⟨_, by omega, List.mem_singleton.mp hc⟩

theorem ascii_digits (bytes : Bytes) : ∀ c ∈ digits bytes, c.toNat < 0x80 := by
  intro c hc
  obtain ⟨digit, hdigit, rfl⟩ := mem_digits bytes c hc
  have hascii : ∀ digit < 16, (digitChar digit).toNat < 0x80 := by decide
  exact hascii digit hdigit

/-- The mark is no pair of digits. -/
theorem stripMark_digits (bytes : Bytes) : stripMark (digits bytes) = digits bytes := by
  have hmark : ∀ digit < 16, digitChar digit ≠ 'x' ∧ digitChar digit ≠ 'X' := by decide
  have hdigit : ∀ c ∈ digits bytes, c ≠ 'x' ∧ c ≠ 'X' := by
    intro c hc
    obtain ⟨digit, hd, rfl⟩ := mem_digits bytes c hc
    exact hmark digit hd
  rw [stripMark.eq_def]
  split
  · next he => exact absurd rfl (hdigit 'x' (he ▸ by simp)).1
  · next he => exact absurd rfl (hdigit 'X' (he ▸ by simp)).2
  · rfl

/-- Text without special characters shows its bytes as they are. -/
theorem latin_of_ascii {text : List Char} (ascii : ∀ c ∈ text, c.toNat < 0x80) :
    Utf8.latin text = text := by
  induction text with
  | nil => rfl
  | cons c rest ih =>
    have hc := ascii c (List.mem_cons_self ..)
    have hrest := ih fun other ho => ascii other (List.mem_cons_of_mem _ ho)
    rw [Utf8.latin, List.flatMap_cons, Utf8.encodeChar_of_ascii hc, List.map_append,
      List.map_singleton, Utf8.toNat_toUInt8 hc, Char.ofNat_toNat]
    exact congrArg (c :: ·) hrest

theorem latin_encode (bytes : Bytes) : Utf8.latin (encode bytes) = encode bytes := by
  refine latin_of_ascii fun c hc => ?_
  rcases List.mem_cons.mp hc with rfl | hc
  · decide
  · rcases List.mem_cons.mp hc with rfl | hc
    · decide
    · exact ascii_digits bytes c hc

theorem decode?_encode (bytes : Bytes) : decode? (encode bytes) = some bytes := by
  have hlength : (digits bytes).length % 2 = 0 := by
    rw [length_digits]
    omega
  have hstrip : stripMark (encode bytes) = digits bytes := rfl
  rw [decode?, latin_encode, hstrip, if_pos hlength, readPairs_digits]
  rfl

variable {size : Nat} (word : Fixed size)

/-- What is left to read when the length is right. -/
theorem decodeFixed_of_strip {text : List Char} (ascii : Utf8.latin text = text)
    (even : text.length % 2 = 0) (hstrip : stripMark text = digits word.bytes) :
    decodeFixed size text = .ok word := by
  have hlength : (digits word.bytes).length = 2 * size := by
    rw [length_digits, word.length_eq]
  rw [decodeFixed, ascii, if_neg (by omega), hstrip, if_pos hlength, readPairs_digits]
  simp

theorem decodeFixed_encode : decodeFixed size (encode word.bytes) = .ok word := by
  refine decodeFixed_of_strip word (latin_encode word.bytes) ?_ rfl
  have hlength : (encode word.bytes).length = (digits word.bytes).length + 2 := rfl
  rw [hlength, length_digits]
  omega

theorem decodeFixed_digits : decodeFixed size (digits word.bytes) = .ok word := by
  refine decodeFixed_of_strip word (latin_of_ascii (ascii_digits word.bytes)) ?_
    (stripMark_digits word.bytes)
  rw [length_digits]
  omega

end Bytes.Hex

/-! ### The forms of a document -/

open Bytes Numeral Text

theorem Fixed.ofText_toText {size : Nat} (word : Fixed size) : ofText word.toText = .ok word := by
  rw [ofText, toText, String.toList_ofList, Hex.decodeFixed_encode]

theorem Fixed.toText_injective {size : Nat} :
    Function.Injective (toText : Fixed size → String) := by
  intro a b h
  have hread := ofText_toText a
  rw [h, ofText_toText b] at hread
  exact (Except.ok.inj hread).symm

/-- A word that is written with all its digits is not filled up. -/
theorem Word.parse_encode (word : Word) : Word.parse (Hex.encode word.bytes) = .ok word := by
  have hlength : (Hex.digits word.bytes).length = 64 := by
    rw [Hex.length_digits, word.length_eq]
  have hsize : Utf8.length (Hex.digits word.bytes) = 64 := by
    rw [Utf8.length, List.map_congr_left (g := fun _ => 1), List.map_const', hlength]
    · rfl
    · intro c hc
      have hascii := Hex.ascii_digits word.bytes c hc
      exact Char.utf8Size_eq_one_iff.mpr (Nat.le_of_lt_succ hascii)
  have hstrip : Hex.stripMark (Hex.encode word.bytes) = Hex.digits word.bytes := rfl
  have hpad : Word.pad (Hex.digits word.bytes) = Hex.digits word.bytes := by
    rw [Word.pad, hlength]
    rfl
  rw [Word.parse, hstrip, hpad, if_neg (by omega), Hex.decodeFixed_digits]

theorem Storage.readWord_toText (word : Word) : readWord word.toText = .ok word := by
  rw [readWord, Fixed.toText, String.toList_ofList, Word.parse_encode]

theorem Quantity.parse_print (value : UInt64) : parse (print value) = .ok value := by
  have hdigits : markedDigits? (print value) = some (Numeral.write 16 value.toNat) := rfl
  have hread : readDigits 16 (Numeral.write 16 value.toNat) = .ok value := by
    rw [readDigits, read_write (by decide) (by decide) value.toNat_lt]
    exact congrArg Except.ok UInt64.ofNat_toNat
  rw [parse, hdigits]
  split
  · next he => exact absurd (Option.some.inj he) (write_ne_nil _ _)
  · next he =>
    cases he
    exact hread
  · next he => cases he

theorem UInt256.parse?_print (value : UInt256) : parse? (print value) = some value := by
  have hbase : base (print value) = (16, Numeral.write 16 value.toNat) := rfl
  have hline : ∀ digit < 16, digitChar digit ≠ '_' := by decide
  have hfilter : (Numeral.write 16 value.toNat).filter (· ≠ '_') =
      Numeral.write 16 value.toNat := by
    refine List.filter_eq_self.mpr fun c hc => ?_
    obtain ⟨digit, hdigit, rfl⟩ := mem_write (by decide) c hc
    exact decide_eq_true (hline digit hdigit)
  have hroom : value.toNat < 1 <<< 256 := value.isLt
  rw [parse?, hbase]
  dsimp only
  rw [hfilter, readDigits_write (by decide) (by decide) hroom]
  simp

end Provision
