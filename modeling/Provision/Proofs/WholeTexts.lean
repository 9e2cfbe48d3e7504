import Provision.Proofs.Layouts
import Provision.Proofs.Spanning
import Provision.Proofs.Striking

/-! Texts that hold one value.

A decoder that strikes nothing out reads a text exactly if one tree fills it and the decoder takes
that tree, `Decoder.decode_eq_ok_iff`. For a natural number the tree says what the text is, byte by
byte: `fills_natural_iff` leaves nothing but the decimal of the number, with blanks around it, so
no other number has this text and no other notation is read as a natural number. -/
namespace Provision.Json
open Text

/-- The tree stands in the text, and behind it there are only blanks. -/
def Tree.Fills (tree : Tree) (text : Bytes) : Prop :=
  ∃ rest, tree.Spans text rest ∧ skipBlank rest = []

/-- The literal stands in the text, with nothing but blanks around it. -/
def Alone (literal text : Bytes) : Prop :=
  ∃ before after, text = before ++ literal ++ after ∧ (∀ b ∈ before, isBlank b = true) ∧
    ∀ b ∈ after, isBlank b = true

theorem skipBlank_eq_nil_iff {text : Bytes} :
    skipBlank text = [] ↔ ∀ b ∈ text, isBlank b = true :=
  List.dropWhile_eq_nil_iff

/-- A literal that begins with no blank is what is left when the blanks are skipped. -/
theorem alone_iff {literal text : Bytes} (hne : literal ≠ [])
    (hhead : ∀ b ∈ literal.head?, isBlank b = false) :
    Alone literal text ↔ ∃ rest, skipBlank text = literal ++ rest ∧ skipBlank rest = [] := by
  constructor
  · rintro ⟨before, after, rfl, hbefore, hafter⟩
    refine ⟨after, ?_, skipBlank_eq_nil_iff.mpr hafter⟩
    rw [List.append_assoc]
    refine skipBlank_append hbefore fun b hb => hhead b ?_
    rwa [List.head?_append_of_ne_nil _ hne] at hb
  · rintro ⟨rest, hskip, hrest⟩
    refine ⟨text.takeWhile isBlank, rest, ?_, fun b hb => List.mem_takeWhile_imp hb,
      skipBlank_eq_nil_iff.mp hrest⟩
    rw [List.append_assoc, ← hskip]
    exact List.takeWhile_append_dropWhile.symm

/-! ### Decoders that strike nothing out -/

section Decode

variable {α : Type} {decoder : Decoder α} {text : Bytes}

theorem decode_of_fills {tree : Tree} (h : tree.Fills text) {value : α}
    (hread : decoder mostDepth tree = .ok value) : decode decoder text = .ok value := by
  obtain ⟨rest, hspans, hrest⟩ := h
  have hends : endsAfter (some rest) = true := List.isEmpty_iff.mpr hrest
  rw [decode, decodeStriking.eq_def]
  simp only [readTree_eq_some_iff.mpr hspans, hread, hends, if_true]

theorem decode_mismatch_of_fills {tree : Tree} (h : tree.Fills text) {mismatch : Mismatch}
    (hread : decoder mostDepth tree = .error (.mismatch mismatch)) :
    decode decoder text = .error (.mismatch mismatch) := by
  obtain ⟨rest, hspans, -⟩ := h
  rw [decode, decodeStriking.eq_def]
  simp only [readTree_eq_some_iff.mpr hspans, hread]

/-- The text is read exactly if the tree that fills it is. -/
theorem Decoder.decode_eq_ok_iff (calm : decoder.Calm fun _ => True) {value : α} :
    decode decoder text = .ok value ↔
      ∃ tree : Tree, tree.Fills text ∧ decoder mostDepth tree = .ok value := by
  constructor
  · intro h
    obtain ⟨hread, rest, hrest, hblank⟩ := decodeStriking_calm (calm _ _ trivial) h
    have htree : readTree text = ((readTree text).1, some rest) := Prod.ext rfl hrest
    exact ⟨_, ⟨rest, readTree_eq_some_iff.mp htree, hblank⟩, hread⟩
  · rintro ⟨tree, hfills, hread⟩
    exact decode_of_fills hfills hread

end Decode

/-! ### The word for no value -/

theorem readString_plain {text rest : Bytes} {tree : Tree}
    (h : readString text = (tree, some rest)) :
    (∃ value, tree = .string value) ∨ ∃ f passing reach, tree = .broken f passing reach := by
  rw [readString] at h
  dsimp only at h
  split at h
  · cases h
    exact .inl ⟨_, rfl⟩
  · obtain ⟨rfl, -⟩ := Prod.mk.inj h
    exact .inr ⟨_, _, _, rfl⟩

theorem readNumber_cases {text rest : Bytes} {tree : Tree}
    (h : readNumber text = (tree, some rest)) :
    (∃ number value, NumberText.split text = .ok (number, rest) ∧ number.value = .ok value ∧
      tree = .number value) ∨ ∃ f passing reach, tree = .broken f passing reach := by
  rw [readNumber] at h
  split at h
  · cases h
  next number behind hsplit =>
  split at h
  · next value hvalue =>
    cases h
    exact .inl ⟨number, value, hsplit, hvalue, rfl⟩
  · cases h
    exact .inr ⟨_, _, _, rfl⟩

def nullWord : Bytes := ['n'.toUInt8, 'u'.toUInt8, 'l'.toUInt8, 'l'.toUInt8]

theorem fills_null_iff {text : Bytes} : Tree.null.Fills text ↔ Alone nullWord text := by
  have hhead : ∀ b ∈ nullWord.head?, isBlank b = false := by
    rintro _ ⟨⟩
    rfl
  rw [alone_iff (show nullWord ≠ [] from List.cons_ne_nil _ _) hhead]
  refine exists_congr fun rest => and_congr_left fun _ => ?_
  constructor
  · intro h
    have htoken : Token (skipBlank text) .null rest := h
    generalize skipBlank text = front at htoken
    cases htoken with
    | nullWord => rfl
    | string hread =>
      rcases readString_plain hread with ⟨_, h⟩ | ⟨_, _, _, h⟩ <;> cases h
    | number _ hread =>
      rcases readNumber_cases hread with ⟨_, _, _, _, h⟩ | ⟨_, _, _, h⟩ <;> cases h
  · intro h
    have htoken : Token (skipBlank text) .null rest := h ▸ .nullWord rest
    exact htoken

/-! ### Natural numbers -/

theorem le_dropped (significand dropped : Nat) (digits : Bytes) :
    dropped ≤ (takeWhole significand dropped digits).2 := by
  induction digits generalizing significand dropped with
  | nil => exact le_refl _
  | cons b digits ih =>
    rw [takeWhole]
    split
    · next h =>
      rw [h.1]
      exact Nat.zero_le _
    · exact (Nat.le_succ _).trans (ih _ _)

/-- Where no digit is dropped, all of them are in the significand. -/
theorem numberOf_of_takeWhole {significand number : Nat} {digits : Bytes}
    (h : takeWhole significand 0 digits = (number, 0)) : numberOf significand digits = number := by
  induction digits generalizing significand with
  | nil => exact (Prod.mk.inj h).1
  | cons b digits ih =>
    rw [takeWhole] at h
    split at h
    · exact ih h
    · have hdropped := le_dropped significand 1 digits
      rw [h] at hdropped
      exact absurd hdropped (Nat.not_succ_le_zero 0)

theorem takeWhole_lt {significand number : Nat} {digits : Bytes}
    (room : significand < significandBound) (h : takeWhole significand 0 digits = (number, 0)) :
    number < significandBound := by
  induction digits generalizing significand with
  | nil => exact (Prod.mk.inj h).1 ▸ room
  | cons b digits ih =>
    rw [takeWhole] at h
    split at h
    · next hnext => exact ih hnext.2 h
    · have hdropped := le_dropped significand 1 digits
      rw [h] at hdropped
      exact absurd hdropped (Nat.not_succ_le_zero 0)

/-- A number that is read as a natural one has no sign, no point and no exponent, and its digits
are the number, which is one of 64 bits. -/
theorem NumberText.natural_of_value {number : NumberText} {value : UInt64}
    (h : number.value = .ok (.natural value)) : number.negative = false ∧ number.fraction = [] ∧
      number.exponent = none ∧ numberOf 0 number.whole = value.toNat := by
  have hfloat : ∀ {negative significand exponent}, NumberText.float negative significand exponent ≠
      .ok (.natural value) := by
    intro negative significand exponent h
    unfold NumberText.float at h
    split at h <;> cases h
  unfold NumberText.value at h
  obtain ⟨whole, dropped, htake⟩ : ∃ whole dropped, takeWhole 0 0 number.whole = (whole, dropped) :=
    ⟨_, _, rfl⟩
  rw [htake] at h
  dsimp only at h
  split at h
  · next hplain =>
    obtain ⟨hfraction, hexponent, rfl⟩ := hplain
    have hroom := takeWhole_lt (by decide) htake
    have hnumber := numberOf_of_takeWhole htake
    split at h
    · split at h
      · cases h
      · exact absurd h hfloat
    · next hnegative =>
      cases h
      refine ⟨Bool.eq_false_of_not_eq_true hnegative, List.isEmpty_iff.mp hfraction,
        Option.isNone_iff_eq_none.mp hexponent, ?_⟩
      rw [hnumber, UInt64.toNat_ofNat_of_lt' hroom]
  · exact absurd h hfloat

theorem digitOf_lt {b : UInt8} (h : isDigit b = true) : ∃ digit < 10,
    digitOf b = digit ∧ Utf8.ofChars [Numeral.digitChar digit] = [b] := by
  have hall : ∀ code < 256, isDigit (UInt8.ofNat code) = true → ∃ digit < 10,
      digitOf (UInt8.ofNat code) = digit ∧
        Utf8.ofChars [Numeral.digitChar digit] = [UInt8.ofNat code] := by
    decide +kernel
  have hb := hall b.toNat b.toNat_lt
  rw [UInt8.ofNat_toNat] at hb
  exact hb h

/-- Digits without a zero in front are the decimal of their number. -/
theorem IsWhole.eq_decimal {digits : Bytes} (h : IsWhole digits) :
    digits = Utf8.ofChars (Numeral.decimal (numberOf 0 digits)) := by
  induction digits using List.reverseRecOn with
  | nil => exact absurd rfl h.ne_nil
  | append_singleton front b ih =>
    obtain ⟨digit, hdigit, hb, hchar⟩ :=
      digitOf_lt (h.isDigit b (List.mem_append_right _ (List.mem_singleton_self b)))
    rw [numberOf_append, numberOf_cons, numberOf_nil, hb]
    cases front with
    | nil =>
      rw [numberOf_nil, Nat.zero_mul, Nat.zero_add, Numeral.decimal_of_lt hdigit, hchar,
        List.nil_append]
    | cons first front =>
      have hfront : IsWhole (first :: front) := by
        refine ⟨List.cons_ne_nil _ _, fun c hc => h.isDigit c (List.mem_append_left _ hc), ?_⟩
        intro hzero
        have hlength := h.head hzero
        simp only [List.cons_append, List.length_cons, List.length_append] at hlength
        omega
      have hpos : 0 < numberOf 0 (first :: front) := by
        by_contra hnot
        have hwritten := ih hfront
        rw [Nat.eq_zero_of_not_pos hnot] at hwritten
        obtain ⟨rfl, rfl⟩ := List.cons.inj hwritten
        have hlength := h.head rfl
        cases hlength
      rw [Numeral.decimal_of_le (by omega), show (numberOf 0 (first :: front) * 10 + digit) / 10 =
        numberOf 0 (first :: front) by omega, show (numberOf 0 (first :: front) * 10 + digit) % 10 =
          digit by omega, Utf8.ofChars_append, ← ih hfront, hchar]

theorem someDigits_eq_ok {stop text digits rest : Bytes}
    (h : someDigits stop text = .ok (digits, rest)) : text = digits ++ rest ∧ digits ≠ [] := by
  have hsome := someDigits_toOption stop text
  rw [h] at hsome
  split at hsome
  · cases hsome
  next hne =>
  obtain ⟨rfl, rfl⟩ := Prod.mk.inj (Option.some.inj hsome)
  refine ⟨List.takeWhile_append_dropWhile.symm, fun hnil => hne ?_⟩
  rw [hnil]
  rfl

theorem isWhole_of_splitWhole {text digits rest : Bytes}
    (h : splitWhole text = .ok (digits, rest)) : text = digits ++ rest ∧ IsWhole digits := by
  obtain ⟨⟨front, behind⟩, hdigits, h⟩ := bind_eq_ok_iff.mp h
  dsimp only at h
  split at h
  · cases h
  next hzero =>
  cases h
  obtain ⟨htext, hne⟩ := someDigits_eq_ok hdigits
  exact ⟨htext, hne, isDigit_of_someDigits hdigits,
    fun hhead => Decidable.not_not.mp fun hlength => hzero ⟨hhead, hlength⟩⟩

theorem eq_of_splitFraction {text rest : Bytes} (h : splitFraction text = .ok ([], rest)) :
    text = rest := by
  cases text with
  | nil =>
    cases h
    rfl
  | cons b text =>
    rw [splitFraction] at h
    split at h
    · exact absurd rfl (someDigits_eq_ok h).2
    · cases h
      rfl

theorem eq_of_splitExponent {text rest : Bytes} (h : splitExponent text = .ok (none, rest)) :
    text = rest := by
  cases text with
  | nil =>
    cases h
    rfl
  | cons b text =>
    rw [splitExponent] at h
    split at h
    · obtain ⟨_, -, h⟩ := bind_eq_ok_iff.mp h
      cases h
    · cases h
      rfl

/-- A natural number that is read stands in the text in decimal. -/
theorem eq_decimal_of_readNumber {text rest : Bytes} {value : UInt64}
    (h : readNumber text = (.number (.natural value), some rest)) :
    text = Utf8.ofChars (Numeral.decimal value.toNat) ++ rest := by
  obtain ⟨number, _, hsplit, hvalue, ⟨⟩⟩ | ⟨_, _, _, ⟨⟩⟩ := readNumber_cases h
  obtain ⟨hnegative, hfraction, hexponent, hnumber⟩ := NumberText.natural_of_value hvalue
  obtain ⟨hsign, point, mark, hwhole, hpoint, hmark⟩ := NumberText.split_eq_ok_iff.mp hsplit
  rw [if_neg (of_decide_eq_false (hsign.symm.trans hnegative))] at hwhole
  rw [hfraction] at hpoint
  rw [hexponent] at hmark
  obtain ⟨htext, hdigits⟩ := isWhole_of_splitWhole hwhole
  have hdecimal := hdigits.eq_decimal
  rw [hnumber] at hdecimal
  rw [htext, eq_of_splitFraction hpoint, eq_of_splitExponent hmark, ← hdecimal]

theorem isNumberByte_of_isBlank {b : UInt8} (h : isBlank b = true) : isNumberByte b = false := by
  simp only [isBlank, Bool.or_eq_true, decide_eq_true_eq] at h
  rcases h with ((rfl | rfl) | rfl) | rfl <;> rfl

theorem readNumber_decimal {rest : Bytes} (hrest : skipBlank rest = []) (value : UInt64) :
    readNumber (Utf8.ofChars (Numeral.decimal value.toNat) ++ rest) =
      (.number (.natural value), some rest) := by
  have ends : EndsNumber rest := fun b hb =>
    isNumberByte_of_isBlank (skipBlank_eq_nil_iff.mp hrest b (List.mem_of_head? hb))
  have hsame := reread_natural value
  rcases readNumber_print ends (.natural value) with ⟨_, hagain, hread⟩ | ⟨hnone, -⟩
  · cases hagain.symm.trans hsame
    exact hread
  · cases hnone.symm.trans hsame

theorem fills_natural_iff {text : Bytes} {value : UInt64} :
    (Tree.number (.natural value)).Fills text ↔
      Alone (Utf8.ofChars (Numeral.decimal value.toNat)) text := by
  have hwritten := Numeral.isDecimal_decimal value.toNat
  have hdigit := isDigit_of_mem_digits hwritten.isDigit
  have hne : Utf8.ofChars (Numeral.decimal value.toNat) ≠ [] := by
    obtain ⟨first, rest, hdigits, hfirst, -⟩ := hwritten.head
    rw [hdigits, Utf8.ofChars_cons_ascii (isDigit_digitChar first hfirst).1]
    exact List.cons_ne_nil _ _
  have hblank : ∀ b, isDigit b = true → isBlank b = false := by
    intro b hb
    by_contra hnot
    have hnumber := isNumberByte_of_isBlank (Bool.eq_true_of_not_eq_false hnot)
    exact Bool.false_ne_true ((isNumberByte_eq_false_iff.mp hnumber).1.symm.trans hb)
  rw [alone_iff hne fun b hb => hblank b (hdigit b (List.mem_of_head? hb))]
  refine exists_congr fun rest => and_congr_left fun hrest => ?_
  constructor
  · intro h
    have htoken : Token (skipBlank text) (.number (.natural value)) rest := h
    generalize skipBlank text = front at htoken
    cases htoken with
    | string hread =>
      rcases readString_plain hread with ⟨_, h⟩ | ⟨_, _, _, h⟩ <;> cases h
    | number _ hread => exact eq_decimal_of_readNumber hread
  · intro h
    have hread := readNumber_decimal hrest value
    rw [← h] at hread
    obtain ⟨b, digits, hdigits⟩ := List.exists_cons_of_ne_nil hne
    rw [hdigits, List.cons_append] at h
    rw [h] at hread
    have hfirst : (b = '-'.toUInt8 || isDigit b) = true := by
      rw [hdigit b (hdigits ▸ List.mem_cons_self ..), Bool.or_true]
    have htoken : Token (skipBlank text) (.number (.natural value)) rest :=
      h ▸ Token.number hfirst hread
    exact htoken

end Provision.Json
