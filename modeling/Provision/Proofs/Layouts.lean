import Mathlib.Data.List.TakeWhile
import Provision.Proofs.Shortest
import Provision.Proofs.Tokens

/-! A number of double precision, written and read back.

Whichever notation its digits are laid out in, they are read as the same decimal again,
`denotes_plain` and `denotes_scientific`. That decimal is near the number, so it is not too large
either, and what comes of it is a number of double precision: `exists_reread`. -/
namespace Provision

namespace Json
open Text

/-! ### The number that digits stand for -/

/-- The number that digits stand for behind those of another number. -/
def numberOf (value : Nat) (digits : Bytes) : Nat :=
  digits.foldl (fun (value : Nat) b => value * 10 + digitOf b) value

@[simp] theorem numberOf_nil (value : Nat) : numberOf value [] = value := rfl

@[simp] theorem numberOf_cons (value : Nat) (b : UInt8) (digits : Bytes) :
    numberOf value (b :: digits) = numberOf (value * 10 + digitOf b) digits :=
  List.foldl_cons ..

@[simp] theorem numberOf_append (value : Nat) (digits others : Bytes) :
    numberOf value (digits ++ others) = numberOf (numberOf value digits) others :=
  List.foldl_append ..

theorem le_numberOf (value : Nat) (digits : Bytes) : value ≤ numberOf value digits := by
  induction digits generalizing value with
  | nil => exact le_refl _
  | cons b digits ih =>
    rw [numberOf_cons]
    exact le_trans (by omega) (ih _)

theorem numberOf_zeros (value count : Nat) :
    numberOf value (List.replicate count '0'.toUInt8) = value * 10 ^ count := by
  induction count generalizing value with
  | zero => simp
  | succ count ih =>
    rw [List.replicate_succ, numberOf_cons, ih, show digitOf '0'.toUInt8 = 0 by decide,
      Nat.pow_succ]
    ring

theorem numberOf_decimal {value : Nat} {digits : List Char} (h : Numeral.IsDecimal value digits) :
    numberOf 0 (Utf8.ofChars digits) = value := by
  induction h with
  | @one digit hdigit =>
    obtain ⟨hascii, -, hvalue⟩ := isDigit_digitChar digit hdigit
    rw [Utf8.ofChars_cons_ascii hascii, Utf8.ofChars_nil, numberOf_cons, hvalue]
    simp
  | @more value digit digits _ _ hdigit ih =>
    obtain ⟨hascii, -, hvalue⟩ := isDigit_digitChar digit hdigit
    rw [Utf8.ofChars_append, numberOf_append, ih, Utf8.ofChars_cons_ascii hascii,
      Utf8.ofChars_nil, numberOf_cons, hvalue, numberOf_nil]

theorem takeWhole_of_room {value : Nat} {digits : Bytes}
    (room : numberOf value digits < significandBound) :
    takeWhole value 0 digits = (numberOf value digits, 0) := by
  induction digits generalizing value with
  | nil => rfl
  | cons b digits ih =>
    rw [numberOf_cons] at room ⊢
    have hnext := lt_of_le_of_lt (le_numberOf _ digits) room
    rw [takeWhole, if_pos ⟨rfl, hnext⟩, ih room]

theorem takeFraction_of_room {value : Nat} {digits : Bytes} (taken : Nat)
    (room : numberOf value digits < significandBound) :
    takeFraction value taken digits = (numberOf value digits, taken + digits.length) := by
  induction digits generalizing value taken with
  | nil => rfl
  | cons b digits ih =>
    rw [numberOf_cons] at room ⊢
    have hnext := lt_of_le_of_lt (le_numberOf _ digits) room
    rw [takeFraction, if_pos hnext, ih _ room, List.length_cons]
    congr 1
    omega

/-- A number with a decimal point or an exponent, when there is room for all its digits. -/
theorem NumberText.value_of_room {number : NumberText}
    (hmark : number.fraction ≠ [] ∨ number.exponent ≠ none)
    (room : numberOf 0 (number.whole ++ number.fraction) < significandBound) :
    number.value = NumberText.float number.negative (numberOf 0 (number.whole ++ number.fraction))
      (number.decimalExponent - number.fraction.length) := by
  rw [numberOf_append] at room ⊢
  have hwhole := takeWhole_of_room (lt_of_le_of_lt (le_numberOf _ number.fraction) room)
  have hfraction := takeFraction_of_room 0 room
  have hnot : ¬ (number.fraction.isEmpty = true ∧ number.exponent.isNone = true ∧ 0 = 0) := by
    rintro ⟨hempty, hnone, -⟩
    rcases hmark with h | h
    · exact h (List.isEmpty_iff.mp hempty)
    · exact h (Option.isNone_iff_eq_none.mp hnone)
  rw [NumberText.value, hwhole]
  dsimp only
  rw [if_neg hnot, hfraction]
  dsimp only
  congr 1
  omega

/-! ### The parts of a number -/

theorem someDigits_front {digits rest : Bytes} (stop : Bytes) (hne : digits ≠ [])
    (hdigits : ∀ b ∈ digits, isDigit b = true) (hrest : ∀ b ∈ rest.head?, isDigit b = false) :
    someDigits stop (digits ++ rest) = .ok (digits, rest) := by
  have hend : rest.takeWhile isDigit = [] ∧ rest.dropWhile isDigit = rest := by
    cases rest with
    | nil => exact ⟨rfl, rfl⟩
    | cons b rest => simp [hrest b rfl]
  refine eq_ok_of_toOption ?_
  rw [someDigits_toOption, List.takeWhile_append_of_pos hdigits,
    List.dropWhile_append_of_pos hdigits, hend.1, hend.2, List.append_nil,
    if_neg (by simpa using hne)]

/-- Digits that may stand before a decimal point. -/
structure IsWhole (digits : Bytes) : Prop where
  ne_nil : digits ≠ []
  isDigit : ∀ b ∈ digits, isDigit b = true
  head : digits.head? = some '0'.toUInt8 → digits.length = 1

theorem IsWhole.split {digits rest : Bytes} (h : IsWhole digits)
    (hrest : ∀ b ∈ rest.head?, Json.isDigit b = false) :
    splitWhole (digits ++ rest) = .ok (digits, rest) := by
  refine bind_eq_ok_iff.mpr ⟨(digits, rest), someDigits_front _ h.ne_nil h.isDigit hrest, ?_⟩
  dsimp only
  rw [if_neg fun hzero => hzero.2 (h.head hzero.1)]
  rfl

/-- A decimal point and the digits behind it, if there are any. -/
def pointed (digits : Bytes) : Bytes :=
  match digits with
  | [] => []
  | digits => '.'.toUInt8 :: digits

theorem splitFraction_pointed {digits rest : Bytes} (hdigits : ∀ b ∈ digits, isDigit b = true)
    (hrest : ∀ b ∈ rest.head?, isDigit b = false ∧ b ≠ '.'.toUInt8) :
    splitFraction (pointed digits ++ rest) = .ok (digits, rest) := by
  cases digits with
  | nil =>
    cases rest with
    | nil => rfl
    | cons b rest =>
      show splitFraction (b :: rest) = _
      rw [splitFraction, if_neg (hrest b rfl).2]
  | cons b digits =>
    show splitFraction ('.'.toUInt8 :: (b :: digits ++ rest)) = _
    rw [splitFraction, if_pos rfl]
    exact someDigits_front _ (List.cons_ne_nil b digits) hdigits fun b hb => (hrest b hb).1

theorem NumberText.unsigned {whole fraction mark : Bytes} {exponent : Option (Bool × Bytes)}
    (hwhole : IsWhole whole) (hfraction : ∀ b ∈ fraction, isDigit b = true)
    (hexponent : splitExponent mark = .ok (exponent, []))
    (hmark : ∀ b ∈ mark.head?, isDigit b = false ∧ b ≠ '.'.toUInt8) (negative : Bool) :
    Unsigned ⟨negative, whole, fraction, exponent⟩ (whole ++ (pointed fraction ++ mark)) [] := by
  refine ⟨pointed fraction ++ mark, mark, hwhole.split ?_, splitFraction_pointed hfraction hmark,
    hexponent⟩
  cases fraction with
  | nil => exact fun b hb => (hmark b hb).1
  | cons b fraction =>
    rintro _ ⟨⟩
    decide

/-- A text without a sign that is read as a significand times a power of ten. -/
structure Denotes (text : Bytes) (significand : Nat) (exponent : Int) : Prop where
  sign : text.head? ≠ some '-'.toUInt8
  number : ∀ negative, ∃ number : NumberText, number.negative = negative ∧
    number.Unsigned text [] ∧ number.value = NumberText.float negative significand exponent

theorem denotes_of_room {whole fraction mark : Bytes} {exponent : Option (Bool × Bytes)}
    (hwhole : IsWhole whole) (hfraction : ∀ b ∈ fraction, isDigit b = true)
    (hexponent : splitExponent mark = .ok (exponent, []))
    (hmark : ∀ b ∈ mark.head?, isDigit b = false ∧ b ≠ '.'.toUInt8)
    (hfloat : fraction ≠ [] ∨ exponent ≠ none)
    (room : numberOf 0 (whole ++ fraction) < significandBound) :
    Denotes (whole ++ (pointed fraction ++ mark)) (numberOf 0 (whole ++ fraction))
      (NumberText.decimalExponent ⟨false, whole, fraction, exponent⟩ - fraction.length) where
  sign := by
    obtain ⟨b, whole, rfl⟩ := List.exists_cons_of_ne_nil hwhole.ne_nil
    rintro ⟨⟩
    exact absurd (hwhole.isDigit _ (List.mem_cons_self ..)) (by decide)
  number := fun negative => ⟨⟨negative, whole, fraction, exponent⟩, rfl,
    NumberText.unsigned hwhole hfraction hexponent hmark negative,
    NumberText.value_of_room hfloat room⟩

theorem Denotes.readNumber {text : Bytes} {significand : Nat} {exponent : Int}
    (h : Denotes text significand exponent) {m : Magnitude}
    (hm : Magnitude.ofDecimal significand exponent = some m) (negative : Bool) :
    readNumber ((if negative then ['-'.toUInt8] else []) ++ text) =
      (.number (.float ⟨negative, m⟩), some []) := by
  obtain ⟨number, hnegative, hunsigned, hvalue⟩ := h.number negative
  have hsplit : NumberText.split ((if negative then ['-'.toUInt8] else []) ++ text) =
      .ok (number, []) := by
    rw [NumberText.split_eq_ok_iff]
    cases negative with
    | true => exact ⟨hnegative, hunsigned⟩
    | false =>
      have hsign : ((if false then ['-'.toUInt8] else []) ++ text).head? ≠ some '-'.toUInt8 :=
        h.sign
      rw [if_neg hsign]
      exact ⟨hnegative.trans (decide_eq_false hsign).symm, hunsigned⟩
  rw [Json.readNumber, hsplit]
  dsimp only
  rw [hvalue, NumberText.float, hm]

/-! ### The digits of a decimal -/

/-- Digits without a zero in front, and the number they stand for. -/
structure Significand (digits : List Char) (value : Nat) : Prop where
  isDigit : ∀ c ∈ digits, Numeral.IsDigit c
  head : ∃ first rest, digits = Numeral.digitChar first :: rest ∧ 0 < first ∧ first < 10
  number : numberOf 0 (Utf8.ofChars digits) = value
  below : value < 10 ^ digits.length

theorem ofChars_digits {digits : List Char} (h : ∀ c ∈ digits, Numeral.IsDigit c) :
    Utf8.ofChars digits = digits.map Char.toUInt8 := by
  induction digits with
  | nil => rfl
  | cons c digits ih =>
    obtain ⟨digit, hdigit, rfl⟩ := h _ (List.mem_cons_self ..)
    rw [Utf8.ofChars_cons_ascii (isDigit_digitChar digit hdigit).1,
      ih fun other ho => h other (List.mem_cons_of_mem _ ho), List.map_cons]

theorem isDigit_of_mem_map {digits : List Char} (h : ∀ c ∈ digits, Numeral.IsDigit c) :
    ∀ b ∈ digits.map Char.toUInt8, isDigit b = true := by
  rw [← ofChars_digits h]
  exact isDigit_of_mem_digits h

theorem isDigit_zero : Numeral.IsDigit '0' := ⟨0, by decide, by decide⟩

/-- A decimal without the zeros at its end. -/
theorem exists_significand {count : Nat} (hpos : 0 < count) :
    ∃ value zeros,
      Significand ((Numeral.decimal count).reverse.dropWhile (· == '0')).reverse value ∧
      count = value * 10 ^ zeros ∧ (Numeral.decimal count).length =
        ((Numeral.decimal count).reverse.dropWhile (· == '0')).reverse.length + zeros := by
  have hdecimal := Numeral.isDecimal_decimal count
  generalize Numeral.decimal count = written at hdecimal ⊢
  have hsplit : written = (written.reverse.dropWhile (· == '0')).reverse ++
      List.replicate (written.reverse.takeWhile (· == '0')).length '0' := by
    have hzeros : written.reverse.takeWhile (· == '0') =
        List.replicate (written.reverse.takeWhile (· == '0')).length '0' :=
      List.eq_replicate_of_mem fun c hc => by simpa using List.mem_takeWhile_imp hc
    rw [← List.reverse_replicate, ← hzeros, ← List.reverse_append,
      List.takeWhile_append_dropWhile, List.reverse_reverse]
  generalize (written.reverse.dropWhile (· == '0')).reverse = digits at hsplit ⊢
  generalize (written.reverse.takeWhile (· == '0')).length = zeros at hsplit
  have hdigits : ∀ c ∈ digits, Numeral.IsDigit c := fun c hc =>
    hdecimal.isDigit c (by rw [hsplit]; exact List.mem_append_left _ hc)
  have hcount : count = numberOf 0 (Utf8.ofChars digits) * 10 ^ zeros := by
    have hzeros : Utf8.ofChars (List.replicate zeros '0') =
        List.replicate zeros '0'.toUInt8 := by
      rw [ofChars_digits fun c hc => (List.eq_of_mem_replicate hc) ▸ isDigit_zero,
        List.map_replicate]
    rw [← numberOf_zeros, ← hzeros, ← numberOf_append, ← Utf8.ofChars_append, ← hsplit,
      numberOf_decimal hdecimal]
  have hlength : written.length = digits.length + zeros := by
    rw [hsplit, List.length_append, List.length_replicate]
  refine ⟨_, zeros, ⟨hdigits, ?_, rfl, ?_⟩, hcount, hlength⟩
  · obtain ⟨first, rest, hwritten, hfirst, hzero⟩ := hdecimal.head
    have hne : 0 < first := Nat.pos_of_ne_zero fun he => hpos.ne' (hzero he).1
    rw [hsplit] at hwritten
    cases digits with
    | nil =>
      cases zeros with
      | zero => cases hwritten
      | succ zeros =>
        have hchar : ∀ digit < 10, Numeral.digitChar digit = '0' → digit = 0 := by decide
        exact absurd (hchar first hfirst (List.cons.inj hwritten).1.symm) hne.ne'
    | cons c digits =>
      obtain rfl : c = Numeral.digitChar first := (List.cons.inj hwritten).1
      exact ⟨first, digits, rfl, hne, hfirst⟩
  · have hbelow := hdecimal.lt_pow
    rw [hlength, hcount, Nat.pow_add] at hbelow
    exact lt_of_mul_lt_mul_right hbelow (Nat.zero_le _)

/-! ### The notations -/

section Notation

variable {digits : List Char} {value : Nat}

theorem Significand.pos (h : Significand digits value) : 0 < value := by
  obtain ⟨first, rest, rfl, hfirst, hten⟩ := h.head
  obtain ⟨hascii, -, hvalue⟩ := isDigit_digitChar first hten
  rw [← h.number, Utf8.ofChars_cons_ascii hascii, numberOf_cons, hvalue]
  exact lt_of_lt_of_le (by omega) (le_numberOf _ _)

/-- Digits with such a front may stand before a decimal point. -/
theorem Significand.isWhole (h : Significand digits value) {front : List Char}
    (hfront : ∀ c ∈ front, Numeral.IsDigit c) (hhead : front.head? = digits.head?) :
    IsWhole (front.map Char.toUInt8) := by
  obtain ⟨first, rest, rfl, hfirst, hten⟩ := h.head
  obtain ⟨front, rfl⟩ := List.head?_eq_some_iff.mp hhead
  obtain ⟨-, -, hvalue⟩ := isDigit_digitChar first hten
  refine ⟨List.cons_ne_nil _ _, isDigit_of_mem_map hfront, fun hzero => ?_⟩
  rw [List.map_cons, List.head?_cons, Option.some.injEq] at hzero
  rw [hzero] at hvalue
  exact absurd hvalue.symm hfirst.ne'

theorem Significand.numberOf (h : Significand digits value) :
    Json.numberOf 0 (digits.map Char.toUInt8) = value := by
  rw [← ofChars_digits h.isDigit, h.number]

theorem isWhole_zero : IsWhole ['0'.toUInt8] :=
  ⟨List.cons_ne_nil _ _, List.forall_mem_singleton.mpr (by decide), fun _ => rfl⟩

theorem isDigit_zeros (count : Nat) : ∀ c ∈ List.replicate count '0', Numeral.IsDigit c :=
  fun _ hc => List.eq_of_mem_replicate hc ▸ isDigit_zero

/-- Digits with a decimal point among them. -/
theorem denotes_point {whole fraction : List Char} (hwhole : ∀ c ∈ whole, Numeral.IsDigit c)
    (hstart : IsWhole (whole.map Char.toUInt8)) (hfraction : ∀ c ∈ fraction, Numeral.IsDigit c)
    (hne : fraction ≠ [])
    (room : Json.numberOf 0 ((whole ++ fraction).map Char.toUInt8) < significandBound) :
    Denotes (Utf8.ofChars (whole ++ '.' :: fraction))
      (Json.numberOf 0 ((whole ++ fraction).map Char.toUInt8)) (-fraction.length) := by
  have hne' : fraction.map Char.toUInt8 ≠ [] := by simpa using hne
  rw [List.map_append] at room ⊢
  have hplain : splitExponent [] = .ok (none, []) := rfl
  have hdenotes := denotes_of_room hstart (isDigit_of_mem_map hfraction) hplain nofun
    (.inl hne') room
  have htext : Utf8.ofChars (whole ++ '.' :: fraction) =
      whole.map Char.toUInt8 ++ (pointed (fraction.map Char.toUInt8) ++ []) := by
    rw [Utf8.ofChars_append, ofChars_digits hwhole, Utf8.ofChars_cons_ascii (by decide),
      ofChars_digits hfraction, List.append_nil]
    obtain ⟨c, fraction, rfl⟩ := List.exists_cons_of_ne_nil hne
    rfl
  rw [htext]
  rw [List.length_map] at hdenotes
  rw [← Int.zero_sub]
  exact hdenotes

/-- A text is read as a decimal that comes to this. -/
def Amounts (text : Bytes) (amount : ℚ) : Prop :=
  ∃ significand exponent, Denotes text significand exponent ∧ 0 < significand ∧
    significand < significandBound ∧ (significand : ℚ) * 10 ^ exponent = amount

theorem amounts_below (h : Significand digits value) (room : value < significandBound)
    (zeros : Nat) : Amounts (Utf8.ofChars ('0' :: '.' :: (List.replicate zeros '0' ++ digits)))
      (value * 10 ^ (-(zeros : Int) - digits.length)) := by
  have hnumber : Json.numberOf 0 ((['0'] ++ (List.replicate zeros '0' ++ digits)).map
      Char.toUInt8) = value := by
    have hzero : Json.numberOf 0 ['0'.toUInt8] = 0 := by decide
    simp only [List.map_append, List.map_replicate, List.map_cons, List.map_nil, numberOf_append,
      hzero, numberOf_zeros, Nat.zero_mul, h.numberOf]
  have hfraction : ∀ c ∈ List.replicate zeros '0' ++ digits, Numeral.IsDigit c := by
    intro c hc
    rcases List.mem_append.mp hc with hc | hc
    · exact isDigit_zeros zeros c hc
    · exact h.isDigit c hc
  have hne : List.replicate zeros '0' ++ digits ≠ [] := by
    obtain ⟨first, rest, rfl, -⟩ := h.head
    simp
  have hdenotes := denotes_point (isDigit_zeros 1) isWhole_zero hfraction hne (hnumber ▸ room)
  rw [show List.replicate 1 '0' = ['0'] from rfl, hnumber] at hdenotes
  refine ⟨value, _, hdenotes, h.pos, room, ?_⟩
  congr 2
  rw [List.length_append, List.length_replicate]
  omega

theorem amounts_whole (h : Significand digits value) {zeros : Nat}
    (hpoint : digits.length + zeros ≤ 16) :
    Amounts (Utf8.ofChars (digits ++ List.replicate zeros '0' ++ ['.', '0']))
      (value * 10 ^ zeros) := by
  have hnumber : Json.numberOf 0 ((digits ++ List.replicate zeros '0' ++ ['0']).map
      Char.toUInt8) = value * 10 ^ zeros * 10 := by
    simp only [List.map_append, List.map_replicate, List.map_cons, List.map_nil, numberOf_append,
      h.numberOf, numberOf_zeros, numberOf_cons, numberOf_nil,
      show digitOf '0'.toUInt8 = 0 by decide, Nat.add_zero]
  have hwhole : ∀ c ∈ digits ++ List.replicate zeros '0', Numeral.IsDigit c := by
    intro c hc
    rcases List.mem_append.mp hc with hc | hc
    · exact h.isDigit c hc
    · exact isDigit_zeros zeros c hc
  have hhead : (digits ++ List.replicate zeros '0').head? = digits.head? := by
    obtain ⟨first, rest, rfl, -⟩ := h.head
    rfl
  have hless : value * 10 ^ zeros * 10 < significandBound := by
    have hpower : 0 < 10 ^ zeros := Nat.pow_pos (by decide)
    have hbelow := Nat.mul_lt_mul_of_pos_right h.below hpower
    rw [← Nat.pow_add] at hbelow
    have hshort : 10 ^ (digits.length + zeros) ≤ 10 ^ 16 := Nat.pow_le_pow_right (by decide) hpoint
    unfold significandBound
    omega
  have hdenotes := denotes_point hwhole (h.isWhole hwhole hhead) (isDigit_zeros 1) (by simp)
    (hnumber ▸ hless)
  rw [show List.replicate 1 '0' = ['0'] from rfl, hnumber] at hdenotes
  refine ⟨_, _, hdenotes, by have := h.pos; positivity, hless, ?_⟩
  rw [List.length_singleton, Nat.cast_one, zpow_neg_one]
  push_cast
  ring

theorem amounts_inside (h : Significand digits value) (room : value < significandBound)
    {point : Nat} (hpos : 0 < point) (hpoint : point < digits.length) :
    Amounts (Utf8.ofChars (digits.take point ++ '.' :: digits.drop point))
      (value * 10 ^ ((point : Int) - digits.length)) := by
  have hnumber : Json.numberOf 0 ((digits.take point ++ digits.drop point).map Char.toUInt8) =
      value := by
    rw [List.take_append_drop, h.numberOf]
  have hhead : (digits.take point).head? = digits.head? := by
    obtain ⟨point, rfl⟩ := Nat.exists_eq_succ_of_ne_zero hpos.ne'
    obtain ⟨first, rest, rfl, -⟩ := h.head
    rfl
  have htake : ∀ c ∈ digits.take point, Numeral.IsDigit c :=
    fun c hc => h.isDigit c (List.mem_of_mem_take hc)
  have hdrop : ∀ c ∈ digits.drop point, Numeral.IsDigit c :=
    fun c hc => h.isDigit c (List.mem_of_mem_drop hc)
  have hdenotes := denotes_point htake (h.isWhole htake hhead) hdrop (by simpa using hpoint)
    (hnumber ▸ room)
  rw [hnumber] at hdenotes
  refine ⟨value, _, hdenotes, h.pos, room, ?_⟩
  congr 2
  rw [List.length_drop]
  omega

/-- In plain notation. -/
theorem amounts_plain (h : Significand digits value) (room : value < significandBound)
    {point : Int} (hpoint : point ≤ 16) :
    Amounts (Utf8.ofChars (Double.plain digits point)) (value * 10 ^ (point - digits.length)) := by
  unfold Double.plain
  split
  · next hsmall =>
    have hamounts := amounts_below h room (-point).toNat
    rw [show -(((-point).toNat : Nat) : Int) = point by omega] at hamounts
    exact hamounts
  split
  · next hpos hshort =>
    have hwhole : digits.length + (point.toNat - digits.length) ≤ 16 := by omega
    have hamounts := amounts_whole h hwhole
    rw [← zpow_natCast, show ((point.toNat - digits.length : Nat) : Int) = point - digits.length by
      omega] at hamounts
    exact hamounts
  · next hpos hlong =>
    have hinside : 0 < point.toNat ∧ point.toNat < digits.length := by omega
    have hamounts := amounts_inside h room hinside.1 hinside.2
    rw [show ((point.toNat : Nat) : Int) = point by omega] at hamounts
    exact hamounts

/-- The size of an exponent, as it is read, is the number that its digits stand for. -/
theorem decimalExponent_eq (negative : Bool) (whole fraction digits : Bytes) (sign : Bool) :
    NumberText.decimalExponent ⟨negative, whole, fraction, some (sign, digits)⟩ =
      if sign then -(Json.numberOf 0 digits : Int) else Json.numberOf 0 digits := by
  have hfold : ∀ value : Nat, digits.foldl (fun (value : Int) b => value * 10 + digitOf b) value =
      Json.numberOf value digits := by
    induction digits with
    | nil => exact fun _ => rfl
    | cons b digits ih =>
      intro value
      rw [List.foldl_cons, numberOf_cons, ← ih]
      push_cast
      rfl
  simp only [NumberText.decimalExponent, ← hfold 0, Nat.cast_zero]

/-- The exponent of the scientific notation. -/
def exponentMark (exponent : Int) : Bytes :=
  'e'.toUInt8 :: (if exponent < 0 then '-' else '+').toUInt8 ::
    Utf8.ofChars (Numeral.decimal exponent.natAbs)

theorem splitExponent_exponentMark (exponent : Int) : splitExponent (exponentMark exponent) =
    .ok (some (decide (exponent < 0), Utf8.ofChars (Numeral.decimal exponent.natAbs)), []) := by
  have hdecimal := Numeral.isDecimal_decimal exponent.natAbs
  have hall := isDigit_of_mem_digits hdecimal.isDigit
  obtain ⟨first, rest, hwritten, hfirst, -⟩ := hdecimal.head
  have hsign : splitSign ((if exponent < 0 then '-' else '+').toUInt8 ::
      Utf8.ofChars (Numeral.decimal exponent.natAbs)) =
        (decide (exponent < 0), Utf8.ofChars (Numeral.decimal exponent.natAbs)) := by
    split
    · next hneg =>
      rw [decide_eq_true hneg]
      rfl
    · next hpos =>
      rw [decide_eq_false hpos]
      rfl
  rw [exponentMark, splitExponent, if_pos (.inl rfl), hsign]
  dsimp only
  rw [hwritten, Utf8.ofChars_cons_ascii (isDigit_digitChar first hfirst).1] at hall ⊢
  exact bind_eq_ok_iff.mpr ⟨_, someDigits_of_all _ hall, rfl⟩

theorem decimalExponent_exponentMark (negative : Bool) (whole fraction : Bytes) (exponent : Int) :
    NumberText.decimalExponent ⟨negative, whole, fraction,
      some (decide (exponent < 0), Utf8.ofChars (Numeral.decimal exponent.natAbs))⟩ = exponent := by
  rw [decimalExponent_eq, numberOf_decimal (Numeral.isDecimal_decimal _)]
  split
  · next hneg =>
    have hneg' := of_decide_eq_true hneg
    omega
  · next hpos =>
    have hpos' := of_decide_eq_false (Bool.eq_false_iff.mpr hpos)
    omega

/-- Scientific notation is one digit, the others behind a point, and the exponent. -/
theorem ofChars_scientific {first : Char} {rest : List Char} (hfirst : Numeral.IsDigit first)
    (hrest : ∀ c ∈ rest, Numeral.IsDigit c) (point : Int) :
    Utf8.ofChars (Double.scientific (first :: rest) point) =
      [first].map Char.toUInt8 ++
        (pointed (rest.map Char.toUInt8) ++ exponentMark (point - 1)) := by
  have hascii : ((if point - 1 < 0 then '-' else '+') : Char).toNat < 0x80 := by
    split <;> decide
  have hmark : Utf8.ofChars (['e', if point - 1 < 0 then '-' else '+'] ++
      Numeral.decimal (point - 1).natAbs) = exponentMark (point - 1) := by
    rw [List.cons_append, List.singleton_append, Utf8.ofChars_cons_ascii (by decide),
      Utf8.ofChars_cons_ascii hascii, exponentMark]
  have hwhole : ∀ c ∈ [first], Numeral.IsDigit c := List.forall_mem_singleton.mpr hfirst
  rw [← hmark, ← ofChars_digits hwhole]
  cases rest with
  | nil =>
    show Utf8.ofChars ([first] ++ [] ++ _ ++ _) = _
    rw [List.append_nil, List.append_assoc, Utf8.ofChars_append]
    rfl
  | cons c rest =>
    show Utf8.ofChars ([first] ++ '.' :: (c :: rest) ++ _ ++ _) = _
    rw [List.append_assoc, List.append_assoc, Utf8.ofChars_append, List.cons_append,
      Utf8.ofChars_cons_ascii (by decide : '.'.toNat < 0x80), Utf8.ofChars_append,
      ofChars_digits hrest]
    rfl

/-- In scientific notation the significand is the number that the digits stand for. -/
theorem denotes_scientific (h : Significand digits value) (room : value < significandBound)
    (point : Int) : Denotes (Utf8.ofChars (Double.scientific digits point)) value
      (point - digits.length) := by
  obtain ⟨first, rest, rfl, -⟩ := h.head
  have hfirst := h.isDigit _ (List.mem_cons_self ..)
  have hrest : ∀ c ∈ rest, Numeral.IsDigit c :=
    fun c hc => h.isDigit c (List.mem_cons_of_mem _ hc)
  have hwhole : ∀ c ∈ [Numeral.digitChar first], Numeral.IsDigit c :=
    List.forall_mem_singleton.mpr hfirst
  have hnumber : Json.numberOf 0 ([Numeral.digitChar first].map Char.toUInt8 ++
      rest.map Char.toUInt8) = value := by
    rw [← List.map_append, List.singleton_append, h.numberOf]
  have hdenotes := denotes_of_room (h.isWhole hwhole rfl) (isDigit_of_mem_map hrest)
    (splitExponent_exponentMark (point - 1)) (by rintro _ ⟨⟩; decide) (.inr (by simp))
    (hnumber ▸ room)
  rw [hnumber, decimalExponent_exponentMark, List.length_map] at hdenotes
  rw [ofChars_scientific hfirst hrest, List.length_cons]
  have hpoint : point - 1 - (rest.length : Int) = point - ((rest.length + 1 : Nat) : Int) := by
    omega
  rw [hpoint] at hdenotes
  exact hdenotes

end Notation

/-! ### Read back -/

/-- The digits of the shortest decimal, and the decimal that they are. -/
theorem significand_of_firstGrid {m : Magnitude} {count : Nat} {exponent : Int}
    (h : m.firstGrid m.decimalPoint 17 1 = (count, exponent)) (hpos : 0 < count) :
    ∃ (value zeros : Nat), Significand m.shortest.1 value ∧ count = value * 10 ^ zeros ∧
      m.shortest.2 - m.shortest.1.length = exponent + zeros := by
  obtain ⟨value, zeros, hsignificand, hcount, hlength⟩ := exists_significand hpos
  have hshortest : m.shortest = (((Numeral.decimal count).reverse.dropWhile (· == '0')).reverse,
      exponent + (Numeral.decimal count).length) := by
    rw [Magnitude.shortest, h]
  rw [hshortest]
  refine ⟨value, zeros, hsignificand, hcount, ?_⟩
  dsimp only
  omega

/-- A number of double precision is read back as one when the decimal it is written as is not
too large. -/
theorem reread_of_denotes {d : Double} {text : List Char} {significand : Nat} {exponent : Int}
    {m : Magnitude} (hwrite : d.write = (if d.negative then ['-'] else []) ++ text)
    (h : Denotes (Utf8.ofChars text) significand exponent)
    (hm : Magnitude.ofDecimal significand exponent = some m) :
    (Num.float d).reread = some (.float ⟨d.negative, m⟩) := by
  have hsign : Utf8.ofChars (if d.negative then ['-'] else []) =
      if d.negative then ['-'.toUInt8] else [] := by
    cases d.negative <;> rfl
  rw [Num.reread, Num.print, hwrite, Utf8.ofChars_append, hsign, h.readNumber hm]

theorem Amounts.exists_reread {d : Double} {text : List Char} {amount : ℚ}
    (h : Amounts (Utf8.ofChars text) amount)
    (hwrite : d.write = (if d.negative then ['-'] else []) ++ text)
    (hroom : amount * (1 + 1 / 2 ^ 53) ^ 2 < Magnitude.roundingBound) :
    ∃ e, (Num.float d).reread = some (.float e) := by
  obtain ⟨significand, exponent, hdenotes, hpos, hless, rfl⟩ := h
  obtain ⟨m, hm⟩ := Magnitude.exists_ofDecimal hpos hless hroom
  exact ⟨_, reread_of_denotes hwrite hdenotes hm⟩

/-- Zero. -/
theorem exists_reread_of_zero {d : Double} (h : d.magnitude.mantissa = 0) :
    ∃ e, (Num.float d).reread = some (.float e) := by
  have hwrite : d.write = (if d.negative then ['-'] else []) ++ (['0'] ++ '.' :: ['0']) := by
    have hzero : d.magnitude.isZero = true := beq_iff_eq.mpr h
    rw [Double.write, if_pos hzero]
    rfl
  have hdenotes := denotes_point (isDigit_zeros 1) isWhole_zero (isDigit_zeros 1) (by simp)
    (by decide)
  exact ⟨_, reread_of_denotes hwrite hdenotes rfl⟩

/-- The two largest magnitudes are too near the bound for the general estimate. -/
theorem exists_reread_of_largest {d : Double} (hvalid : d.magnitude.Valid)
    (hexponent : d.magnitude.exponent = Magnitude.mostExponent)
    (hmantissa : 2 ^ 53 - 2 ≤ d.magnitude.mantissa) :
    ∃ e, (Num.float d).reread = some (.float e) := by
  have hgrid : ∃ count, d.magnitude.firstGrid d.magnitude.decimalPoint 17 1 = (count, 292) ∧
      0 < count ∧ count < significandBound ∧ count % 10 ≠ 0 ∧
        (Magnitude.ofDecimal count 292).isSome = true := by
    rw [Magnitude.decimalPoint_of_largest hvalid hexponent hmantissa]
    have hless := hvalid.mantissa
    unfold Magnitude.mantissaBound at hless
    generalize d.magnitude = m at *
    obtain ⟨mantissa, exponent⟩ := m
    dsimp only at hexponent hmantissa hless
    subst hexponent
    -- The search and the reading of its result are computed for each of the two.
    obtain rfl | rfl : mantissa = 2 ^ 53 - 2 ∨ mantissa = 2 ^ 53 - 1 := by omega
    · exact ⟨17976931348623155, by decide +kernel⟩
    · exact ⟨17976931348623157, by decide +kernel⟩
  -- No zero stands at the end, so the significand is the whole count.
  obtain ⟨count, hcount, hpos, hroom, hlast, hfits⟩ := hgrid
  obtain ⟨m, hm⟩ := Option.isSome_iff_exists.mp hfits
  obtain ⟨value, zeros, hsignificand, heq, hpoint⟩ := significand_of_firstGrid hcount hpos
  have hzeros : zeros = 0 := by
    cases zeros with
    | zero => rfl
    | succ zeros =>
      rw [heq, Nat.pow_succ, ← Nat.mul_assoc, Nat.mul_mod_left] at hlast
      exact absurd rfl hlast
  subst hzeros
  obtain rfl : count = value := by rw [heq, Nat.pow_zero, Nat.mul_one]
  have hdenotes := denotes_scientific hsignificand hroom d.magnitude.shortest.2
  rw [hpoint] at hdenotes
  have hwrite : d.write = (if d.negative then ['-'] else []) ++
      Double.scientific d.magnitude.shortest.1 d.magnitude.shortest.2 := by
    have hnonzero : ¬ d.magnitude.isZero = true := by
      rw [Magnitude.isZero, beq_iff_eq]
      omega
    rw [Double.write, if_neg hnonzero]
    dsimp only
    rw [if_neg]
    show ¬ (-4 ≤ d.magnitude.shortest.2 ∧ d.magnitude.shortest.2 ≤ 16)
    omega
  exact ⟨_, reread_of_denotes hwrite hdenotes hm⟩

/-- **A number of double precision, written and read back, is one again.** -/
theorem exists_reread {d : Double} (hvalid : d.magnitude.Valid) :
    ∃ e, (Num.float d).reread = some (.float e) := by
  rcases Nat.eq_zero_or_pos d.magnitude.mantissa with hzero | hpos
  · exact exists_reread_of_zero hzero
  by_cases hlargest : d.magnitude.exponent = Magnitude.mostExponent ∧
      2 ^ 53 - 2 ≤ d.magnitude.mantissa
  · exact exists_reread_of_largest hvalid hlargest.1 hlargest.2
  have hbelow := Magnitude.highest_room hvalid (by
    have hmost := hvalid.most
    omega)
  obtain ⟨count, exponent, hgrid, hcount, hshort, hhighest⟩ :=
    Magnitude.exists_firstGrid hvalid hpos
  obtain ⟨value, zeros, hsignificand, heq, hpoint⟩ := significand_of_firstGrid hgrid hcount
  have hroom : value < significandBound := by
    have hle := Nat.le_mul_of_pos_right value (Nat.pow_pos (n := zeros) (by decide : 0 < 10))
    unfold significandBound
    omega
  have hamount : (value : ℚ) * 10 ^ (d.magnitude.shortest.2 - d.magnitude.shortest.1.length) =
      count * 10 ^ exponent := by
    rw [hpoint, zpow_add₀ (by norm_num), zpow_natCast, heq]
    push_cast
    ring
  -- What is written rounds to the number, so it is no more than the largest real that does.
  have hless : (value : ℚ) * 10 ^ (d.magnitude.shortest.2 - d.magnitude.shortest.1.length) *
      (1 + 1 / 2 ^ 53) ^ 2 < Magnitude.roundingBound := by
    rw [hamount]
    exact (mul_le_mul_of_nonneg_right hhighest (by positivity)).trans_lt hbelow
  have hnonzero : ¬ d.magnitude.isZero = true := by
    rw [Magnitude.isZero, beq_iff_eq]
    omega
  by_cases hplain : Double.layout.plainFrom ≤ d.magnitude.shortest.2 ∧
      d.magnitude.shortest.2 ≤ Double.layout.plainTo
  · refine (amounts_plain hsignificand hroom hplain.2).exists_reread ?_ hless
    rw [Double.write, if_neg hnonzero]
    exact if_pos hplain
  · refine Amounts.exists_reread ⟨value, _, denotes_scientific hsignificand hroom _,
      hsignificand.pos, hroom, rfl⟩ ?_ hless
    rw [Double.write, if_neg hnonzero]
    exact if_neg hplain

end Json
end Provision
