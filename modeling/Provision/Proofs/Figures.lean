import Mathlib.Data.List.Forall2
import Mathlib.Data.Nat.Digits.Defs
import Provision.Proofs.Hexadecimal

/-! Numbers in positional notation.

A figure of a base is a character that stands for one of its digits, in either case, and `Denotes`
is the number that a row of figures stands for, the most significant first. Digits are read from
left to right without looking ahead, and yet the outcome is one of the row as a whole: what is read
is the number of the row, if there is nothing else and the number is below the limit,
`readDigits_eq_ok_iff`; and what is too large is the number of the longest row in front,
`readDigits_eq_tooLarge_iff`, whatever follows. -/
namespace Provision.Numeral

/-! ### Figures -/

/-- A character stands for a digit of a base, in lower or upper case. -/
def IsFigure (base digit : Nat) (c : Char) : Prop :=
  digit < base ∧ (c = digitChar digit ∨ c = (digitChar digit).toUpper)

theorem digitChar_of_lt {digit : Nat} (h : digit < 10) :
    digitChar digit = Char.ofNat (48 + digit) :=
  if_pos h

theorem digitValue?_toUpper : ∀ base ≤ 36, ∀ digit < base,
    digitValue? base (digitChar digit).toUpper = some digit := by
  decide +kernel

/-- The letters after the ten numerals, in lower and upper case. -/
theorem digitChar_letter : ∀ letter < 26, digitChar (letter + 10) = Char.ofNat (97 + letter) ∧
    (digitChar (letter + 10)).toUpper = Char.ofNat (65 + letter) := by
  decide

theorem eq_ofNat_add {c first : Char} (h : first ≤ c) :
    c = Char.ofNat (first.toNat + (c.toNat - first.toNat)) := by
  have hle : first.toNat ≤ c.toNat := h
  rw [Nat.add_sub_cancel' hle, Char.ofNat_toNat]

variable {base : Nat} (small : base ≤ 36)

include small in
theorem digitValue?_eq_some_iff {c : Char} {digit : Nat} :
    digitValue? base c = some digit ↔ IsFigure base digit c := by
  constructor
  · intro h
    obtain ⟨hvalue, hbase⟩ := Option.filter_eq_some_iff.mp h
    have hdigit : digit < base := of_decide_eq_true hbase
    refine ⟨hdigit, ?_⟩
    split at hvalue
    · next hc =>
      have hlast : c.toNat ≤ 57 := hc.2
      have hzero : '0'.toNat = 48 := rfl
      obtain rfl := Option.some.inj hvalue
      rw [digitChar_of_lt (by omega)]
      exact .inl (eq_ofNat_add hc.1)
    split at hvalue
    · next hc =>
      have hlast : c.toNat ≤ 122 := hc.2
      have hfirst : 'a'.toNat = 97 := rfl
      obtain rfl := Option.some.inj hvalue
      rw [(digitChar_letter _ (by omega)).1]
      exact .inl (eq_ofNat_add hc.1)
    split at hvalue
    · next hc =>
      have hlast : c.toNat ≤ 90 := hc.2
      have hfirst : 'A'.toNat = 65 := rfl
      obtain rfl := Option.some.inj hvalue
      rw [(digitChar_letter _ (by omega)).2]
      exact .inr (eq_ofNat_add hc.1)
    · cases hvalue
  · rintro ⟨hdigit, rfl | rfl⟩
    · exact digitValue?_digitChar base small digit hdigit
    · exact digitValue?_toUpper base small digit hdigit

include small in
theorem IsFigure.unique {c : Char} {digit other : Nat} (h : IsFigure base digit c)
    (hother : IsFigure base other c) : digit = other := by
  rw [← digitValue?_eq_some_iff small] at h hother
  exact Option.some.inj (h.symm.trans hother)

include small in
theorem digitValue?_eq_none_iff {c : Char} :
    digitValue? base c = none ↔ ∀ digit, ¬ IsFigure base digit c := by
  simp only [← digitValue?_eq_some_iff small, Option.eq_none_iff_forall_ne_some, ne_eq]

/-! ### Rows of figures -/

/-- A row of figures, the most significant first, stands for a number. -/
def Denotes (base : Nat) (text : List Char) (value : Nat) : Prop :=
  ∃ digits : List Nat, List.Forall₂ (IsFigure base) digits text ∧
    Nat.ofDigits base digits.reverse = value

theorem denotes_nil_iff {value : Nat} : Denotes base [] value ↔ value = 0 := by
  simp [Denotes, eq_comm]

/-- The first figure counts as often as there are numbers that the others can stand for. -/
theorem denotes_cons_iff {c : Char} {text : List Char} {value : Nat} :
    Denotes base (c :: text) value ↔ ∃ digit rest, IsFigure base digit c ∧
      Denotes base text rest ∧ value = digit * base ^ text.length + rest := by
  have hvalue : ∀ {digits : List Nat}, List.Forall₂ (IsFigure base) digits text → ∀ digit,
      Nat.ofDigits base (digit :: digits).reverse =
        digit * base ^ text.length + Nat.ofDigits base digits.reverse := by
    intro digits hdigits digit
    rw [List.reverse_cons, Nat.ofDigits_append, Nat.ofDigits_singleton, List.length_reverse,
      hdigits.length_eq, Nat.add_comm, Nat.mul_comm]
  constructor
  · rintro ⟨_, hrow, rfl⟩
    obtain ⟨digit, digits, hdigit, hdigits, rfl⟩ := List.forall₂_cons_right_iff.mp hrow
    exact ⟨digit, _, hdigit, ⟨digits, hdigits, rfl⟩, hvalue hdigits digit⟩
  · rintro ⟨digit, _, hdigit, ⟨digits, hdigits, rfl⟩, rfl⟩
    exact ⟨digit :: digits, .cons hdigit hdigits, hvalue hdigits digit⟩

namespace Denotes

variable {text : List Char} {value other : Nat}

include small in
theorem unique (h : Denotes base text value) (hother : Denotes base text other) :
    value = other := by
  induction text generalizing value other with
  | nil => rw [denotes_nil_iff.mp h, denotes_nil_iff.mp hother]
  | cons c text ih =>
    obtain ⟨digit, rest, hdigit, hrest, rfl⟩ := denotes_cons_iff.mp h
    obtain ⟨digit', rest', hdigit', hrest', rfl⟩ := denotes_cons_iff.mp hother
    rw [hdigit.unique small hdigit', ih hrest hrest']

theorem isFigure (h : Denotes base text value) : ∀ c ∈ text, ∃ digit, IsFigure base digit c := by
  induction text generalizing value with
  | nil => exact fun _ hc => (nomatch hc)
  | cons c text ih =>
    obtain ⟨digit, rest, hdigit, hrest, rfl⟩ := denotes_cons_iff.mp h
    exact List.forall_mem_cons.mpr ⟨⟨digit, hdigit⟩, ih hrest⟩

include small in
theorem digitValue?_ne_none (h : Denotes base text value) :
    ∀ c ∈ text, digitValue? base c ≠ none := by
  intro c hc hnone
  obtain ⟨digit, hdigit⟩ := h.isFigure c hc
  exact (digitValue?_eq_none_iff small).mp hnone digit hdigit

theorem lt_pow (h : Denotes base text value) : value < base ^ text.length := by
  induction text generalizing value with
  | nil => simp [denotes_nil_iff.mp h]
  | cons c text ih =>
    obtain ⟨digit, rest, hdigit, hrest, rfl⟩ := denotes_cons_iff.mp h
    calc digit * base ^ text.length + rest < (digit + 1) * base ^ text.length := by
          rw [Nat.add_one_mul]
          exact Nat.add_lt_add_left (ih hrest) _
      _ ≤ base * base ^ text.length := Nat.mul_le_mul_right _ hdigit.1
      _ = base ^ (c :: text).length := by rw [List.length_cons, Nat.pow_succ']

end Denotes

theorem exists_denotes {text : List Char} (h : ∀ c ∈ text, ∃ digit, IsFigure base digit c) :
    ∃ value, Denotes base text value := by
  induction text with
  | nil => exact ⟨0, denotes_nil_iff.mpr rfl⟩
  | cons c text ih =>
    obtain ⟨digit, hdigit⟩ := h c (List.mem_cons_self ..)
    obtain ⟨rest, hrest⟩ := ih fun other ho => h other (List.mem_cons_of_mem _ ho)
    exact ⟨_, denotes_cons_iff.mpr ⟨digit, rest, hdigit, hrest, rfl⟩⟩

/-- The longest row of figures in front of a text. -/
def IsFront (base : Nat) (row text : List Char) : Prop :=
  ∃ rest, text = row ++ rest ∧ (∀ c ∈ row, ∃ digit, IsFigure base digit c) ∧
    ∀ c ∈ rest.head?, ∀ digit, ¬ IsFigure base digit c

section Front

variable {row text : List Char} {c : Char}

theorem isFront_nil_iff : IsFront base row [] ↔ row = [] := by
  constructor
  · rintro ⟨rest, htext, -⟩
    exact (List.append_eq_nil_iff.mp htext.symm).1
  · rintro rfl
    exact ⟨[], rfl, fun _ hc => (nomatch hc), fun _ hc => (nomatch hc)⟩

theorem isFront_cons_iff {digit : Nat} (h : IsFigure base digit c) :
    IsFront base row (c :: text) ↔ ∃ others, row = c :: others ∧ IsFront base others text := by
  constructor
  · rintro ⟨rest, htext, hrow, hrest⟩
    cases row with
    | nil =>
      obtain rfl : c :: text = rest := htext
      exact absurd h (hrest c rfl digit)
    | cons first others =>
      obtain ⟨rfl, rfl⟩ := List.cons.inj htext
      exact ⟨others, rfl, rest, rfl, (List.forall_mem_cons.mp hrow).2, hrest⟩
  · rintro ⟨others, rfl, rest, rfl, hothers, hrest⟩
    exact ⟨rest, rfl, List.forall_mem_cons.mpr ⟨⟨digit, h⟩, hothers⟩, hrest⟩

theorem isFront_cons_iff_of_not (h : ∀ digit, ¬ IsFigure base digit c) :
    IsFront base row (c :: text) ↔ row = [] := by
  constructor
  · rintro ⟨rest, htext, hrow, -⟩
    cases row with
    | nil => rfl
    | cons first others =>
      obtain ⟨rfl, -⟩ := List.cons.inj htext
      obtain ⟨digit, hdigit⟩ := hrow c (List.mem_cons_self ..)
      exact absurd hdigit (h digit)
  · rintro rfl
    refine ⟨c :: text, rfl, fun _ hc => (nomatch hc), ?_⟩
    rintro _ ⟨⟩
    exact h

theorem exists_isFront (base : Nat) (text : List Char) : ∃ row, IsFront base row text := by
  induction text with
  | nil => exact ⟨[], isFront_nil_iff.mpr rfl⟩
  | cons c text ih =>
    by_cases hc : ∃ digit, IsFigure base digit c
    · obtain ⟨digit, hdigit⟩ := hc
      obtain ⟨row, hrow⟩ := ih
      exact ⟨c :: row, (isFront_cons_iff hdigit).mpr ⟨row, rfl, hrow⟩⟩
    · exact ⟨[], (isFront_cons_iff_of_not fun digit hdigit => hc ⟨digit, hdigit⟩).mpr rfl⟩

theorem IsFront.exists_denotes (h : IsFront base row text) : ∃ value, Denotes base row value := by
  obtain ⟨_, -, hrow, -⟩ := h
  exact Numeral.exists_denotes hrow

end Front

/-! ### Marks -/

/-- What a number in hexadecimal may begin with. -/
def marks : List (List Char) := [['0', 'x'], ['0', 'X']]

theorem eq_of_marks {mark other text rest : List Char} (hmark : mark ∈ marks)
    (hother : other ∈ marks) (h : mark ++ text = other ++ rest) : text = rest := by
  have hlength : ∀ mark ∈ marks, mark.length = 2 := by decide
  exact (List.append_inj h ((hlength mark hmark).trans (hlength other hother).symm)).2

/-! ### Reading from left to right -/

section Reading

variable {limit start : Nat} {text : List Char}

/-- What has been read only grows when more is read. -/
theorem le_shifted (hbase : 0 < base) (start length more : Nat) :
    start ≤ start * base ^ length + more :=
  (Nat.le_mul_of_pos_right start (Nat.pow_pos hbase)).trans (Nat.le_add_right _ _)

/-- The first of the digits to come goes to those before it. -/
theorem shifted_cons (start digit length more : Nat) :
    start * base ^ (length + 1) + (digit * base ^ length + more) =
      (start * base + digit) * base ^ length + more := by
  rw [Nat.pow_succ, Nat.add_mul, Nat.mul_assoc, Nat.mul_comm base, Nat.add_assoc]

include small

theorem readDigits_cons {c : Char} {digit : Nat} (hdigit : IsFigure base digit c)
    (text : List Char) : readDigits base limit start (c :: text) =
      if limit ≤ start * base + digit then .error .tooLarge
      else readDigits base limit (start * base + digit) text := by
  rw [readDigits, (digitValue?_eq_some_iff small).mpr hdigit]

theorem readDigits_cons_of_not {c : Char} (h : ∀ digit, ¬ IsFigure base digit c)
    (text : List Char) : readDigits base limit start (c :: text) = .error .invalidDigit := by
  rw [readDigits, (digitValue?_eq_none_iff small).mpr h]

/-- Digits are read exactly if they are a row of figures that stays below the limit. -/
theorem readDigits_eq_ok_iff (hbase : 0 < base) (room : start < limit) {value : Nat} :
    readDigits base limit start text = .ok value ↔
      ∃ number, Denotes base text number ∧ value = start * base ^ text.length + number ∧
        value < limit := by
  induction text generalizing start with
  | nil =>
    simp only [readDigits, Except.ok.injEq, denotes_nil_iff, List.length_nil, Nat.pow_zero,
      Nat.mul_one]
    constructor
    · rintro rfl
      exact ⟨0, rfl, rfl, room⟩
    · rintro ⟨_, rfl, rfl, -⟩
      rfl
  | cons c text ih =>
    rw [List.length_cons]
    by_cases hc : ∃ digit, IsFigure base digit c
    · obtain ⟨digit, hdigit⟩ := hc
      rw [readDigits_cons small hdigit]
      split
      · next hlarge =>
        refine iff_of_false (by simp) ?_
        rintro ⟨number, hnumber, rfl, hless⟩
        obtain ⟨digit', rest, hdigit', -, rfl⟩ := denotes_cons_iff.mp hnumber
        rw [hdigit.unique small hdigit'] at hlarge
        rw [shifted_cons] at hless
        exact absurd (hlarge.trans (le_shifted hbase _ _ _)) (Nat.not_le.mpr hless)
      · next hsmall =>
        rw [ih (Nat.not_le.mp hsmall)]
        constructor
        · rintro ⟨rest, hrest, hvalue, hless⟩
          exact ⟨_, denotes_cons_iff.mpr ⟨digit, rest, hdigit, hrest, rfl⟩,
            by rw [hvalue, shifted_cons], hless⟩
        · rintro ⟨number, hnumber, hvalue, hless⟩
          obtain ⟨digit', rest, hdigit', hrest, rfl⟩ := denotes_cons_iff.mp hnumber
          rw [← hdigit.unique small hdigit', shifted_cons] at hvalue
          exact ⟨rest, hrest, hvalue, hless⟩
    · rw [readDigits_cons_of_not small fun digit hdigit => hc ⟨digit, hdigit⟩]
      refine iff_of_false (by simp) ?_
      rintro ⟨number, hnumber, -⟩
      exact hc (hnumber.isFigure c (List.mem_cons_self ..))

/-- A number is too large if its longest row of figures in front is, whatever follows the row. -/
theorem readDigits_eq_tooLarge_iff (hbase : 0 < base) (room : start < limit) :
    readDigits base limit start text = .error .tooLarge ↔
      ∃ row number, IsFront base row text ∧ Denotes base row number ∧
        limit ≤ start * base ^ row.length + number := by
  -- Without a figure in front nothing is added to what has been read.
  have hnothing : ∀ {start}, start < limit → ¬ ∃ row number, row = [] ∧ Denotes base row number ∧
      limit ≤ start * base ^ row.length + number := by
    rintro start room ⟨_, number, rfl, hnumber, hlarge⟩
    rw [denotes_nil_iff.mp hnumber, List.length_nil, Nat.pow_zero, Nat.mul_one] at hlarge
    exact Nat.not_le.mpr room hlarge
  induction text generalizing start with
  | nil =>
    simp only [isFront_nil_iff]
    exact iff_of_false (by simp [readDigits]) (hnothing room)
  | cons c text ih =>
    by_cases hc : ∃ digit, IsFigure base digit c
    · obtain ⟨digit, hdigit⟩ := hc
      have hstep : (∃ row number, IsFront base row (c :: text) ∧ Denotes base row number ∧
            limit ≤ start * base ^ row.length + number) ↔
          ∃ row number, IsFront base row text ∧ Denotes base row number ∧
            limit ≤ (start * base + digit) * base ^ row.length + number := by
        simp only [isFront_cons_iff hdigit]
        constructor
        · rintro ⟨_, _, ⟨row, rfl, hrow⟩, hnumber, hlarge⟩
          obtain ⟨digit', more, hdigit', hmore, rfl⟩ := denotes_cons_iff.mp hnumber
          rw [← hdigit.unique small hdigit', List.length_cons, shifted_cons] at hlarge
          exact ⟨row, more, hrow, hmore, hlarge⟩
        · rintro ⟨row, more, hrow, hmore, hlarge⟩
          refine ⟨c :: row, _, ⟨row, rfl, hrow⟩,
            denotes_cons_iff.mpr ⟨digit, more, hdigit, hmore, rfl⟩, ?_⟩
          rw [List.length_cons, shifted_cons]
          exact hlarge
      rw [readDigits_cons small hdigit, hstep]
      split
      · next hlarge =>
        obtain ⟨row, hrow⟩ := exists_isFront base text
        obtain ⟨number, hnumber⟩ := hrow.exists_denotes
        exact iff_of_true rfl ⟨row, number, hrow, hnumber, hlarge.trans (le_shifted hbase _ _ _)⟩
      · next hsmall => exact ih (Nat.not_le.mp hsmall)
    · have hnot : ∀ digit, ¬ IsFigure base digit c := fun digit hdigit => hc ⟨digit, hdigit⟩
      rw [readDigits_cons_of_not small hnot]
      simp only [isFront_cons_iff_of_not hnot]
      exact iff_of_false (by simp) (hnothing room)

theorem readDigits_zero_eq_ok_iff (hbase : 0 < base) (room : 0 < limit) {value : Nat} :
    readDigits base limit 0 text = .ok value ↔ Denotes base text value ∧ value < limit := by
  simp [readDigits_eq_ok_iff small hbase room]

theorem readDigits_zero_eq_tooLarge_iff (hbase : 0 < base) (room : 0 < limit) :
    readDigits base limit 0 text = .error .tooLarge ↔
      ∃ row number, IsFront base row text ∧ Denotes base row number ∧ limit ≤ number := by
  simp [readDigits_eq_tooLarge_iff small hbase room]

omit small in
/-- Once there is a digit to look at, the text is not empty. -/
theorem readDigits_ne_empty : readDigits base limit start text ≠ .error .empty := by
  induction text generalizing start with
  | nil => simp [readDigits]
  | cons c text ih =>
    rw [readDigits]
    split
    · simp
    split
    · simp
    · exact ih

end Reading

end Provision.Numeral
