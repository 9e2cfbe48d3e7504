import Mathlib.Data.List.TakeWhile
import Provision.Json.Reader
import Provision.Proofs.Decimals
import Provision.Proofs.Outcome

/-! Numbers in front of other text.

A number ends before the first byte that no number has in it. So it does not matter to a reader
what stands behind a number, if that begins with no such byte: `split_append`. -/
namespace Provision.Json
open Text

/-- A byte that may be part of a number. -/
def isNumberByte (b : UInt8) : Bool :=
  isDigit b || b == '.'.toUInt8 || b == 'e'.toUInt8 || b == 'E'.toUInt8 || b == '+'.toUInt8 ||
    b == '-'.toUInt8

theorem isNumberByte_eq_false_iff {b : UInt8} : isNumberByte b = false ↔
    isDigit b = false ∧ b ≠ '.'.toUInt8 ∧ b ≠ 'e'.toUInt8 ∧ b ≠ 'E'.toUInt8 ∧
      b ≠ '+'.toUInt8 ∧ b ≠ '-'.toUInt8 := by
  simp [isNumberByte, and_assoc]

/-- No number goes on here. -/
def EndsNumber (rest : Bytes) : Prop :=
  ∀ b ∈ rest.head?, isNumberByte b = false

/-- What one reader makes of a text another one makes of it with `rest` behind it. Where one
fails, so does the other. -/
def Carries {α : Type} (rest : Bytes) (alone before : Except (Fault × Bytes) (α × Bytes)) : Prop :=
  before.toOption = alone.toOption.map (Prod.map id (· ++ rest))

namespace Carries

variable {α β : Type} {rest : Bytes} {alone before : Except (Fault × Bytes) (α × Bytes)}

theorem ok (value : α) (left rest : Bytes) :
    Carries rest (.ok (value, left)) (.ok (value, left ++ rest)) := rfl

theorem error (problem other : Fault × Bytes) (rest : Bytes) :
    Carries (α := α) rest (.error problem) (.error other) := rfl

theorem bind (h : Carries rest alone before)
    {next after : α × Bytes → Except (Fault × Bytes) (β × Bytes)}
    (hnext : ∀ value left, Carries rest (next (value, left)) (after (value, left ++ rest))) :
    Carries rest (alone >>= next) (before >>= after) := by
  rcases alone with problem | ⟨value, left⟩ <;> rcases before with other | ⟨value', left'⟩
  · rfl
  · cases h
  · cases h
  · cases h
    exact hnext value left

end Carries

/-! ### Pieces of a number -/

theorem someDigits_toOption (stop text : Bytes) :
    (someDigits stop text).toOption =
      if (text.takeWhile isDigit).isEmpty then none
      else some (text.takeWhile isDigit, text.dropWhile isDigit) := by
  cases text with
  | nil => rfl
  | cons b text =>
    unfold someDigits
    cases List.takeWhile isDigit (b :: text) <;> rfl

variable {rest : Bytes} (ends : EndsNumber rest)

include ends

theorem takeWhile_append (text : Bytes) :
    (text ++ rest).takeWhile isDigit = text.takeWhile isDigit ∧
      (text ++ rest).dropWhile isDigit = text.dropWhile isDigit ++ rest := by
  induction text with
  | nil =>
    cases rest with
    | nil => exact ⟨rfl, rfl⟩
    | cons b rest =>
      obtain ⟨hdigit, -⟩ := isNumberByte_eq_false_iff.mp (ends b rfl)
      simp [hdigit]
  | cons b text ih =>
    rw [List.cons_append, List.takeWhile_cons, List.takeWhile_cons, List.dropWhile_cons,
      List.dropWhile_cons, ih.1, ih.2]
    cases isDigit b <;> exact ⟨rfl, rfl⟩

theorem someDigits_append (stop stop' text : Bytes) :
    Carries rest (someDigits stop text) (someDigits stop' (text ++ rest)) := by
  obtain ⟨htake, hdrop⟩ := takeWhile_append ends text
  rw [Carries, someDigits_toOption, someDigits_toOption, htake, hdrop]
  split <;> rfl

theorem splitWhole_append (text : Bytes) :
    Carries rest (splitWhole text) (splitWhole (text ++ rest)) := by
  refine (someDigits_append ends _ _ text).bind fun digits left => ?_
  dsimp only
  split
  · exact .error ..
  · exact .ok ..

theorem splitFraction_append (text : Bytes) :
    Carries rest (splitFraction text) (splitFraction (text ++ rest)) := by
  cases text with
  | cons b text =>
    rw [List.cons_append, splitFraction, splitFraction]
    split
    · exact someDigits_append ends text _ text
    · exact .ok [] (b :: text) rest
  | nil =>
    cases rest with
    | nil => exact .ok [] [] []
    | cons b rest =>
      obtain ⟨-, hpoint, -⟩ := isNumberByte_eq_false_iff.mp (ends b rfl)
      rw [List.nil_append, splitFraction, splitFraction, if_neg hpoint]
      exact .ok [] [] (b :: rest)

theorem splitSign_append (text : Bytes) :
    splitSign (text ++ rest) = ((splitSign text).1, (splitSign text).2 ++ rest) := by
  cases text with
  | cons b text =>
    rw [List.cons_append, splitSign, splitSign]
    split
    · rfl
    · split <;> rfl
  | nil =>
    cases rest with
    | nil => rfl
    | cons b rest =>
      obtain ⟨-, -, -, -, hplus, hminus⟩ := isNumberByte_eq_false_iff.mp (ends b rfl)
      rw [List.nil_append, splitSign, if_neg hminus, if_neg hplus]
      rfl

theorem splitExponent_append (text : Bytes) :
    Carries rest (splitExponent text) (splitExponent (text ++ rest)) := by
  cases text with
  | cons b text =>
    rw [List.cons_append, splitExponent, splitExponent]
    split
    · rw [splitSign_append ends]
      exact (someDigits_append ends _ _ _).bind fun digits left => .ok ..
    · exact .ok none (b :: text) rest
  | nil =>
    cases rest with
    | nil => exact .ok none [] []
    | cons b rest =>
      obtain ⟨-, -, hlower, hupper, -⟩ := isNumberByte_eq_false_iff.mp (ends b rfl)
      rw [List.nil_append, splitExponent, splitExponent, if_neg (not_or.mpr ⟨hlower, hupper⟩)]
      exact .ok none [] (b :: rest)

/-- What stands behind a number makes no difference to it. -/
theorem split_append (text : Bytes) :
    Carries rest (NumberText.split text) (NumberText.split (text ++ rest)) := by
  have hhead : ((text ++ rest).head? = some '-'.toUInt8) = (text.head? = some '-'.toUInt8) := by
    cases text with
    | cons b text => rfl
    | nil =>
      cases rest with
      | nil => rfl
      | cons b rest =>
        obtain ⟨-, -, -, -, -, hminus⟩ := isNumberByte_eq_false_iff.mp (ends b rfl)
        simp [hminus]
  have htail : (if text.head? = some '-'.toUInt8 then (text ++ rest).tail else text ++ rest) =
      (if text.head? = some '-'.toUInt8 then text.tail else text) ++ rest := by
    cases text with
    | cons b text => split <;> rfl
    | nil => rfl
  simp only [NumberText.split, hhead, htail]
  exact (splitWhole_append ends _).bind fun whole left =>
    (splitFraction_append ends left).bind fun fraction left =>
      (splitExponent_append ends left).bind fun exponent left => .ok ..

omit ends

/-! ### What a number leaves -/

/-- What is left of a text is its end. -/
def Leaves {α : Type} (text : Bytes) (result : Except (Fault × Bytes) (α × Bytes)) : Prop :=
  ∀ value left, result = .ok (value, left) → left <:+ text

theorem Leaves.bind {α β : Type} {text : Bytes} {result : Except (Fault × Bytes) (α × Bytes)}
    (h : Leaves text result) {next : α × Bytes → Except (Fault × Bytes) (β × Bytes)}
    (hnext : ∀ value left, Leaves left (next (value, left))) : Leaves text (result >>= next) := by
  intro value left he
  obtain ⟨⟨middle, after⟩, hresult, he⟩ := bind_eq_ok_iff.mp he
  exact (hnext middle after value left he).trans (h middle after hresult)

theorem Leaves.ok {α : Type} (value : α) (text : Bytes) : Leaves text (.ok (value, text)) := by
  intro value left he
  cases he
  exact List.suffix_refl text

theorem someDigits_leaves (stop text : Bytes) : Leaves text (someDigits stop text) := by
  intro digits left he
  have ho := someDigits_toOption stop text
  rw [he] at ho
  split at ho
  · cases ho
  · cases ho
    exact List.dropWhile_suffix _

theorem splitFraction_leaves (text : Bytes) : Leaves text (splitFraction text) := by
  cases text with
  | nil => exact .ok [] []
  | cons b text =>
    rw [splitFraction]
    split
    · intro digits left he
      exact (someDigits_leaves text text digits left he).trans (List.suffix_cons b text)
    · exact .ok [] (b :: text)

theorem splitSign_suffix (text : Bytes) : (splitSign text).2 <:+ text := by
  cases text with
  | nil => exact List.suffix_refl []
  | cons b text =>
    rw [splitSign]
    split
    · exact List.suffix_cons b text
    · split
      · exact List.suffix_cons b text
      · exact List.suffix_refl _

theorem splitExponent_leaves (text : Bytes) : Leaves text (splitExponent text) := by
  cases text with
  | nil => exact .ok none []
  | cons b text =>
    rw [splitExponent]
    split
    · intro exponent left he
      have hdigits := (someDigits_leaves _ _).bind
        (fun digits after => .ok (some ((splitSign text).1, digits)) after) exponent left he
      exact hdigits.trans ((splitSign_suffix text).trans (List.suffix_cons b text))
    · exact .ok none (b :: text)

theorem splitWhole_leaves (text : Bytes) : Leaves text (splitWhole text) := by
  refine (someDigits_leaves _ text).bind fun digits left => ?_
  dsimp only
  split
  · intro value left he
    cases he
  · exact .ok digits left

theorem split_leaves (text : Bytes) : Leaves text (NumberText.split text) := by
  have hunsigned : Leaves (if text.head? = some '-'.toUInt8 then text.tail else text)
      (NumberText.split text) :=
    (splitWhole_leaves _).bind fun whole left => (splitFraction_leaves left).bind
      fun fraction left => (splitExponent_leaves left).bind fun exponent left => .ok _ left
  intro number left he
  refine (hunsigned number left he).trans ?_
  split
  · exact List.tail_suffix text
  · exact List.suffix_refl text

/-! ### Reading a number -/

/-- A reader gives the value up. -/
def Tree.IsBroken (tree : Tree) : Prop :=
  ∃ fault passing reach, tree = .broken fault passing reach

/-- A number is read alike with and without text behind it: some of it is left over both times, or
it is no number both times. -/
theorem readNumber_append (ends : EndsNumber rest) (text : Bytes) :
    (∃ value left, left <:+ text ∧ readNumber text = (.number value, some left) ∧
        readNumber (text ++ rest) = (.number value, some (left ++ rest))) ∨
      (readNumber text).1.IsBroken ∧ (readNumber (text ++ rest)).1.IsBroken := by
  have hcarries := split_append ends text
  rcases halone : NumberText.split text with problem | ⟨number, left⟩ <;>
    rcases hbefore : NumberText.split (text ++ rest) with other | ⟨number', left'⟩ <;>
      rw [Carries, halone, hbefore] at hcarries
  · refine .inr ⟨?_, ?_⟩
    · rw [readNumber, halone]
      exact ⟨_, _, _, rfl⟩
    · rw [readNumber, hbefore]
      exact ⟨_, _, _, rfl⟩
  · cases hcarries
  · cases hcarries
  · cases hcarries
    have hleft := split_leaves text number left halone
    cases hvalue : number.value with
    | ok value =>
      refine .inl ⟨value, left, hleft, ?_, ?_⟩
      · simp only [readNumber, halone, hvalue]
      · simp only [readNumber, hbefore, id, hvalue]
    | error fault =>
      refine .inr ⟨?_, ?_⟩
      · simp only [readNumber, halone, hvalue]
        exact ⟨_, _, _, rfl⟩
      · simp only [readNumber, hbefore, id, hvalue]
        exact ⟨_, _, _, rfl⟩

/-! ### The characters of a number -/

/-- A character that may be part of a number. -/
def IsNumberChar (c : Char) : Prop := c.toNat < 0x80 ∧ isNumberByte c.toUInt8

instance (c : Char) : Decidable (IsNumberChar c) := inferInstanceAs (Decidable (_ ∧ _))

theorem isNumberChar_of_isDigit {c : Char} (h : Numeral.IsDigit c) : IsNumberChar c := by
  obtain ⟨digit, hdigit, rfl⟩ := h
  obtain ⟨hascii, hbyte, -⟩ := isDigit_digitChar digit hdigit
  exact ⟨hascii, by simp [isNumberByte, hbyte]⟩

theorem isNumberChar_of_mem_decimal {value : Nat} {c : Char} (h : c ∈ Numeral.decimal value) :
    IsNumberChar c :=
  isNumberChar_of_isDigit ((Numeral.isDecimal_decimal value).isDigit c h)

theorem isNumberChar_of_mem_shortest {m : Magnitude} {c : Char} (h : c ∈ m.shortest.1) :
    IsNumberChar c := by
  rw [Magnitude.shortest, List.mem_reverse] at h
  exact isNumberChar_of_mem_decimal (List.mem_reverse.mp ((List.dropWhile_suffix _).subset h))

theorem isNumberChar_of_mem_plain {digits : List Char} (hdigits : ∀ c ∈ digits, IsNumberChar c)
    (point : Int) : ∀ c ∈ Double.plain digits point, IsNumberChar c := by
  intro c hc
  have hzero : IsNumberChar '0' := by decide
  have hpoint : IsNumberChar '.' := by decide
  rw [Double.plain] at hc
  split at hc
  · simp only [List.mem_cons, List.cons_append, List.mem_append, List.mem_replicate] at hc
    rcases hc with rfl | rfl | ⟨-, rfl⟩ | hc
    · exact hzero
    · exact hpoint
    · exact hzero
    · exact hdigits c hc
  split at hc
  · simp only [List.mem_append, List.mem_cons, List.mem_replicate, List.not_mem_nil, or_false] at hc
    rcases hc with (hc | ⟨-, rfl⟩) | rfl | rfl
    · exact hdigits c hc
    · exact hzero
    · exact hpoint
    · exact hzero
  · simp only [List.mem_append, List.mem_cons] at hc
    rcases hc with hc | rfl | hc
    · exact hdigits c (List.mem_of_mem_take hc)
    · exact hpoint
    · exact hdigits c (List.mem_of_mem_drop hc)

theorem isNumberChar_of_mem_scientific {digits : List Char}
    (hdigits : ∀ c ∈ digits, IsNumberChar c) (point : Int) :
    ∀ c ∈ Double.scientific digits point, IsNumberChar c := by
  intro c hc
  simp only [Double.scientific, List.mem_append, List.mem_cons, List.not_mem_nil, or_false] at hc
  rcases hc with ((hc | hc) | rfl | hc) | hc
  · exact hdigits c (List.mem_of_mem_take hc)
  · split at hc
    · cases hc
    · next rest _ =>
      rcases List.mem_cons.mp hc with rfl | hc
      · decide
      · exact hdigits c (List.mem_of_mem_drop hc)
  · decide
  · split at hc <;> subst hc <;> decide
  · exact isNumberChar_of_mem_decimal hc

theorem plain_ne_nil (digits : List Char) (point : Int) : Double.plain digits point ≠ [] := by
  rw [Double.plain]
  split
  · simp
  · split <;> simp

/-- A sign, if there is one, and one of the ways to lay out digits. -/
theorem write_cases (d : Double) :
    ∃ rest, d.write = (if d.negative then ['-'] else []) ++ rest ∧
      (rest = ['0', '.', '0'] ∨
        rest = Double.plain d.magnitude.shortest.1 d.magnitude.shortest.2 ∨
          rest = Double.scientific d.magnitude.shortest.1 d.magnitude.shortest.2) := by
  rw [Double.write]
  split
  · exact ⟨_, rfl, .inl rfl⟩
  · dsimp only
    split
    · exact ⟨_, rfl, .inr (.inl rfl)⟩
    · exact ⟨_, rfl, .inr (.inr rfl)⟩

theorem isNumberChar_of_mem_write {d : Double} {c : Char} (h : c ∈ d.write) : IsNumberChar c := by
  have hdigits : ∀ c ∈ d.magnitude.shortest.1, IsNumberChar c :=
    fun _ => isNumberChar_of_mem_shortest
  obtain ⟨rest, hwrite, hrest⟩ := write_cases d
  rw [hwrite, List.mem_append] at h
  rcases h with h | h
  · split at h
    · rw [List.mem_singleton.mp h]
      decide
    · cases h
  · rcases hrest with rfl | rfl | rfl
    · simp only [List.mem_cons, List.not_mem_nil, or_false] at h
      rcases h with rfl | rfl | rfl <;> decide
    · exact isNumberChar_of_mem_plain hdigits _ c h
    · exact isNumberChar_of_mem_scientific hdigits _ c h

theorem write_ne_nil (d : Double) : d.write ≠ [] := by
  obtain ⟨rest, hwrite, hrest⟩ := write_cases d
  rw [hwrite]
  refine List.append_ne_nil_of_right_ne_nil _ ?_
  rcases hrest with rfl | rfl | rfl
  · simp
  · exact plain_ne_nil _ _
  · simp [Double.scientific]

theorem isNumberChar_of_mem_print {n : Num} {c : Char} (h : c ∈ n.print) : IsNumberChar c := by
  cases n with
  | natural value => exact isNumberChar_of_mem_decimal h
  | negative below =>
    rcases List.mem_cons.mp h with rfl | h
    · decide
    · exact isNumberChar_of_mem_decimal h
  | float value => exact isNumberChar_of_mem_write h

theorem print_ne_nil (n : Num) : n.print ≠ [] := by
  cases n with
  | natural value => exact (Numeral.isDecimal_decimal value.toNat).ne_nil
  | negative below => simp [Num.print]
  | float value => exact write_ne_nil value

/-- The bytes of a number. -/
theorem isNumberByte_of_mem_print {n : Num} {b : UInt8} (h : b ∈ Utf8.ofChars n.print) :
    isNumberByte b = true := by
  obtain ⟨c, hc, rfl⟩ := Utf8.mem_ofChars_ascii (fun c hc => (isNumberChar_of_mem_print hc).1) h
  exact (isNumberChar_of_mem_print hc).2

/-! ### A number read back from its own text -/

/-- What the text of a number is read as, if it is read as one number. -/
def Num.reread (n : Num) : Option Num :=
  match readNumber (Utf8.ofChars n.print) with
  | (.number m, some []) => some m
  | _ => none

theorem Num.reread_of_broken {n : Num} (h : (readNumber (Utf8.ofChars n.print)).1.IsBroken) :
    n.reread = none := by
  obtain ⟨fault, passing, reach, hbroken⟩ := h
  rw [reread]
  split
  · next m hm =>
    rw [hm] at hbroken
    cases hbroken
  · rfl

theorem isDigit_of_mem_digits {digits : List Char} (h : ∀ c ∈ digits, Numeral.IsDigit c) :
    ∀ b ∈ Utf8.ofChars digits, isDigit b = true := by
  intro b hb
  have hascii : ∀ c ∈ digits, c.toNat < 0x80 := by
    intro c hc
    obtain ⟨digit, hdigit, rfl⟩ := h c hc
    exact (isDigit_digitChar digit hdigit).1
  obtain ⟨c, hc, rfl⟩ := Utf8.mem_ofChars_ascii hascii hb
  obtain ⟨digit, hdigit, rfl⟩ := h c hc
  exact (isDigit_digitChar digit hdigit).2.1

theorem someDigits_of_all {b : UInt8} {text : Bytes} (stop : Bytes)
    (h : ∀ other ∈ b :: text, isDigit other = true) :
    someDigits stop (b :: text) = .ok (b :: text, []) := by
  have htake := List.takeWhile_eq_self_iff.mpr h
  have hdrop := List.dropWhile_eq_nil_iff.mpr h
  unfold someDigits
  simp only [htake, hdrop]

theorem splitWhole_decimal {value : Nat} {digits : List Char}
    (h : Numeral.IsDecimal value digits) :
    splitWhole (Utf8.ofChars digits) = .ok (Utf8.ofChars digits, []) := by
  have hall := isDigit_of_mem_digits h.isDigit
  obtain ⟨first, rest, rfl, hfirst, hzero⟩ := h.head
  obtain ⟨hascii, -, hvalue⟩ := isDigit_digitChar first hfirst
  rw [Utf8.ofChars_cons_ascii hascii] at hall ⊢
  rw [splitWhole, List.tail_cons, someDigits_of_all _ hall]
  show (if _ ∧ _ then _ else _) = _
  refine if_neg ?_
  rintro ⟨hhead, hlength⟩
  apply hlength
  rw [List.head?_cons, Option.some.injEq] at hhead
  rw [hhead] at hvalue
  rw [(hzero hvalue.symm).2]
  rfl

/-- Digits are a number without a decimal point and an exponent. -/
theorem split_decimal {value : Nat} {digits : List Char} (h : Numeral.IsDecimal value digits) :
    NumberText.split (Utf8.ofChars digits) = .ok (⟨false, Utf8.ofChars digits, [], none⟩, []) := by
  have hminus : (Utf8.ofChars digits).head? ≠ some '-'.toUInt8 := by
    intro hhead
    have hdigit := isDigit_of_mem_digits h.isDigit _ (List.mem_of_head? hhead)
    exact absurd hdigit (by decide)
  simp only [NumberText.split, hminus, if_false, splitWhole_decimal h]
  rfl

theorem split_minus_decimal {value : Nat} {digits : List Char}
    (h : Numeral.IsDecimal value digits) :
    NumberText.split ('-'.toUInt8 :: Utf8.ofChars digits) =
      .ok (⟨true, Utf8.ofChars digits, [], none⟩, []) := by
  simp only [NumberText.split, List.head?_cons, if_true, List.tail_cons, splitWhole_decimal h]
  rfl

/-- A natural number is read back as it was. -/
theorem reread_natural (value : UInt64) : (Num.natural value).reread = some (.natural value) := by
  have hdecimal := Numeral.isDecimal_decimal value.toNat
  have htake := takeWhole_decimal hdecimal value.toNat_lt
  have hread : readNumber (Utf8.ofChars (Num.natural value).print) =
      (.number (.natural value), some []) := by
    rw [Num.print, readNumber, split_decimal hdecimal]
    simp [NumberText.value, htake]
  rw [Num.reread, hread]

/-- So is a negative one. -/
theorem reread_negative (below : Fin 0x8000000000000000) :
    (Num.negative below).reread = some (.negative below) := by
  have hdecimal := Numeral.isDecimal_decimal (below.val + 1)
  have hbelow := below.isLt
  have htake := takeWhole_decimal hdecimal (by unfold significandBound; omega)
  have hread : readNumber (Utf8.ofChars (Num.negative below).print) =
      (.number (.negative below), some []) := by
    have hroom : 0 < below.val + 1 ∧ below.val + 1 ≤ 0x8000000000000000 := ⟨Nat.succ_pos _, hbelow⟩
    rw [Num.print, Utf8.ofChars_cons_ascii (by decide), readNumber, split_minus_decimal hdecimal]
    simp only [NumberText.value, htake, List.isEmpty_nil, Option.isNone_none, true_and, if_true,
      dif_pos hroom, Nat.add_sub_cancel]
  rw [Num.reread, hread]

/-! ### A number among other text -/

/-- A number with text behind it is what it is alone, or no number, or more of a number is left
over. -/
theorem readNumber_print (ends : EndsNumber rest) (n : Num) :
    (∃ m, n.reread = some m ∧
        readNumber (Utf8.ofChars n.print ++ rest) = (.number m, some rest)) ∨
      n.reread = none ∧ ((readNumber (Utf8.ofChars n.print ++ rest)).1.IsBroken ∨
        ∃ m b left, isNumberByte b = true ∧
          readNumber (Utf8.ofChars n.print ++ rest) = (.number m, some (b :: left))) := by
  rcases readNumber_append ends (Utf8.ofChars n.print) with
    ⟨m, left, hleft, halone, hbefore⟩ | ⟨halone, hbefore⟩
  · rw [hbefore]
    cases left with
    | nil =>
      refine .inl ⟨m, ?_, rfl⟩
      rw [Num.reread, halone]
    | cons b left =>
      refine .inr ⟨?_, .inr ⟨m, b, left ++ rest, ?_, rfl⟩⟩
      · rw [Num.reread, halone]
      · exact isNumberByte_of_mem_print (hleft.subset (List.mem_cons_self ..))
  · exact .inr ⟨Num.reread_of_broken halone, .inl hbefore⟩

end Provision.Json
