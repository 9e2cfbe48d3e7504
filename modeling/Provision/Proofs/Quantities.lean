import Provision.Proofs.Calm
import Provision.Proofs.Figures
import Provision.Proofs.Returning
import Provision.Proofs.WholeTexts

/-! What is read as a quantity.

`Says` is the grammar of the literals and their numbers. A text is read exactly if it says a number
of 64 bits. What is wrong with another one is settled by its figures: with figures in front that
are too many already it is too large, whatever comes behind them, and else one of its characters is
no figure. In a document a quantity is such a text, or a natural number in decimal:
`reads_exactly`. -/
namespace Provision.Quantity
open Numeral (Denotes IsFront marks)

/-! ### Literals -/

/-- What may stand before the digits of a number. -/
def signs : List (List Char) := [[], ['+']]

/-- A literal of a number: with a mark in hexadecimal, without one in decimal. -/
inductive Says : List Char → Nat → Prop
  | hexadecimal {mark sign digits : List Char} {value : Nat} : mark ∈ marks → sign ∈ signs →
    digits ≠ [] → Denotes 16 digits value → Says (mark ++ (sign ++ digits)) value
  | decimal {sign digits : List Char} {value : Nat} : sign ∈ signs → digits ≠ [] →
    Denotes 10 digits value → Says (sign ++ digits) value

/-- What is left of a text without its sign, if it has one. -/
def Signed (text rest : List Char) : Prop :=
  text = '+' :: rest ∨ text = rest ∧ rest.head? ≠ some '+'

/-- A text as far as its digits begin: the base that its mark tells, and what is left without the
mark and the sign. -/
inductive Opens : List Char → Nat → List Char → Prop
  | marked {mark text rest : List Char} : mark ∈ marks → Signed text rest →
    Opens (mark ++ text) 16 rest
  | plain {text rest : List Char} : (∀ mark ∈ marks, ¬ mark <+: text) → Signed text rest →
    Opens text 10 rest

theorem exists_signed (text : List Char) : ∃ rest, Signed text rest := by
  by_cases h : text.head? = some '+'
  · obtain ⟨rest, rfl⟩ := List.head?_eq_some_iff.mp h
    exact ⟨rest, .inl rfl⟩
  · exact ⟨text, .inr ⟨rfl, h⟩⟩

theorem exists_opens (text : List Char) : ∃ base rest, Opens text base rest := by
  by_cases h : ∃ mark ∈ marks, mark <+: text
  · obtain ⟨mark, hmark, body, rfl⟩ := h
    obtain ⟨rest, hrest⟩ := exists_signed body
    exact ⟨16, rest, .marked hmark hrest⟩
  · obtain ⟨rest, hrest⟩ := exists_signed text
    exact ⟨10, rest, .plain (fun mark hmark hbegins => h ⟨mark, hmark, hbegins⟩) hrest⟩

namespace Signed

variable {text rest : List Char}

theorem exists_sign (h : Signed text rest) : ∃ sign ∈ signs, text = sign ++ rest := by
  rcases h with rfl | ⟨rfl, -⟩
  · exact ⟨['+'], by simp [signs], rfl⟩
  · exact ⟨[], by simp [signs], rfl⟩

theorem read (h : Signed text rest) (hne : rest ≠ []) (base limit : Nat) :
    Numeral.read base limit text = Numeral.readDigits base limit 0 rest := by
  obtain ⟨c, others, rfl⟩ := List.exists_cons_of_ne_nil hne
  rcases h with rfl | ⟨rfl, hplus⟩
  · rfl
  · have hc : c ≠ '+' := fun h => hplus (congrArg some h)
    rw [Numeral.read.eq_def]
    split
    · next h => cases h
    · next h => exact absurd (List.cons.inj h).1 hc
    · next h => exact absurd (List.cons.inj h).1 hc
    · rfl

theorem read_nil (h : Signed text []) (base limit : Nat) :
    ∃ problem, Numeral.read base limit text = .error problem := by
  rcases h with rfl | ⟨rfl, -⟩
  · exact ⟨.invalidDigit, rfl⟩
  · exact ⟨.empty, rfl⟩

end Signed

/-- No figure is taken for a sign. -/
theorem signed_append_iff {base value : Nat} (small : base ≤ 36) {sign digits rest : List Char}
    (hsign : sign ∈ signs) (hdigits : Denotes base digits value) :
    Signed (sign ++ digits) rest ↔ rest = digits := by
  have hplus : digits.head? ≠ some '+' := by
    intro hhead
    exact hdigits.digitValue?_ne_none small '+' (List.mem_of_head? hhead) rfl
  simp only [signs, List.mem_cons, List.not_mem_nil, or_false] at hsign
  rcases hsign with rfl | rfl
  · constructor
    · rintro (h | ⟨h, -⟩)
      · exact absurd (congrArg List.head? h) hplus
      · exact h.symm
    · rintro rfl
      exact .inr ⟨rfl, hplus⟩
  · constructor
    · rintro (h | ⟨rfl, h⟩)
      · exact (List.cons.inj h).2.symm
      · exact absurd rfl h
    · rintro rfl
      exact .inl rfl

/-- The mark of a hexadecimal number is no part of a decimal one. -/
theorem not_isPrefix_decimal {sign digits : List Char} {value : Nat} (hsign : sign ∈ signs)
    (hdigits : Denotes 10 digits value) : ∀ mark ∈ marks, ¬ mark <+: sign ++ digits := by
  have hletter : ∀ c ∈ digits, c ≠ 'x' ∧ c ≠ 'X' := by
    intro c hc
    have hfigure := hdigits.digitValue?_ne_none (by decide) c hc
    constructor
    · rintro rfl
      exact hfigure rfl
    · rintro rfl
      exact hfigure rfl
  rintro mark hmark ⟨rest, h⟩
  simp only [signs, List.mem_cons, List.not_mem_nil, or_false] at hsign
  simp only [marks, List.mem_cons, List.not_mem_nil, or_false] at hmark
  rcases hsign with rfl | rfl
  · rw [List.nil_append] at h
    rcases hmark with rfl | rfl
    · exact (hletter 'x' (h ▸ by simp)).1 rfl
    · exact (hletter 'X' (h ▸ by simp)).2 rfl
  · rcases hmark with rfl | rfl <;> cases (List.cons.inj h).1

namespace Opens

variable {text rest : List Char} {base value : Nat}

theorem small (h : Opens text base rest) : base ≤ 36 := by
  cases h <;> decide

theorem pos (h : Opens text base rest) : 0 < base := by
  cases h <;> decide

/-- A text says what its digits denote. -/
theorem says_iff (h : Opens text base rest) :
    Says text value ↔ rest ≠ [] ∧ Denotes base rest value := by
  constructor
  · intro hliteral
    cases hliteral with
    | @hexadecimal mark sign digits _ hmark hsign hne hdigits =>
      generalize hfront : mark ++ (sign ++ digits) = whole at h
      cases h with
      | marked hother hsigned =>
        rw [← Numeral.eq_of_marks hmark hother hfront,
          signed_append_iff (by decide) hsign hdigits] at hsigned
        exact ⟨hsigned ▸ hne, hsigned ▸ hdigits⟩
      | plain hplain => exact absurd ⟨_, hfront⟩ (hplain mark hmark)
    | @decimal sign digits _ hsign hne hdigits =>
      generalize hfront : sign ++ digits = whole at h
      cases h with
      | marked hmark =>
        exact absurd ⟨_, hfront.symm⟩ (not_isPrefix_decimal hsign hdigits _ hmark)
      | plain _ hsigned =>
        rw [← hfront, signed_append_iff (by decide) hsign hdigits] at hsigned
        exact ⟨hsigned ▸ hne, hsigned ▸ hdigits⟩
  · rintro ⟨hne, hdigits⟩
    cases h with
    | marked hmark hsigned =>
      obtain ⟨sign, hsign, rfl⟩ := hsigned.exists_sign
      exact .hexadecimal hmark hsign hne hdigits
    | plain _ hsigned =>
      obtain ⟨sign, hsign, rfl⟩ := hsigned.exists_sign
      exact .decimal hsign hne hdigits

end Opens

/-! ### Texts -/

theorem markedDigits?_append {mark : List Char} (h : mark ∈ marks) (text : List Char) :
    markedDigits? (mark ++ text) = some text := by
  simp only [marks, List.mem_cons, List.not_mem_nil, or_false] at h
  rcases h with rfl | rfl <;> rfl

theorem markedDigits?_eq_none {text : List Char} (h : ∀ mark ∈ marks, ¬ mark <+: text) :
    markedDigits? text = none := by
  rw [markedDigits?.eq_def]
  split
  · next digits => exact absurd ⟨digits, rfl⟩ (h ['0', 'x'] (by simp [marks]))
  · next digits => exact absurd ⟨digits, rfl⟩ (h ['0', 'X'] (by simp [marks]))
  · rfl

namespace Opens

variable {text rest : List Char} {base : Nat}

/-- Without digits there is no quantity. -/
theorem parse_nil (h : Opens text base []) : ∃ problem, parse text = .error problem := by
  cases h with
  | @marked mark body _ hmark hsigned =>
    rw [parse, markedDigits?_append hmark]
    rcases hsigned with rfl | ⟨rfl, -⟩
    · exact ⟨_, rfl⟩
    · exact ⟨_, rfl⟩
  | plain hplain hsigned =>
    obtain ⟨problem, hread⟩ := hsigned.read_nil 10 UInt64.size
    rw [parse, markedDigits?_eq_none hplain]
    exact ⟨.malformed problem, by simp only [readDigits, hread]⟩

theorem parse_eq (h : Opens text base rest) (hne : rest ≠ []) :
    parse text = ((Numeral.readDigits base UInt64.size 0 rest).map UInt64.ofNat).mapError
      Problem.malformed := by
  have hresult : ∀ {base digits}, Numeral.read base UInt64.size digits =
        Numeral.readDigits base UInt64.size 0 rest →
      readDigits base digits = ((Numeral.readDigits base UInt64.size 0 rest).map
        UInt64.ofNat).mapError Problem.malformed := by
    intro base digits hread
    rw [readDigits, hread]
    cases Numeral.readDigits base UInt64.size 0 rest <;> rfl
  cases h with
  | @marked mark body _ hmark hsigned =>
    have hbody : body ≠ [] := by
      rintro rfl
      rcases hsigned with h | ⟨rfl, -⟩
      · cases h
      · exact hne rfl
    obtain ⟨c, others, rfl⟩ := List.exists_cons_of_ne_nil hbody
    rw [parse, markedDigits?_append hmark]
    exact hresult (hsigned.read hne ..)
  | plain hplain hsigned =>
    rw [parse, markedDigits?_eq_none hplain]
    exact hresult (hsigned.read hne ..)

end Opens

/-- The figures in front are already a number of more than 64 bits. -/
def IsTooLarge (base : Nat) (text : List Char) : Prop :=
  ∃ row number, IsFront base row text ∧ Denotes base row number ∧ 2 ^ 64 ≤ number

/-- How a text is read. -/
structure ReadsText (text : List Char) : Prop where
  /-- The literals of numbers of 64 bits are read as their numbers. -/
  accepted : ∀ value, parse text = .ok value ↔ Says text value.toNat
  /-- All other texts are refused. -/
  refused : (¬ ∃ value : UInt64, Says text value.toNat) → ∃ problem, parse text = .error problem
  /-- Every text goes on in some way behind a mark and a sign. -/
  opens : ∃ base rest, Opens text base rest
  /-- If it goes on at all, the figures that come next can be too many. -/
  tooLarge : ∀ base rest, Opens text base rest → rest ≠ [] →
    (parse text = .error (.malformed .tooLarge) ↔ IsTooLarge base rest)
  /-- If they are not, a text that is no literal has a character that is no figure. -/
  invalidDigit : ∀ base rest, Opens text base rest → rest ≠ [] →
    (parse text = .error (.malformed .invalidDigit) ↔
      (¬ ∃ value : UInt64, Says text value.toNat) ∧ ¬ IsTooLarge base rest)

theorem parse_eq_ok_iff {text : List Char} {value : UInt64} :
    parse text = .ok value ↔ Says text value.toNat := by
  obtain ⟨base, rest, hopens⟩ := exists_opens text
  rw [hopens.says_iff]
  by_cases hne : rest = []
  · subst hne
    obtain ⟨problem, hparse⟩ := hopens.parse_nil
    simp [hparse]
  have hread : ∀ {number}, Numeral.readDigits base UInt64.size 0 rest = .ok number ↔
      Denotes base rest number ∧ number < UInt64.size :=
    Numeral.readDigits_zero_eq_ok_iff hopens.small hopens.pos (by decide)
  rw [hopens.parse_eq hne]
  constructor
  · intro h
    cases hnumber : Numeral.readDigits base UInt64.size 0 rest with
    | error problem =>
      rw [hnumber] at h
      cases h
    | ok number =>
      rw [hnumber] at h
      cases h
      obtain ⟨hdenotes, hless⟩ := hread.mp hnumber
      rw [UInt64.toNat_ofNat_of_lt' hless]
      exact ⟨hne, hdenotes⟩
  · rintro ⟨-, hdenotes⟩
    rw [hread.mpr ⟨hdenotes, value.toNat_lt⟩]
    simp [Except.map, Except.mapError]

theorem parse_refused {text : List Char} (h : ¬ ∃ value : UInt64, Says text value.toNat) :
    ∃ problem, parse text = .error problem := by
  cases hparse : parse text with
  | error problem => exact ⟨problem, rfl⟩
  | ok value => exact absurd ⟨value, parse_eq_ok_iff.mp hparse⟩ h

namespace Opens

variable {text rest : List Char} {base : Nat} (h : Opens text base rest) (hne : rest ≠ [])

include h hne

theorem parse_eq_malformed_iff {problem : Numeral.Problem} :
    parse text = .error (.malformed problem) ↔
      Numeral.readDigits base UInt64.size 0 rest = .error problem := by
  rw [h.parse_eq hne]
  cases Numeral.readDigits base UInt64.size 0 rest <;> simp [Except.map, Except.mapError]

theorem parse_eq_tooLarge_iff :
    parse text = .error (.malformed .tooLarge) ↔ IsTooLarge base rest := by
  rw [h.parse_eq_malformed_iff hne]
  exact Numeral.readDigits_zero_eq_tooLarge_iff h.small h.pos (by decide)

theorem parse_eq_invalidDigit_iff :
    parse text = .error (.malformed .invalidDigit) ↔
      (¬ ∃ value : UInt64, Says text value.toNat) ∧ ¬ IsTooLarge base rest := by
  rw [← h.parse_eq_tooLarge_iff hne]
  simp only [← parse_eq_ok_iff]
  rw [h.parse_eq hne]
  have hempty : Numeral.readDigits base UInt64.size 0 rest ≠ .error .empty :=
    Numeral.readDigits_ne_empty
  cases hread : Numeral.readDigits base UInt64.size 0 rest with
  | ok number => simp [Except.map, Except.mapError]
  | error problem => cases problem <;> simp_all [Except.map, Except.mapError]

end Opens

theorem readsText (text : List Char) : ReadsText text where
  accepted _ := parse_eq_ok_iff
  refused := parse_refused
  opens := exists_opens text
  tooLarge _ _ := Opens.parse_eq_tooLarge_iff
  invalidDigit _ _ := Opens.parse_eq_invalidDigit_iff

/-! ### Documents -/

open Json Text

/-- A value in a document that is a quantity. -/
inductive Shows : Tree → UInt64 → Prop
  | number (value : UInt64) : Shows (.number (.natural value)) value
  | string {text : String} {value : UInt64} : Says text.toList value.toNat →
    Shows (.string text) value

theorem read_eq_ok_iff {tree : Tree} {value : UInt64} :
    read tree = .ok value ↔ Shows tree value := by
  constructor
  · intro h
    unfold read at h
    split at h
    · cases h
      exact .number value
    · cases h
    · next text =>
      split at h
      · next hparse =>
        cases h
        exact .string (parse_eq_ok_iff.mp hparse)
      · cases h
    · cases h
  · rintro (_ | hliteral)
    · rfl
    · rw [read, parse_eq_ok_iff.mpr hliteral]

/-- A value in a document that is a quantity, or none. -/
inductive ShowsOptional : Tree → Option UInt64 → Prop
  | null : ShowsOptional .null none
  | some {tree : Tree} {value : UInt64} : Shows tree value → ShowsOptional tree (some value)

theorem optional_read_eq_ok_iff {depth : Nat} {tree : Tree} {result : Option UInt64} :
    codec.optional.read depth tree = .ok result ↔ ShowsOptional tree result := by
  constructor
  · intro h
    simp only [Codec.optional] at h
    split at h
    · cases h
      exact .null
    · obtain ⟨value, hread, rfl⟩ := map_eq_ok_iff.mp h
      exact .some (read_eq_ok_iff.mp hread)
  · rintro (_ | hshows)
    · rfl
    · have hread := read_eq_ok_iff.mpr hshows
      cases hshows with
      | number => rfl
      | string => exact map_eq_ok_iff.mpr ⟨_, hread, rfl⟩

/-- A text is a quantity: a natural number in decimal, or a string that holds a literal. -/
def IsDocument (text : Bytes) (value : UInt64) : Prop :=
  Alone (Utf8.ofChars (Numeral.decimal value.toNat)) text ∨
    ∃ content : String, (Tree.string content).Fills text ∧ Says content.toList value.toNat

theorem isDocument_iff {text : Bytes} {value : UInt64} :
    IsDocument text value ↔ ∃ tree : Tree, tree.Fills text ∧ Shows tree value := by
  rw [IsDocument, ← fills_natural_iff]
  constructor
  · rintro (hfills | ⟨content, hfills, hliteral⟩)
    · exact ⟨_, hfills, .number value⟩
    · exact ⟨_, hfills, .string hliteral⟩
  · rintro ⟨tree, hfills, hshows⟩
    cases hshows with
    | number => exact .inl hfills
    | string hliteral => exact .inr ⟨_, hfills, hliteral⟩

theorem decode_eq_ok_iff {text : Bytes} {value : UInt64} :
    decode codec.read text = .ok value ↔ IsDocument text value := by
  rw [isDocument_iff, Decoder.decode_eq_ok_iff codec_calm]
  exact exists_congr fun tree => and_congr_right fun _ => read_eq_ok_iff

theorem decode_optional_eq_ok_iff {text : Bytes} {result : Option UInt64} :
    decode codec.optional.read text = .ok result ↔
      Alone nullWord text ∧ result = none ∨
        ∃ value, IsDocument text value ∧ result = some value := by
  rw [Decoder.decode_eq_ok_iff (Codec.optional_calm codec_calm), ← fills_null_iff]
  simp only [optional_read_eq_ok_iff, isDocument_iff]
  constructor
  · rintro ⟨tree, hfills, hshows⟩
    cases hshows with
    | null => exact .inl ⟨hfills, rfl⟩
    | some hshows => exact .inr ⟨_, ⟨tree, hfills, hshows⟩, rfl⟩
  · rintro (⟨hfills, rfl⟩ | ⟨value, ⟨tree, hfills, hshows⟩, rfl⟩)
    · exact ⟨_, hfills, .null⟩
    · exact ⟨tree, hfills, .some hshows⟩

theorem parse_print_document (value : UInt64) : codec.parse (codec.print value) = .ok value := by
  have hreturns : codec.Returns 0 value := returns value
  exact Codec.parse_print hreturns.written.reread_eq (hreturns.read _ (Nat.zero_le _))

theorem parse_print_optional (value : Option UInt64) :
    codec.optional.parse (codec.optional.print value) = .ok value := by
  have hreturns : codec.optional.Returns 0 value :=
    .optional (fun content _ => returns content) fun _ h => nomatch h
  exact Codec.parse_print hreturns.written.reread_eq (hreturns.read _ (Nat.zero_le _))

/-- How a value in a document is read, wherever it stands. -/
structure ReadsTree (tree : Tree) : Prop where
  quantity : ∀ depth value, codec.read depth tree = .ok value ↔ Shows tree value
  optional : ∀ depth result, codec.optional.read depth tree = .ok result ↔
    ShowsOptional tree result

/-- How a whole text is read. -/
structure ReadsDocument (text : Bytes) : Prop where
  quantity : ∀ value, decode codec.read text = .ok value ↔ IsDocument text value
  optional : ∀ result, decode codec.optional.read text = .ok result ↔
    Alone nullWord text ∧ result = none ∨ ∃ value, IsDocument text value ∧ result = some value

/-- **A quantity is read if it is written as one, and as the number that is written.** Nothing is
cut off: what does not fit is refused, with the reason that the figures in front give. In a
document there are the literals and the natural numbers of 64 bits, and null where a quantity may
be left out. What is written is read back. -/
theorem reads_exactly :
    (∀ text, ReadsText text) ∧ (∀ tree, ReadsTree tree) ∧ (∀ text, ReadsDocument text) ∧
      (∀ value, codec.parse (codec.print value) = .ok value) ∧
      ∀ value, codec.optional.parse (codec.optional.print value) = .ok value := by
  refine ⟨readsText, fun tree => ?_, fun text => ?_, parse_print_document, parse_print_optional⟩
  · exact ⟨fun _ _ => read_eq_ok_iff, fun _ _ => optional_read_eq_ok_iff⟩
  · exact ⟨fun _ => decode_eq_ok_iff, fun _ => decode_optional_eq_ok_iff⟩

/-- The figures in front are looked at first. -/
example : parse "0x+10000000000000000.".toList = .error (.malformed .tooLarge) ∧
    parse "0x+ffffffffffffffff.".toList = .error (.malformed .invalidDigit) := by
  decide +kernel

end Provision.Quantity
