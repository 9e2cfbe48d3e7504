import Mathlib.Data.List.Induction
import Mathlib.Tactic.Ring
import Provision.Proofs.Figures
import Provision.Proofs.Keys
import Provision.Proofs.Outcome

/-! What is read as a word.

A word has at most 64 digits, with a mark or without one; missing digits are zeros on the left. On
the way from the text to the bytes lengths are taken of the characters and of their bytes, and a
mark is looked for twice, but none of it shows: a text is read exactly if it is a literal,
`parse_eq_ok_iff`, and what is read is the number of the literal. -/
namespace Provision

/-! ### Bytes and their number -/

namespace Bytes

theorem bigEndian_toNat (bytes : Bytes) : bigEndian bytes.length bytes.toNat = bytes := by
  induction bytes using List.reverseRecOn with
  | nil => rfl
  | append_singleton bytes byte ih =>
    have hbyte : byte.toNat < 256 := byte.toNat_lt
    have hdiv : (toNat bytes * 256 + byte.toNat) / 256 = toNat bytes := by omega
    have hlast : UInt8.ofNat (toNat bytes * 256 + byte.toNat) = byte := by
      apply UInt8.toNat_inj.mp
      rw [UInt8.toNat_ofNat']
      omega
    rw [List.length_append, List.length_singleton, bigEndian, toNat_concat, hdiv, ih, hlast]

/-- The first byte counts as often as there are numbers that the others can stand for. -/
theorem toNat_cons (byte : UInt8) (bytes : Bytes) :
    toNat (byte :: bytes) = byte.toNat * 256 ^ bytes.length + toNat bytes := by
  induction bytes using List.reverseRecOn with
  | nil => simp [toNat]
  | append_singleton bytes last ih =>
    rw [← List.cons_append, toNat_concat, ih, toNat_concat, List.length_append,
      List.length_singleton, Nat.pow_succ]
    ring

end Bytes

namespace Fixed

variable {size : Nat}

theorem ofNat_toNat (word : Fixed size) : ofNat word.toNat = word := by
  have hbytes := Bytes.bigEndian_toNat word.bytes
  rw [word.length_eq] at hbytes
  exact Fixed.ext hbytes

theorem toNat_ofNat {value : Nat} (room : value < 256 ^ size) :
    (ofNat value : Fixed size).toNat = value := by
  rw [toNat, ofNat, Bytes.toNat_bigEndian, Nat.mod_eq_of_lt room]

theorem eq_ofNat_iff {word : Fixed size} {value : Nat} (room : value < 256 ^ size) :
    word = ofNat value ↔ word.toNat = value := by
  constructor
  · rintro rfl
    exact toNat_ofNat room
  · rintro rfl
    exact word.ofNat_toNat.symm

end Fixed

/-! ### Figures in hexadecimal -/

namespace Text.Utf8

theorem length_of_ascii {text : List Char} (ascii : ∀ c ∈ text, c.toNat < 0x80) :
    length text = text.length := by
  induction text with
  | nil => rfl
  | cons c text ih =>
    have hc : c.utf8Size = 1 :=
      Char.utf8Size_eq_one_iff.mpr (Nat.le_of_lt_succ (ascii c (List.mem_cons_self ..)))
    have hrest := ih fun other ho => ascii other (List.mem_cons_of_mem _ ho)
    rw [length] at hrest ⊢
    rw [List.map_cons, List.foldr_cons, hrest, hc, List.length_cons, Nat.add_comm]

theorem length_le (text : List Char) : text.length ≤ length text := by
  induction text with
  | nil => exact Nat.zero_le _
  | cons c text ih =>
    have hc := Char.utf8Size_pos c
    rw [length] at ih ⊢
    rw [List.map_cons, List.foldr_cons, List.length_cons]
    omega

/-- A text that shows no special characters has none. -/
theorem ascii_of_latin {text : List Char} (h : ∀ c ∈ latin text, c.toNat < 0x80) :
    ∀ c ∈ text, c.toNat < 0x80 := by
  intro c hc
  by_contra hnot
  obtain ⟨b, hb⟩ : ∃ b, b ∈ String.utf8EncodeChar c :=
    List.exists_mem_of_ne_nil _ String.utf8EncodeChar_ne_nil
  have hlarge := le_of_mem_encodeChar (Nat.not_lt.mp hnot) hb
  have hshown : Char.ofNat b.toNat ∈ latin text :=
    List.mem_map.mpr ⟨b, List.mem_flatMap.mpr ⟨c, hc, hb⟩, rfl⟩
  have hall : ∀ code < 256, (Char.ofNat code).toNat = code := by decide +kernel
  have hless := h _ hshown
  rw [hall _ b.toNat_lt] at hless
  exact absurd hless (Nat.not_lt.mpr hlarge)

end Text.Utf8

namespace Numeral

theorem IsFigure.ascii {c : Char} {digit : Nat} (h : IsFigure 16 digit c) : c.toNat < 0x80 := by
  have hall : ∀ digit < 16, (digitChar digit).toNat < 0x80 ∧
      (digitChar digit).toUpper.toNat < 0x80 := by
    decide
  obtain ⟨hdigit, rfl | rfl⟩ := h
  · exact (hall digit hdigit).1
  · exact (hall digit hdigit).2

theorem Denotes.ascii {text : List Char} {value : Nat} (h : Denotes 16 text value) :
    ∀ c ∈ text, c.toNat < 0x80 := by
  intro c hc
  obtain ⟨digit, hdigit⟩ := h.isFigure c hc
  exact hdigit.ascii

/-- Zeros in front make no difference to a number. -/
theorem denotes_zeros_iff {base : Nat} (hbase : 0 < base) (small : base ≤ 36) {text : List Char}
    {value : Nat} (count : Nat) :
    Denotes base (List.replicate count '0' ++ text) value ↔ Denotes base text value := by
  have hzero : IsFigure base 0 '0' := ⟨hbase, .inl rfl⟩
  induction count with
  | zero => exact Iff.rfl
  | succ count ih =>
    rw [List.replicate_succ, List.cons_append, denotes_cons_iff]
    refine Iff.trans ?_ ih
    constructor
    · rintro ⟨digit, rest, hdigit, hrest, rfl⟩
      rw [← hzero.unique small hdigit, Nat.zero_mul, Nat.zero_add]
      exact hrest
    · intro h
      exact ⟨0, value, hzero, h, by rw [Nat.zero_mul, Nat.zero_add]⟩

end Numeral

namespace Bytes.Hex
open Numeral Text

/-- No mark is made of figures. -/
theorem stripMark_figures {text : List Char} {value : Nat} (h : Denotes 16 text value) :
    stripMark text = text := by
  have hfigure := h.digitValue?_ne_none (by decide)
  rw [stripMark.eq_def]
  split
  · exact absurd rfl (hfigure 'x' (by simp))
  · exact absurd rfl (hfigure 'X' (by simp))
  · rfl

theorem stripMark_append {mark : List Char} (h : mark ∈ marks) (text : List Char) :
    stripMark (mark ++ text) = text := by
  simp only [marks, List.mem_cons, List.not_mem_nil, or_false] at h
  rcases h with rfl | rfl <;> rfl

/-- A text is a mark and what is left without it. -/
theorem stripMark_cases (text : List Char) :
    stripMark text = text ∨ ∃ mark ∈ marks, text = mark ++ stripMark text := by
  rw [stripMark.eq_def]
  split
  · exact .inr ⟨['0', 'x'], by simp [marks], rfl⟩
  · exact .inr ⟨['0', 'X'], by simp [marks], rfl⟩
  · exact .inl rfl

/-- What is read in pairs is the number that the figures denote. -/
theorem denotes_of_readPairs {position : Nat} {text : List Char} {bytes : Bytes}
    (even : text.length % 2 = 0) (h : readPairs position text = .ok bytes) :
    text.length = 2 * bytes.length ∧ Denotes 16 text bytes.toNat := by
  fun_induction readPairs position text generalizing bytes with
  | case1 position a b rest high low hlow hhigh ih =>
    obtain ⟨others, hothers, rfl⟩ := map_eq_ok_iff.mp h
    obtain ⟨hlength, hrest⟩ := ih (by simp only [List.length_cons] at even; omega) hothers
    have ha := (digitValue?_eq_some_iff (by decide)).mp hhigh
    have hb := (digitValue?_eq_some_iff (by decide)).mp hlow
    refine ⟨by simp only [List.length_cons, hlength]; omega, ?_⟩
    refine denotes_cons_iff.mpr ⟨high, _, ha, denotes_cons_iff.mpr ⟨low, _, hb, hrest, rfl⟩, ?_⟩
    have hhigh := ha.1
    have hlow := hb.1
    have hbyte : (UInt8.ofNat (high * 16 + low)).toNat = high * 16 + low := by
      rw [UInt8.toNat_ofNat']
      omega
    rw [toNat_cons, hbyte, List.length_cons, hlength, Nat.pow_succ, Nat.pow_mul]
    ring
  | case2 | case3 => cases h
  | case4 text position hshort =>
    cases h
    cases text with
    | nil => exact ⟨rfl, denotes_nil_iff.mpr rfl⟩
    | cons a rest =>
      cases rest with
      | nil => cases even
      | cons b rest => exact absurd rfl (hshort a b rest)

theorem exists_readPairs (position : Nat) {value : Nat} {text : List Char}
    (h : Denotes 16 text value) :
    ∃ bytes, readPairs position text = .ok bytes := by
  have hfigure := h.digitValue?_ne_none (by decide)
  clear h
  fun_induction readPairs position text with
  | case1 position a b rest high low _ _ ih =>
    obtain ⟨bytes, hbytes⟩ := ih fun c hc => hfigure c (by simp [hc])
    exact ⟨_, map_eq_ok_iff.mpr ⟨bytes, hbytes, rfl⟩⟩
  | case2 position a b rest hnone => exact absurd hnone (hfigure a (by simp))
  | case3 position a b rest _ hnone => exact absurd hnone (hfigure b (by simp))
  | case4 => exact ⟨[], rfl⟩

variable {size : Nat} {text : List Char}

/-- A mark would take two characters of a text that has none to spare. -/
theorem stripMark_latin {value : Nat} (hlength : (stripMark (Utf8.latin text)).length = text.length)
    (h : Denotes 16 (stripMark (Utf8.latin text)) value) : stripMark (Utf8.latin text) = text := by
  rcases stripMark_cases (Utf8.latin text) with hsame | ⟨mark, hmark, hmarked⟩
  · rw [hsame] at h ⊢
    exact latin_of_ascii (Utf8.ascii_of_latin h.ascii)
  · have hall : ∀ mark ∈ marks, mark.length = 2 ∧ ∀ c ∈ mark, c.toNat < 0x80 := by
      simp [marks]
    have hascii : ∀ c ∈ Utf8.latin text, c.toNat < 0x80 := by
      intro c hc
      rw [hmarked] at hc
      rcases List.mem_append.mp hc with hc | hc
      · exact (hall mark hmark).2 c hc
      · exact h.ascii c hc
    have hwhole := congrArg List.length hmarked
    rw [List.length_append, (hall mark hmark).1, hlength,
      latin_of_ascii (Utf8.ascii_of_latin hascii)] at hwhole
    omega

theorem denotes_of_decodeFixed {word : Fixed size} (hlength : text.length = 2 * size)
    (h : decodeFixed size text = .ok word) : Denotes 16 text word.toNat := by
  unfold decodeFixed at h
  dsimp only at h
  split at h
  · cases h
  split at h
  next hstrip =>
    split at h
    · cases h
    next bytes hbytes =>
    split at h
    next hword =>
      cases h
      obtain ⟨-, hdenotes⟩ := denotes_of_readPairs (by omega) hbytes
      rw [← Fixed.ofBytes?_eq_some_iff.mp hword] at hdenotes
      rwa [stripMark_latin (hstrip.trans hlength.symm) hdenotes] at hdenotes
    · cases h
  · cases h

theorem decodeFixed_of_denotes {word : Fixed size} (hlength : text.length = 2 * size)
    (h : Denotes 16 text word.toNat) : decodeFixed size text = .ok word := by
  have even : text.length % 2 = 0 := by omega
  obtain ⟨bytes, hbytes⟩ := exists_readPairs 0 h
  obtain ⟨hsize, hdenotes⟩ := denotes_of_readPairs even hbytes
  have hword : Fixed.ofBytes? bytes = some word := by
    rw [Fixed.ofBytes?_eq_some_iff]
    have hsame : word.toNat = bytes.toNat := h.unique (by decide) hdenotes
    rw [← bigEndian_toNat bytes, ← hsame, show bytes.length = size by omega]
    exact congrArg Fixed.bytes word.ofNat_toNat.symm
  rw [decodeFixed, latin_of_ascii h.ascii, if_neg (by omega), stripMark_figures h, if_pos hlength,
    hbytes]
  dsimp only
  rw [hword]

end Bytes.Hex

namespace Word
open Bytes.Hex Numeral

/-! ### Literals -/

/-- A literal of a word: at most 64 figures in hexadecimal, with a mark or without one. -/
def Says (text : List Char) (value : Nat) : Prop :=
  ∃ mark ∈ [] :: marks, ∃ digits, text = mark ++ digits ∧ digits.length ≤ 64 ∧
    Denotes 16 digits value

theorem says_iff {text : List Char} {value : Nat} :
    Says text value ↔ (stripMark text).length ≤ 64 ∧ Denotes 16 (stripMark text) value := by
  constructor
  · rintro ⟨mark, hmark, digits, rfl, hlength, hdigits⟩
    have hstrip : stripMark (mark ++ digits) = digits := by
      rcases List.mem_cons.mp hmark with rfl | hmark
      · exact stripMark_figures hdigits
      · exact stripMark_append hmark digits
    rw [hstrip]
    exact ⟨hlength, hdigits⟩
  · rintro ⟨hlength, hdigits⟩
    rcases stripMark_cases text with hsame | ⟨mark, hmark, htext⟩
    · exact ⟨[], List.mem_cons_self .., _, hsame.symm, hlength, hdigits⟩
    · exact ⟨mark, List.mem_cons_of_mem _ hmark, _, htext, hlength, hdigits⟩

theorem Says.room {text : List Char} {value : Nat} (h : Says text value) : value < 256 ^ 32 := by
  obtain ⟨_, -, digits, -, hlength, hdigits⟩ := h
  calc value < 16 ^ digits.length := hdigits.lt_pow
    _ ≤ 16 ^ 64 := Nat.pow_le_pow_right (by decide) hlength
    _ = 256 ^ 32 := by decide

theorem Says.unique {text : List Char} {value other : Nat} (h : Says text value)
    (hother : Says text other) : value = other :=
  (says_iff.mp h).2.unique (by decide) (says_iff.mp hother).2

theorem parse_eq_ok_iff {text : List Char} {word : Word} :
    parse text = .ok word ↔ Says text word.toNat := by
  rw [says_iff, parse]
  generalize stripMark text = digits
  have hpad : digits.length ≤ 64 → (pad digits).length = 2 * 32 := by
    intro hlength
    rw [pad, List.length_append, List.length_replicate]
    omega
  have hsame : Denotes 16 (pad digits) word.toNat ↔ Denotes 16 digits word.toNat :=
    denotes_zeros_iff (by decide) (by decide) _
  constructor
  · intro h
    split at h
    · cases h
    next hsize =>
    have hlength : digits.length ≤ 64 :=
      (Text.Utf8.length_le digits).trans (Nat.not_lt.mp hsize)
    split at h
    next hdecode =>
      cases h
      exact ⟨hlength, hsame.mp (denotes_of_decodeFixed (hpad hlength) hdecode)⟩
    · cases h
  · rintro ⟨hlength, hdigits⟩
    rw [Text.Utf8.length_of_ascii hdigits.ascii, if_neg (Nat.not_lt.mpr hlength),
      decodeFixed_of_denotes (hpad hlength) (hsame.mpr hdigits)]

/-- How a text is read. -/
structure ReadsText (text : List Char) : Prop where
  /-- The literals are read, each as the bytes of its number. -/
  accepted : ∀ word, parse text = .ok word ↔ ∃ value, Says text value ∧ word = Fixed.ofNat value
  /-- Two literals are the same word if they are the same number. -/
  same : ∀ other a b, Says text a → Says other b → (parse text = parse other ↔ a = b)
  /-- All other texts are refused. -/
  refused : (¬ ∃ value, Says text value) → ∃ problem, parse text = .error problem
  /-- A second mark behind the first is one of the reasons, however long the text is. -/
  marked : ∀ mark ∈ marks, ∀ other ∈ marks, mark ++ other <+: text →
    ∃ problem, parse text = .error problem
  /-- A character that takes more than one byte is another. -/
  foreign : (∃ c ∈ text, 0x80 ≤ c.toNat) → ∃ problem, parse text = .error problem

theorem parse_literal {text : List Char} {value : Nat} (h : Says text value) :
    parse text = .ok (Fixed.ofNat value) := by
  rw [parse_eq_ok_iff, Fixed.toNat_ofNat h.room]
  exact h

theorem parse_refused {text : List Char} (h : ¬ ∃ value, Says text value) :
    ∃ problem, parse text = .error problem := by
  cases hparse : parse text with
  | error problem => exact ⟨problem, rfl⟩
  | ok word => exact absurd ⟨_, parse_eq_ok_iff.mp hparse⟩ h

theorem Says.ascii {text : List Char} {value : Nat} (h : Says text value) :
    ∀ c ∈ text, c.toNat < 0x80 := by
  obtain ⟨mark, hmark, digits, rfl, -, hdigits⟩ := h
  have hall : ∀ mark ∈ [] :: marks, ∀ c ∈ mark, c.toNat < 0x80 := by simp [marks]
  intro c hc
  rcases List.mem_append.mp hc with hc | hc
  · exact hall mark hmark c hc
  · exact hdigits.ascii c hc

/-- The second mark would be among the figures. -/
theorem Says.not_marked {mark other text : List Char} {value : Nat} (h : Says text value)
    (hmark : mark ∈ marks) (hother : other ∈ marks) : ¬ mark ++ other <+: text := by
  rintro ⟨rest, rfl⟩
  obtain ⟨-, hdigits⟩ := says_iff.mp h
  rw [List.append_assoc, stripMark_append hmark] at hdigits
  have hsame := (stripMark_figures hdigits).symm.trans (stripMark_append hother rest)
  have hlength := congrArg List.length hsame
  have htwo : ∀ mark ∈ marks, mark.length = 2 := by decide
  rw [List.length_append, htwo other hother] at hlength
  omega

/-- **A text is a word if it is at most 64 figures behind at most one mark,** and it is the word of
the number that the figures denote. -/
theorem reads_words (text : List Char) : ReadsText text where
  accepted word := by
    constructor
    · intro h
      exact ⟨_, parse_eq_ok_iff.mp h, word.ofNat_toNat.symm⟩
    · rintro ⟨value, hliteral, rfl⟩
      exact parse_literal hliteral
  same other a b ha hb := by
    rw [parse_literal ha, parse_literal hb, Except.ok.injEq, Fixed.eq_ofNat_iff hb.room,
      Fixed.toNat_ofNat ha.room]
  refused := parse_refused
  marked mark hmark other hother h :=
    parse_refused fun ⟨_, hliteral⟩ => hliteral.not_marked hmark hother h
  foreign := by
    rintro ⟨c, hc, hforeign⟩
    exact parse_refused fun ⟨_, hliteral⟩ => absurd (hliteral.ascii c hc) (Nat.not_lt.mpr hforeign)

end Word

end Provision
