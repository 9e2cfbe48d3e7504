import Provision.Proofs.Numbers

/-! On which side of its quotes a text is.

Outside of its strings a JSON text has few kinds of bytes. So of two readers of one text, the one
inside of a string where the other one is outside, each stays on its side until they change
places, and they never come together, `Spot.opposite`. `Moves` is a reader going over the
front of a text: from which spot to which, and what it does there whatever stands behind. -/
namespace Provision.Json

/-! ### Quotes -/

/-- Where a reader of a text is, as far as quotes go. -/
inductive Spot
  | outside
  | inside
  /-- Inside, behind a backslash. -/
  | escaped
deriving DecidableEq, Repr

/-- The bytes of a text outside of its strings, but for blanks, numbers and quotes. -/
def marks : Bytes :=
  ['[', ']', '\x7b', '\x7d', ',', ':', 'n', 'u', 'l', 't', 'r', 'e', 'f', 'a', 's'].map Char.toUInt8

/-- A byte that may stand outside of strings and is no quote. -/
def isBare (b : UInt8) : Bool :=
  isBlank b || isNumberByte b || marks.contains b

namespace Spot

/-- One byte further, if that byte may come there. -/
def next (spot : Spot) (b : UInt8) : Option Spot :=
  match spot with
  | outside => if b = '"'.toUInt8 then some inside else if isBare b then some outside else none
  | inside =>
    if b = '"'.toUInt8 then some outside
    else if b = '\\'.toUInt8 then some escaped
    else some inside
  | escaped => some inside

def after (spot : Spot) : Bytes → Option Spot
  | [] => some spot
  | b :: text => do (← spot.next b).after text

theorem after_append (spot : Spot) (front text : Bytes) :
    spot.after (front ++ text) = (spot.after front).bind (·.after text) := by
  induction front generalizing spot with
  | nil => rfl
  | cons b front ih =>
    rw [List.cons_append, after, after]
    cases spot.next b with
    | none => rfl
    | some other => exact ih other

theorem next_outside_quote : outside.next '"'.toUInt8 = some inside := rfl

theorem next_inside_quote : inside.next '"'.toUInt8 = some outside := rfl

theorem next_outside {b : UInt8} (h : isBare b = true) : outside.next b = some outside := by
  have hquote : b ≠ '"'.toUInt8 := by
    rintro rfl
    exact absurd h (by decide)
  rw [next, if_neg hquote, if_pos h]

theorem next_inside {b : UInt8} (hquote : b ≠ '"'.toUInt8) (hescape : b ≠ '\\'.toUInt8) :
    inside.next b = some inside := by
  rw [next, if_neg hquote, if_neg hescape]

theorem after_outside {text : Bytes} (h : ∀ b ∈ text, isBare b = true) :
    outside.after text = some outside := by
  induction text with
  | nil => rfl
  | cons b text ih =>
    rw [after, next_outside (h b (List.mem_cons_self ..))]
    exact ih fun other ho => h other (List.mem_cons_of_mem _ ho)

theorem after_inside {text : Bytes} (h : ∀ b ∈ text, b ≠ '"'.toUInt8 ∧ b ≠ '\\'.toUInt8) :
    inside.after text = some inside := by
  induction text with
  | nil => rfl
  | cons b text ih =>
    obtain ⟨hquote, hescape⟩ := h b (List.mem_cons_self ..)
    rw [after, next_inside hquote hescape]
    exact ih fun other ho => h other (List.mem_cons_of_mem _ ho)

/-- Two readers of one text on different sides of a quote never come together. -/
theorem opposite {text : Bytes} {first second : Spot} :
    outside.after text = some first → inside.after text = some second →
      first = outside ∧ second = inside ∨ first = inside ∧ second = outside := by
  induction text generalizing first second with
  | nil =>
    rintro ⟨⟩ ⟨⟩
    exact .inl ⟨rfl, rfl⟩
  | cons b text ih =>
    intro hout hin
    rw [after] at hout hin
    by_cases hquote : b = '"'.toUInt8
    · -- The readers change places.
      subst hquote
      rw [next_outside_quote] at hout
      rw [next_inside_quote] at hin
      rcases ih hin hout with ⟨hs, hf⟩ | ⟨hs, hf⟩
      · exact .inr ⟨hf, hs⟩
      · exact .inl ⟨hf, hs⟩
    · by_cases hbare : isBare b = true
      · have hescape : b ≠ '\\'.toUInt8 := by
          rintro rfl
          exact absurd hbare (by decide)
        rw [next_outside hbare] at hout
        rw [next_inside hquote hescape] at hin
        exact ih hout hin
      · rw [next, if_neg hquote, if_neg hbare] at hout
        cases hout

end Spot

/-! ### Going over the front of a text -/

/-- A reader gets from one spot to another over the front of a text, and does the same with any
other text behind it that begins alike. -/
def Moves (start stop : Spot) (text rest : Bytes) (again : Bytes → Bytes → Prop) : Prop :=
  ∃ front, text = front ++ rest ∧ start.after front = some stop ∧
    ∀ tail, tail.head? = rest.head? → again (front ++ tail) tail

namespace Moves

variable {start middle stop : Spot} {text between rest : Bytes} {p q : Bytes → Bytes → Prop}

theorem refl (spot : Spot) (text : Bytes) : Moves spot spot text text Eq :=
  ⟨[], rfl, rfl, fun _ _ => rfl⟩

theorem mono (h : Moves start stop text rest p) (himp : ∀ a b, p a b → q a b) :
    Moves start stop text rest q := by
  obtain ⟨front, htext, hspot, hagain⟩ := h
  exact ⟨front, htext, hspot, fun tail htail => himp _ _ (hagain tail htail)⟩

theorem comp (h : Moves start middle text between p) (h' : Moves middle stop between rest q) :
    Moves start stop text rest fun a c => ∃ b, p a b ∧ q b c := by
  obtain ⟨front, rfl, hspot, hagain⟩ := h
  obtain ⟨next, rfl, hspot', hagain'⟩ := h'
  refine ⟨front ++ next, (List.append_assoc ..).symm, ?_, fun tail htail => ?_⟩
  · rw [Spot.after_append, hspot]
    exact hspot'
  · have hhead : (next ++ tail).head? = (next ++ rest).head? := by
      rw [List.head?_append, List.head?_append, htail]
    rw [List.append_assoc]
    exact ⟨next ++ tail, hagain _ hhead, hagain' tail htail⟩

/-- What is read again begins alike. -/
theorem head (h : Moves start stop text rest p) :
    Moves start stop text rest fun a c => a.head? = text.head? ∧ p a c := by
  obtain ⟨front, rfl, hspot, hagain⟩ := h
  refine ⟨front, rfl, hspot, fun tail htail => ⟨?_, hagain tail htail⟩⟩
  rw [List.head?_append, List.head?_append, htail]

/-- One byte. -/
theorem byte {b : UInt8} (h : start.next b = some stop) (rest : Bytes) :
    Moves start stop (b :: rest) rest fun a c => a = b :: c := by
  refine ⟨[b], rfl, ?_, fun _ _ => rfl⟩
  rw [Spot.after, h]
  rfl

/-- What a reader goes over is in the text. -/
theorem suffix (h : Moves start stop text rest p) : rest <:+ text := by
  obtain ⟨front, rfl, -⟩ := h
  exact List.suffix_append front rest

/-- From the spot where the reader gets to on to the end of the text. -/
theorem after (h : Moves start stop text rest p) :
    start.after text = stop.after rest := by
  obtain ⟨front, rfl, hspot, -⟩ := h
  rw [Spot.after_append, hspot]
  rfl

end Moves

theorem isBare_of_isBlank {b : UInt8} (h : isBlank b = true) : isBare b = true := by
  simp [isBare, h]

theorem isBare_of_isNumberByte {b : UInt8} (h : isNumberByte b = true) : isBare b = true := by
  simp [isBare, h]

/-- A reader of blanks stops where the next byte is none. -/
theorem skipBlank_append {front tail : Bytes} (hfront : ∀ b ∈ front, isBlank b = true)
    (htail : ∀ b ∈ tail.head?, isBlank b = false) : skipBlank (front ++ tail) = tail := by
  rw [skipBlank.eq_def, List.dropWhile_append_of_pos hfront]
  cases tail with
  | nil => rfl
  | cons b tail => simp [htail b rfl]

theorem head?_skipBlank (text : Bytes) : ∀ b ∈ (skipBlank text).head?, isBlank b = false := by
  intro b hb
  have hnot := List.head?_dropWhile_not isBlank text
  rw [skipBlank] at hb
  rw [hb] at hnot
  simpa using hnot

/-- Blanks. -/
theorem skipBlank_moves (text : Bytes) :
    Moves .outside .outside text (skipBlank text) fun a c => skipBlank a = c := by
  have hblank : ∀ b ∈ text.takeWhile isBlank, isBlank b = true :=
    fun b hb => List.mem_takeWhile_imp hb
  refine ⟨text.takeWhile isBlank, List.takeWhile_append_dropWhile.symm, ?_, fun tail htail => ?_⟩
  · exact Spot.after_outside fun b hb => isBare_of_isBlank (hblank b hb)
  · exact skipBlank_append hblank (htail ▸ head?_skipBlank text)

/-- Blanks and one byte behind them. -/
theorem skipBlank_byte_moves {stop : Spot} {b : UInt8} {text rest : Bytes}
    (h : skipBlank text = b :: rest) (hb : Spot.outside.next b = some stop) :
    Moves .outside stop text rest fun a c => skipBlank a = b :: c :=
  ((h ▸ skipBlank_moves text).comp (Moves.byte hb rest)).mono
    fun _ _ ⟨_, hskip, he⟩ => hskip.trans he

end Provision.Json
