import Provision.Proofs.Spanning

/-! A text that is read from the wrong side of its quotes.

A text may begin inside of a string. Who takes it for one that begins outside reads strings where
there are none: what he takes for keys has only bytes that stand outside of strings,
`readMembers_astray`. He never comes to a good end, because at the end of the text he is still
inside of a string, `Astray.skipBlank_ne_nil`. -/
namespace Provision.Json
open Text

/-- The text begins inside of a string and ends outside. -/
def Astray (text : Bytes) : Prop := Spot.inside.after text = some .outside

namespace Astray

variable {text rest : Bytes} {p : Bytes → Bytes → Prop}

/-- Who goes over a text from outside to outside stays on the wrong side. -/
theorem behind (h : Astray text) (moves : Moves .outside .outside text rest p) : Astray rest := by
  obtain ⟨front, rfl, hspot, -⟩ := moves
  rw [Astray, Spot.after_append] at h
  obtain ⟨spot, hinside, hrest⟩ := Option.bind_eq_some_iff.mp h
  rcases Spot.opposite hspot hinside with ⟨-, rfl⟩ | ⟨hout, -⟩
  · exact hrest
  · cases hout

/-- Who believes to be in a string at last is outside of all strings. -/
theorem outside (h : Astray text) (moves : Moves .outside .inside text rest p) :
    Spot.outside.after rest = some .outside := by
  obtain ⟨front, rfl, hspot, -⟩ := moves
  rw [Astray, Spot.after_append] at h
  obtain ⟨spot, hinside, hrest⟩ := Option.bind_eq_some_iff.mp h
  rcases Spot.opposite hspot hinside with ⟨hin, -⟩ | ⟨-, rfl⟩
  · cases hin
  · exact hrest

theorem of_string (h : Spot.outside.after text = some .outside)
    (moves : Moves .inside .outside text rest p) : Astray rest := by
  obtain ⟨front, rfl, hspot, -⟩ := moves
  rw [Spot.after_append] at h
  obtain ⟨spot, houtside, hrest⟩ := Option.bind_eq_some_iff.mp h
  rcases Spot.opposite houtside hspot with ⟨-, hin⟩ | ⟨rfl, -⟩
  · cases hin
  · exact hrest

/-- The text does not end in blanks alone. -/
theorem skipBlank_ne_nil (h : Astray text) : skipBlank text ≠ [] := by
  intro hnil
  have hblank := h.behind (skipBlank_moves text)
  rw [hnil] at hblank
  cases hblank

end Astray

/-! ### Strings that are none -/

/-- A text whose bytes may all stand outside of strings. -/
def IsBareText (text : String) : Prop := ∀ b ∈ Utf8.encode text, isBare b = true

instance (text : String) : Decidable (IsBareText text) :=
  List.decidableBAll (fun b => isBare b = true) (Utf8.encode text)

theorem encode_of_decode? {bytes : Bytes} {text : String} (h : Utf8.decode? bytes = some text) :
    Utf8.encode text = bytes := by
  rw [Utf8.decode?, String.fromUTF8?] at h
  split at h
  · cases h
    simp [Utf8.encode, String.fromUTF8]
  · cases h

/-- Outside of strings there are no escapes. -/
theorem pieces_bare {text : Bytes} {spot : Spot} (h : Spot.outside.after text = some spot) :
    ∀ piece ∈ (StringText.split text).pieces, ∃ b, piece.1 = .byte b ∧ isBare b = true := by
  induction text with
  | nil =>
    rw [StringText.split.eq_def]
    exact List.forall_mem_nil _
  | cons b text ih =>
    by_cases hquote : b = '"'.toUInt8
    · rw [StringText.split.eq_def]
      simp only [if_pos hquote]
      exact List.forall_mem_nil _
    · by_cases hbare : isBare b = true
      · have hescape : b ≠ '\\'.toUInt8 := by
          rintro rfl
          exact absurd hbare (by decide)
        rw [Spot.after, Spot.next_outside hbare] at h
        by_cases hcontrol : b < 0x20
        · rw [StringText.split.eq_def]
          simp only [if_neg hquote, if_neg hescape, if_pos hcontrol]
          exact List.forall_mem_nil _
        · have hsplit : StringText.split (b :: text) = _ :=
            (StringText.opens_plain hquote hescape hcontrol).split text
          rw [hsplit]
          intro piece hp
          rcases List.mem_cons.mp hp with rfl | hp
          · exact ⟨b, rfl, hbare⟩
          · exact ih h piece hp
      · rw [Spot.after, Spot.next, if_neg hquote, if_neg hbare] at h
        cases h

theorem bytes_bare {how : StringEnd} {rest bytes : Bytes} {pieces : List (Piece × Bytes)}
    (h : StringText.contentOf how rest pieces = .ok bytes)
    (bare : ∀ piece ∈ pieces, ∃ b, piece.1 = .byte b ∧ isBare b = true) :
    ∀ b ∈ bytes, isBare b = true := by
  induction pieces generalizing bytes with
  | nil =>
    rw [StringText.contentOf.eq_def] at h
    dsimp only at h
    split at h
    · cases h
      exact fun _ h => (nomatch h)
    · cases h
  | cons piece pieces ih =>
    obtain ⟨_, after⟩ := piece
    obtain ⟨b, rfl, hb⟩ := bare _ (List.mem_cons_self ..)
    rw [StringText.contentOf.eq_def] at h
    obtain ⟨others, hothers, rfl⟩ := map_eq_ok_iff.mp h
    intro c hc
    rcases List.mem_cons.mp hc with rfl | hc
    · exact hb
    · exact ih hothers (fun p hp => bare p (List.mem_cons_of_mem _ hp)) c hc

/-- What is taken for a string is outside of strings. -/
theorem readString_bare {text : Bytes} {spot : Spot} (h : Spot.outside.after text = some spot)
    {value : String} {rest : Option Bytes} (hread : readString text = (.string value, rest)) :
    IsBareText value := by
  rw [readString] at hread
  dsimp only at hread
  split at hread
  · next found hcontent =>
    cases hread
    obtain ⟨bytes, hbytes, hdecode⟩ := bind_eq_ok_iff.mp hcontent
    split at hdecode
    · next text' htext =>
      cases hdecode
      rw [IsBareText, encode_of_decode? htext]
      exact bytes_bare hbytes (pieces_bare h)
    · cases hdecode
  · cases hread

/-! ### Members that are none -/

/-- Every key is a text of this kind. -/
def Members.Bare : Members → Prop
  | .stop _ => True
  | .more key _ rest => (∀ name, key = .ok name → IsBareText name) ∧ rest.Bare

mutual

/-- Who reads members astray finds no key that could not stand outside of strings. -/
theorem readMembers_astray : (fuel : Nat) → ∀ {first : Bool} {text : Bytes}, Astray text →
    (readMembers fuel first text).1.Bare
  | 0, _, _, _ => trivial
  | fuel + 1, first, text, h => by
    have hskip := h.behind (skipBlank_moves text)
    rw [readMembers]
    split
    · trivial
    next b inner hinner =>
    rw [hinner] at hskip
    split
    · trivial
    split
    · exact readMember_astray fuel hskip
    split
    · next hb =>
      subst hb
      have hbehind := (hskip.behind (Moves.byte rfl inner)).behind (skipBlank_moves inner)
      split
      · trivial
      next b behind hnext =>
      rw [hnext] at hbehind
      split
      · trivial
      · exact readMember_astray fuel hbehind
    · trivial

theorem readMember_astray : (fuel : Nat) → ∀ {text : Bytes}, Astray text →
    (readMember fuel text).1.Bare
  | 0, _, _ => trivial
  | fuel + 1, text, h => by
    rw [readMember]
    split
    · next hquote =>
      obtain ⟨body, rfl⟩ := List.head?_eq_some_iff.mp hquote
      have hbody := h.outside (Moves.byte Spot.next_outside_quote body)
      rw [List.tail_cons]
      split
      · trivial
      · trivial
      next key colon _ hkey =>
      have hname : ∀ name, key.key = .ok name → IsBareText name := by
        intro name hname
        cases key with
        | string value =>
          cases hname
          exact readString_bare hbody hkey
        | _ => cases hname
      have hcolon := (Astray.of_string hbody (readString_moves hkey).1).behind
        (skipBlank_moves colon)
      split
      · exact ⟨hname, trivial⟩
      next b inner hinner =>
      rw [hinner] at hcolon
      split
      · next hb =>
        subst hb
        have hvalue := hcolon.behind (Moves.byte rfl inner)
        split
        · exact ⟨hname, trivial⟩
        next value behind hread =>
        have hbehind := hvalue.behind (spans_of_readValue fuel hread).moves
        exact ⟨hname, readMembers_astray fuel hbehind⟩
      · exact ⟨hname, trivial⟩
    · trivial

end

/-- Who gets through them is still astray. -/
theorem readMembers_behind {fuel : Nat} {first : Bool} {text rest : Bytes} (h : Astray text)
    (hread : (readMembers fuel first text).2 = some rest) : Astray rest :=
  h.behind (Members.Spans.moves _ (spans_of_readMembers fuel (Prod.ext rfl hread)))

end Provision.Json
