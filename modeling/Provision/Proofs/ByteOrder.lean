import Provision.Proofs.Encoding

/-! The order of texts is the order of their bytes.

Texts are compared character by character. The bytes of two different characters differ before one
of them ends, and they differ in the order of the characters, `before_encodeChar`; so it makes no
difference to compare the bytes instead, `encode_lt_encode_iff`. -/
namespace Provision.Text.Utf8

/-- The bytes differ, and at the first place where they do the former is the smaller one. -/
inductive Before : Bytes → Bytes → Prop
  | here {x y : UInt8} {a b : Bytes} : x < y → Before (x :: a) (y :: b)
  | there {x : UInt8} {a b : Bytes} : Before a b → Before (x :: a) (x :: b)

/-- What comes behind the difference does not count. -/
theorem Before.append_lt {a b : Bytes} (h : Before a b) (rest other : Bytes) :
    a ++ rest < b ++ other := by
  induction h with
  | here hless => exact List.cons_lt_cons_iff.mpr (.inl hless)
  | there _ ih => exact List.cons_lt_cons_iff.mpr (.inr ⟨rfl, ih⟩)

theorem before_of_lt {m n : Nat} (h : m < n) (hn : n < 256) (a b : Bytes) :
    Before (UInt8.ofNat m :: a) (UInt8.ofNat n :: b) := by
  refine .here (UInt8.lt_iff_toNat_lt.mpr ?_)
  rw [UInt8.toNat_ofNat', UInt8.toNat_ofNat']
  omega

theorem before_of_le {m n : Nat} (h : m ≤ n) (hn : n < 256) {a b : Bytes}
    (hsame : m = n → Before a b) : Before (UInt8.ofNat m :: a) (UInt8.ofNat n :: b) := by
  by_cases hmn : m = n
  · subst hmn
    exact .there (hsame rfl)
  · exact before_of_lt (by omega) hn a b

theorem before_encodeChar {c d : Char} (h : c.toNat < d.toNat) :
    Before (String.utf8EncodeChar c) (String.utf8EncodeChar d) := by
  have hc : c.val.toNat < d.val.toNat := h
  have hd : d.val.toNat < 0x110000 := by
    have hvalid := d.valid
    simp only [UInt32.isValidChar, Nat.isValidChar] at hvalid
    omega
  simp only [String.utf8EncodeChar]
  generalize c.val.toNat = v at hc
  generalize d.val.toNat = w at hc hd
  -- A character of more bytes begins with a larger byte; among those of equally many the bytes are
  -- the digits of the character.
  by_cases h1 : w ≤ 0x7f
  · rw [if_pos h1, if_pos (by omega)]
    exact before_of_lt hc (by omega) _ _
  rw [if_neg h1]
  by_cases h2 : w ≤ 0x7ff
  · rw [if_pos h2]
    split
    · exact before_of_lt (by omega) (by omega) _ _
    · rw [if_pos (by omega)]
      exact before_of_le (by omega) (by omega) fun _ => before_of_lt (by omega) (by omega) _ _
  rw [if_neg h2]
  by_cases h3 : w ≤ 0xffff
  · rw [if_pos h3]
    split
    · exact before_of_lt (by omega) (by omega) _ _
    split
    · exact before_of_lt (by omega) (by omega) _ _
    · rw [if_pos (by omega)]
      exact before_of_le (by omega) (by omega) fun _ =>
        before_of_le (by omega) (by omega) fun _ => before_of_lt (by omega) (by omega) _ _
  rw [if_neg h3]
  split
  · exact before_of_lt (by omega) (by omega) _ _
  split
  · exact before_of_lt (by omega) (by omega) _ _
  split
  · exact before_of_lt (by omega) (by omega) _ _
  · exact before_of_le (by omega) (by omega) fun _ =>
      before_of_le (by omega) (by omega) fun _ =>
        before_of_le (by omega) (by omega) fun _ => before_of_lt (by omega) (by omega) _ _

theorem ofChars_lt_ofChars {a b : List Char} (h : a < b) : ofChars a < ofChars b := by
  induction a generalizing b with
  | nil =>
    cases b with
    | nil => exact absurd h (List.lt_irrefl _)
    | cons d b =>
      rw [ofChars_cons, ofChars_nil]
      obtain ⟨byte, rest, hbytes⟩ := List.exists_cons_of_ne_nil (String.utf8EncodeChar_ne_nil)
      rw [hbytes]
      exact List.nil_lt_cons ..
  | cons c a ih =>
    cases b with
    | nil => cases h
    | cons d b =>
      rw [ofChars_cons, ofChars_cons]
      rcases List.cons_lt_cons_iff.mp h with hless | ⟨rfl, hrest⟩
      · exact (before_encodeChar hless).append_lt _ _
      · exact List.append_left_lt (ih hrest)

theorem encode_lt_encode_iff {a b : String} : encode a < encode b ↔ a < b := by
  have hforward : ∀ {a b : String}, a < b → encode a < encode b := by
    intro a b h
    have hchars := ofChars_lt_ofChars (String.lt_iff.mp h)
    rwa [ofChars, ofChars, String.ofList_toList, String.ofList_toList] at hchars
  constructor
  · intro h
    rcases Std.lt_trichotomy a b with hless | rfl | hgreater
    · exact hless
    · exact absurd h (List.lt_irrefl _)
    · exact absurd h (List.lt_asymm (hforward hgreater))
  · exact hforward

end Provision.Text.Utf8
