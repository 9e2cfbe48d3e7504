import Provision.Proofs.Numbers
import Provision.Proofs.Strings

/-! A printed value, read back.

Everything in a value is read back as it was but for its numbers: `reread` puts in the place of
each what its own text is read as, if it is read as a number at all. `readValue_print` says
that the text of the whole value is read as that, with whatever text behind it, and that no
value comes of it otherwise. -/
namespace Provision.Json
open Text

/-! ### The value that is read back -/

mutual

/-- The value with each number as it is read back from its own text. -/
def reread : Json → Option Json
  | .number n => n.reread.map .number
  | .array items => (rereadItems items).map .array
  | .object members => (rereadMembers members).map .object
  | value => some value

def rereadItems : List Json → Option (List Json)
  | [] => some []
  | item :: rest => do return (← reread item) :: (← rereadItems rest)

def rereadMembers : List (String × Json) → Option (List (String × Json))
  | [] => some []
  | (key, value) :: rest => do return (key, ← reread value) :: (← rereadMembers rest)

end

mutual

/-- The tree of the text of a value. -/
def tree : Json → Tree
  | .null => .null
  | .bool value => .bool value
  | .number value => .number value
  | .string value => .string value
  | .array items => .array (treeItems items)
  | .object members => .object (treeMembers members)

def treeItems : List Json → Items
  | [] => .stop .closed
  | item :: rest => .more (tree item) (treeItems rest)

def treeMembers : List (String × Json) → Members
  | [] => .stop .closed
  | (key, value) :: rest => .more (.ok key) (tree value) (treeMembers rest)

end

/-! ### What a reader gets -/

/-- No value comes of a tree. -/
def Tree.Refused (tree : Tree) : Prop := ∀ depth value, tree.value depth ≠ .ok value

def Items.Refused (items : Items) : Prop := ∀ depth values, items.values depth ≠ .ok values

def Members.Refused (members : Members) : Prop :=
  ∀ depth fields result, members.fields depth fields ≠ .ok result

/-- What is read of the text of a value with `rest` behind it: the value as it is read back, or no
value at all, or a number with more of a number left over. -/
inductive Reads (rest : Bytes) : Option Json → Reading Tree → Prop
  | whole (value : Json) : Reads rest (some value) (value.tree, some rest)
  | refused {tree : Tree} {left : Option Bytes} : tree.Refused → Reads rest none (tree, left)
  | cut {n : Num} {b : UInt8} {left : Bytes} : isNumberByte b = true →
    Reads rest none (.number n, some (b :: left))

inductive ReadsItems (rest : Bytes) : Option (List Json) → Reading Items → Prop
  | whole (items : List Json) : ReadsItems rest (some items) (treeItems items, some rest)
  | refused {items : Items} {left : Option Bytes} : items.Refused →
    ReadsItems rest none (items, left)

inductive ReadsMembers (rest : Bytes) : Option (List (String × Json)) → Reading Members → Prop
  | whole (members : List (String × Json)) :
    ReadsMembers rest (some members) (treeMembers members, some rest)
  | refused {members : Members} {left : Option Bytes} : members.Refused →
    ReadsMembers rest none (members, left)

/-! ### Refusals -/

theorem Tree.IsBroken.refused {tree : Tree} (h : tree.IsBroken) : tree.Refused := by
  obtain ⟨fault, passing, reach, rfl⟩ := h
  intro depth value hvalue
  cases hvalue

theorem deeper_eq_ok_iff {α : Type} {depth : Nat} {inside : Nat → Except Refusal α} {result : α} :
    deeper depth inside = .ok result ↔ ∃ less, depth = less + 1 ∧ inside less = .ok result := by
  cases depth with
  | zero => exact ⟨fun h => (nomatch h), fun ⟨_, h, _⟩ => (nomatch h)⟩
  | succ less =>
    constructor
    · exact fun h => ⟨less, rfl, h⟩
    · rintro ⟨_, ⟨⟩, h⟩
      exact h

theorem Items.Refused.array {items : Items} (h : items.Refused) : (Tree.array items).Refused := by
  intro depth value hvalue
  obtain ⟨values, hvalues, -⟩ := bind_eq_ok_iff.mp hvalue
  obtain ⟨less, -, hvalues⟩ := deeper_eq_ok_iff.mp hvalues
  exact h less values hvalues

theorem Members.Refused.object {members : Members} (h : members.Refused) :
    (Tree.object members).Refused := by
  intro depth value hvalue
  obtain ⟨fields, hfields, -⟩ := bind_eq_ok_iff.mp hvalue
  obtain ⟨less, -, hfields⟩ := deeper_eq_ok_iff.mp hfields
  exact h less [] fields hfields

theorem Tree.Refused.item {item : Tree} (h : item.Refused) (rest : Items) :
    (Items.more item rest).Refused := by
  intro depth values hvalues
  obtain ⟨value, hvalue, -⟩ := bind_eq_ok_iff.mp hvalues
  exact h depth value hvalue

theorem Items.Refused.rest {rest : Items} (h : rest.Refused) (item : Tree) :
    (Items.more item rest).Refused := by
  intro depth values hvalues
  obtain ⟨value, -, hvalues⟩ := bind_eq_ok_iff.mp hvalues
  obtain ⟨values, hvalues, -⟩ := bind_eq_ok_iff.mp hvalues
  exact h depth values hvalues

theorem Tree.Refused.member {value : Tree} (h : value.Refused) (key : Except Fault String)
    (rest : Members) : (Members.more key value rest).Refused := by
  intro depth fields result hresult
  cases key with
  | error f => cases hresult
  | ok key =>
    obtain ⟨value, hvalue, -⟩ := bind_eq_ok_iff.mp hresult
    exact h depth value hvalue

theorem Members.Refused.rest {rest : Members} (h : rest.Refused) (key : Except Fault String)
    (value : Tree) : (Members.more key value rest).Refused := by
  intro depth fields result hresult
  cases key with
  | error f => cases hresult
  | ok key =>
    obtain ⟨value, -, hresult⟩ := bind_eq_ok_iff.mp hresult
    exact h depth _ result hresult

/-! ### The bytes of a value -/

/-- A byte with which a value may begin. -/
def StartsValue (b : UInt8) : Prop :=
  isBlank b = false ∧ b ≠ ']'.toUInt8 ∧ b ≠ ','.toUInt8 ∧ b ≠ '\x7d'.toUInt8

instance (b : UInt8) : Decidable (StartsValue b) := inferInstanceAs (Decidable (_ ∧ _))

theorem skipBlank_cons {b : UInt8} (h : isBlank b = false) (text : Bytes) :
    skipBlank (b :: text) = b :: text := by
  simp [skipBlank, h]

/-- A byte that is one of these is no part of a number. -/
theorem ne_of_isNumberByte {b other : UInt8} (h : isNumberByte b = true)
    (ho : isNumberByte other = false) : b ≠ other := by
  rintro rfl
  rw [h] at ho
  cases ho

theorem startsValue_of_isNumberByte {b : UInt8} (h : isNumberByte b = true) : StartsValue b := by
  refine ⟨?_, ne_of_isNumberByte h (by decide), ne_of_isNumberByte h (by decide),
    ne_of_isNumberByte h (by decide)⟩
  simp only [isBlank, Bool.or_eq_false_iff, decide_eq_false_iff_not]
  exact ⟨⟨⟨ne_of_isNumberByte h (by decide), ne_of_isNumberByte h (by decide)⟩,
    ne_of_isNumberByte h (by decide)⟩, ne_of_isNumberByte h (by decide)⟩

theorem endsNumber_cons {b : UInt8} (h : isNumberByte b = false) (text : Bytes) :
    EndsNumber (b :: text) := by
  intro other ho
  cases ho
  exact h

/-- A number has a first byte. -/
theorem ofChars_number (n : Num) :
    ∃ b text, Utf8.ofChars n.print = b :: text ∧ isNumberByte b = true := by
  cases hbytes : Utf8.ofChars n.print with
  | nil =>
    rw [Utf8.ofChars_eq_flatMap, List.flatMap_eq_nil_iff] at hbytes
    obtain ⟨c, rest, hc⟩ := List.exists_cons_of_ne_nil (print_ne_nil n)
    exact absurd (hbytes c (by rw [hc]; exact List.mem_cons_self ..)) String.utf8EncodeChar_ne_nil
  | cons b text =>
    exact ⟨b, text, rfl, isNumberByte_of_mem_print (by rw [hbytes]; exact List.mem_cons_self ..)⟩

/-- So has any value. -/
theorem ofChars_print_start (value : Json) :
    ∃ b text, Utf8.ofChars value.print = b :: text ∧ StartsValue b := by
  cases value with
  | null => exact ⟨_, _, rfl, by decide⟩
  | bool value => cases value <;> exact ⟨_, _, rfl, by decide⟩
  | number n =>
    obtain ⟨b, text, hbytes, hb⟩ := ofChars_number n
    exact ⟨b, text, hbytes, startsValue_of_isNumberByte hb⟩
  | string value => exact ⟨_, _, ofChars_printString value, by decide⟩
  | array items =>
    cases items <;> exact ⟨_, _, Utf8.ofChars_cons_ascii (by decide) _, by decide⟩
  | object members =>
    cases members <;> exact ⟨_, _, Utf8.ofChars_cons_ascii (by decide) _, by decide⟩

/-! ### Reading one value -/

variable {fuel : Nat} {rest : Bytes}

theorem readValue_number {b : UInt8} (h : isNumberByte b = true) (text : Bytes) :
    readValue (fuel + 1) (b :: text) =
      if b = '-'.toUInt8 || isDigit b then readNumber (b :: text)
      else broken .expectedValue (b :: text) := by
  rw [readValue, skipBlank_cons (startsValue_of_isNumberByte h).1]
  simp only [ne_of_isNumberByte h (show isNumberByte '"'.toUInt8 = false by decide),
    ne_of_isNumberByte h (show isNumberByte '['.toUInt8 = false by decide),
    ne_of_isNumberByte h (show isNumberByte '\x7b'.toUInt8 = false by decide),
    ne_of_isNumberByte h (show isNumberByte 'n'.toUInt8 = false by decide),
    ne_of_isNumberByte h (show isNumberByte 't'.toUInt8 = false by decide),
    ne_of_isNumberByte h (show isNumberByte 'f'.toUInt8 = false by decide), if_false]

/-- Without a sign and a digit in front no number is read. -/
theorem readNumber_of_no_digit {b : UInt8} (hminus : b ≠ '-'.toUInt8) (hdigit : isDigit b = false)
    (text : Bytes) : (readNumber (b :: text)).1.IsBroken := by
  have hsome : someDigits text (b :: text) = .error (.invalidNumber, text) := by
    simp [someDigits, hdigit]
  have hsplit : NumberText.split (b :: text) = .error (.invalidNumber, text) := by
    simp only [NumberText.split, List.head?_cons, Option.some.injEq, hminus, if_false, splitWhole,
      List.tail_cons, hsome]
    rfl
  rw [readNumber, hsplit]
  exact ⟨_, _, _, rfl⟩

theorem readValue_print_number (ends : EndsNumber rest) (n : Num) :
    Reads rest (Json.number n).reread
      (readValue (fuel + 1) (Utf8.ofChars (Json.number n).print ++ rest)) := by
  -- What is read first hangs on one byte, so the text is taken apart before it is read.
  obtain ⟨b, text, hbytes, hb⟩ := ofChars_number n
  have hread := readNumber_print ends n
  rw [reread, print, hbytes, List.cons_append, readValue_number hb]
  rw [hbytes, List.cons_append] at hread
  split
  · rcases hread with ⟨m, hm, hread⟩ | ⟨hnone, hbroken | ⟨m, b, left, hnumber, hread⟩⟩
    · rw [hm, hread]
      exact .whole (.number m)
    · rw [hnone]
      exact .refused hbroken.refused
    · rw [hnone, hread]
      exact .cut hnumber
  · next hfront =>
    simp only [Bool.or_eq_true, decide_eq_true_iff, not_or, Bool.not_eq_true] at hfront
    obtain ⟨hminus, hdigit⟩ := hfront
    have hnone : n.reread = none :=
      Num.reread_of_broken (hbytes ▸ readNumber_of_no_digit hminus hdigit text)
    rw [hnone]
    exact .refused (Tree.IsBroken.refused ⟨_, _, _, rfl⟩)

theorem readValue_print_string (value : String) :
    readValue (fuel + 1) (Utf8.ofChars (Json.string value).print ++ rest) =
      (.string value, some rest) := by
  rw [print, ofChars_printString, List.cons_append, readValue, skipBlank_cons (by decide)]
  simp only [if_true, readString_spelled]

theorem readItems_closed (first : Bool) :
    readItems (fuel + 1) first (']'.toUInt8 :: rest) = (.stop .closed, some rest) := by
  rw [readItems, skipBlank_cons (by decide)]
  simp only [if_true]

theorem readMembers_closed (first : Bool) :
    readMembers (fuel + 1) first ('\x7d'.toUInt8 :: rest) = (.stop .closed, some rest) := by
  rw [readMembers, skipBlank_cons (by decide)]
  simp only [if_true]

/-! ### Reading on after a value -/

theorem readItems_cut {b : UInt8} (h : isNumberByte b = true) (text : Bytes) :
    (readItems fuel false (b :: text)).1.Refused := by
  cases fuel with
  | zero => intro depth values hvalues; cases hvalues
  | succ fuel =>
    obtain ⟨hblank, hclose, hcomma, -⟩ := startsValue_of_isNumberByte h
    rw [readItems, skipBlank_cons hblank]
    simp only [hclose, hcomma, if_false, Bool.false_eq_true]
    intro depth values hvalues
    cases hvalues

theorem readMembers_cut {b : UInt8} (h : isNumberByte b = true) (text : Bytes) :
    (readMembers fuel false (b :: text)).1.Refused := by
  cases fuel with
  | zero => intro depth fields result hresult; cases hresult
  | succ fuel =>
    obtain ⟨hblank, -, hcomma, hclose⟩ := startsValue_of_isNumberByte h
    rw [readMembers, skipBlank_cons hblank]
    simp only [hclose, hcomma, if_false, Bool.false_eq_true]
    intro depth fields result hresult
    cases hresult

/-- An item is read, and then the items after it. -/
theorem readItem_reads {text more : Bytes} {item : Option Json} {others : Option (List Json)}
    (hitem : Reads more item (readValue fuel text))
    (hmore : ReadsItems rest others (readItems fuel false more)) :
    ReadsItems rest (do return (← item) :: (← others)) (readItem (fuel + 1) text) := by
  rw [readItem]
  generalize readValue fuel text = reading at hitem ⊢
  cases hitem with
  | whole value =>
    dsimp only
    generalize readItems fuel false more = reading at hmore ⊢
    cases hmore with
    | whole items => exact .whole (value :: items)
    | refused h => exact .refused (h.rest _)
  | @refused tree left h =>
    cases left with
    | none => exact .refused (Tree.Refused.item h _)
    | some left => exact .refused (Tree.Refused.item h _)
  | @cut n b left h => exact .refused ((readItems_cut h left).rest _)

/-- A member is read, and then the members after it. -/
theorem readMember_reads {text more : Bytes} (key : String) {value : Option Json}
    {others : Option (List (String × Json))} (hvalue : Reads more value (readValue fuel text))
    (hmore : ReadsMembers rest others (readMembers fuel false more)) :
    ReadsMembers rest (do return (key, ← value) :: (← others))
      (readMember (fuel + 1) ('"'.toUInt8 :: (spelled key ++ ':'.toUInt8 :: text))) := by
  rw [readMember]
  simp only [List.head?_cons, if_true, List.tail_cons, readString_spelled,
    skipBlank_cons (show isBlank ':'.toUInt8 = false by decide), Tree.key]
  generalize readValue fuel text = reading at hvalue ⊢
  cases hvalue with
  | whole value =>
    dsimp only
    generalize readMembers fuel false more = reading at hmore ⊢
    cases hmore with
    | whole members => exact .whole ((key, value) :: members)
    | refused h => exact .refused (h.rest _ _)
  | @refused tree left h =>
    cases left with
    | none => exact .refused (Tree.Refused.member h _ _)
    | some left => exact .refused (Tree.Refused.member h _ _)
  | @cut n b left h => exact .refused ((readMembers_cut h left).rest _ _)

/-! ### Reading on at a comma -/

/-- Where an item begins, it is read. -/
theorem readItems_first (item : Json) (more : Bytes) :
    readItems (fuel + 1) true (Utf8.ofChars item.print ++ more) =
      readItem fuel (Utf8.ofChars item.print ++ more) := by
  obtain ⟨b, text, hbytes, hblank, hclose, hcomma, -⟩ := ofChars_print_start item
  rw [hbytes, List.cons_append, readItems, skipBlank_cons hblank]
  simp only [hclose, hcomma, if_false, if_true]

theorem readItems_comma (item : Json) (more : Bytes) :
    readItems (fuel + 1) false (','.toUInt8 :: (Utf8.ofChars item.print ++ more)) =
      readItem fuel (Utf8.ofChars item.print ++ more) := by
  obtain ⟨b, text, hbytes, hblank, hclose, -⟩ := ofChars_print_start item
  rw [hbytes, List.cons_append, readItems, skipBlank_cons (by decide)]
  simp only [show ','.toUInt8 ≠ ']'.toUInt8 by decide, if_false, Bool.false_eq_true, if_true,
    skipBlank_cons hblank, hclose]

theorem readMembers_first (text : Bytes) :
    readMembers (fuel + 1) true ('"'.toUInt8 :: text) = readMember fuel ('"'.toUInt8 :: text) := by
  rw [readMembers, skipBlank_cons (by decide)]
  simp only [show '"'.toUInt8 ≠ '\x7d'.toUInt8 by decide, if_false, if_true]

theorem readMembers_comma (text : Bytes) :
    readMembers (fuel + 1) false (','.toUInt8 :: '"'.toUInt8 :: text) =
      readMember fuel ('"'.toUInt8 :: text) := by
  rw [readMembers, skipBlank_cons (by decide)]
  simp only [show ','.toUInt8 ≠ '\x7d'.toUInt8 by decide, if_false, Bool.false_eq_true, if_true,
    skipBlank_cons (show isBlank '"'.toUInt8 = false by decide),
    show '"'.toUInt8 ≠ '\x7d'.toUInt8 by decide]

theorem readValue_list (text : Bytes) :
    readValue (fuel + 1) ('['.toUInt8 :: text) =
      (.array (readItems fuel true text).1, (readItems fuel true text).2) := by
  rw [readValue, skipBlank_cons (by decide)]
  simp only [show '['.toUInt8 ≠ '"'.toUInt8 by decide, if_false, if_true]

theorem readValue_object (text : Bytes) :
    readValue (fuel + 1) ('\x7b'.toUInt8 :: text) =
      (.object (readMembers fuel true text).1, (readMembers fuel true text).2) := by
  rw [readValue, skipBlank_cons (by decide)]
  simp only [show '\x7b'.toUInt8 ≠ '"'.toUInt8 by decide,
    show '\x7b'.toUInt8 ≠ '['.toUInt8 by decide, if_false, if_true]

theorem ReadsItems.array {items : Option (List Json)} {reading : Reading Items}
    (h : ReadsItems rest items reading) :
    Reads rest (items.map .array) (.array reading.1, reading.2) := by
  cases h with
  | whole items => exact .whole (.array items)
  | refused h => exact .refused h.array

theorem ReadsMembers.object {members : Option (List (String × Json))} {reading : Reading Members}
    (h : ReadsMembers rest members reading) :
    Reads rest (members.map .object) (.object reading.1, reading.2) := by
  cases h with
  | whole members => exact .whole (.object members)
  | refused h => exact .refused h.object

/-! ### The text of a value -/

theorem ofChars_array_cons (item : Json) (rest : List Json) :
    Utf8.ofChars (Json.array (item :: rest)).print =
      '['.toUInt8 :: (Utf8.ofChars item.print ++ Utf8.ofChars (printItems rest)) := by
  rw [print, Utf8.ofChars_cons_ascii (by decide), Utf8.ofChars_append]

theorem ofChars_printItems_cons (item : Json) (rest : List Json) :
    Utf8.ofChars (printItems (item :: rest)) =
      ','.toUInt8 :: (Utf8.ofChars item.print ++ Utf8.ofChars (printItems rest)) := by
  rw [printItems, Utf8.ofChars_cons_ascii (by decide), Utf8.ofChars_append]

/-- The bytes of a member behind the quote of its key, and those of the members after it. -/
def memberBytes (key : String) (value : Json) (rest : List (String × Json)) : Bytes :=
  spelled key ++ ':'.toUInt8 :: (Utf8.ofChars value.print ++ Utf8.ofChars (printMembers rest))

theorem ofChars_object_cons (key : String) (value : Json) (rest : List (String × Json)) :
    Utf8.ofChars (Json.object ((key, value) :: rest)).print =
      '\x7b'.toUInt8 :: '"'.toUInt8 :: memberBytes key value rest := by
  rw [print, Utf8.ofChars_cons_ascii (by decide), Utf8.ofChars_append, ofChars_printString,
    Utf8.ofChars_cons_ascii (by decide), Utf8.ofChars_append, memberBytes]
  rfl

theorem ofChars_printMembers_cons (key : String) (value : Json) (rest : List (String × Json)) :
    Utf8.ofChars (printMembers ((key, value) :: rest)) =
      ','.toUInt8 :: '"'.toUInt8 :: memberBytes key value rest := by
  rw [printMembers, Utf8.ofChars_cons_ascii (by decide), Utf8.ofChars_append, ofChars_printString,
    Utf8.ofChars_cons_ascii (by decide), Utf8.ofChars_append, memberBytes]
  rfl

/-- Nothing that stands behind a value in a list or an object goes on with a number. -/
theorem endsNumber_printItems (items : List Json) (rest : Bytes) :
    EndsNumber (Utf8.ofChars (printItems items) ++ rest) := by
  cases items with
  | nil => exact endsNumber_cons (by decide) rest
  | cons item items =>
    rw [ofChars_printItems_cons]
    exact endsNumber_cons (by decide) _

theorem endsNumber_printMembers (members : List (String × Json)) (rest : Bytes) :
    EndsNumber (Utf8.ofChars (printMembers members) ++ rest) := by
  cases members with
  | nil => exact endsNumber_cons (by decide) rest
  | cons member members =>
    rw [ofChars_printMembers_cons]
    exact endsNumber_cons (by decide) _

mutual

/-- The text of a value is read as the value with its numbers read back. -/
theorem readValue_print (value : Json) {fuel : Nat} {rest : Bytes}
    (enough : 3 * (Utf8.ofChars value.print).length ≤ fuel) (ends : EndsNumber rest) :
    Reads rest value.reread (readValue fuel (Utf8.ofChars value.print ++ rest)) := by
  -- The readers call each other three times for a value at most, and each value has a byte.
  have hsome : 1 ≤ fuel := by
    obtain ⟨b, text, hbytes, -⟩ := ofChars_print_start value
    rw [hbytes, List.length_cons] at enough
    omega
  obtain ⟨fuel, rfl⟩ := Nat.exists_eq_add_of_le' hsome
  cases value with
  | null => exact .whole .null
  | bool value =>
    cases value
    · exact .whole (.bool false)
    · exact .whole (.bool true)
  | number n => exact readValue_print_number ends n
  | string value =>
    rw [readValue_print_string]
    exact .whole (.string value)
  | array items =>
    cases items with
    | nil =>
      change 3 * 2 ≤ fuel + 1 at enough
      obtain ⟨fuel, rfl⟩ : ∃ less, fuel = less + 1 := ⟨fuel - 1, by omega⟩
      have hread : readItems (fuel + 1) true (']'.toUInt8 :: rest) = _ := readItems_closed true
      show Reads rest _ (readValue (fuel + 2) ('['.toUInt8 :: ']'.toUInt8 :: rest))
      rw [readValue_list, hread]
      exact .whole (.array [])
    | cons item items =>
      rw [ofChars_array_cons, List.length_cons, List.length_append] at enough
      rw [ofChars_array_cons, List.cons_append, List.append_assoc, readValue_list]
      obtain ⟨fuel, rfl⟩ : ∃ less, fuel = less + 2 := ⟨fuel - 2, by omega⟩
      rw [readItems_first]
      exact (readItem_reads (readValue_print item (by omega) (endsNumber_printItems items rest))
        (readItems_print items rest (by omega))).array
  | object members =>
    cases members with
    | nil =>
      change 3 * 2 ≤ fuel + 1 at enough
      obtain ⟨fuel, rfl⟩ : ∃ less, fuel = less + 1 := ⟨fuel - 1, by omega⟩
      have hread : readMembers (fuel + 1) true ('\x7d'.toUInt8 :: rest) = _ :=
        readMembers_closed true
      show Reads rest _ (readValue (fuel + 2) ('\x7b'.toUInt8 :: '\x7d'.toUInt8 :: rest))
      rw [readValue_object, hread]
      exact .whole (.object [])
    | cons member members =>
      obtain ⟨key, value⟩ := member
      rw [ofChars_object_cons, memberBytes] at enough
      simp only [List.length_cons, List.length_append] at enough
      rw [ofChars_object_cons, memberBytes, List.cons_append, List.cons_append, List.append_assoc,
        List.cons_append, List.append_assoc, readValue_object]
      obtain ⟨fuel, rfl⟩ : ∃ less, fuel = less + 2 := ⟨fuel - 2, by omega⟩
      rw [readMembers_first]
      exact (readMember_reads key (readValue_print value (by omega)
        (endsNumber_printMembers members rest)) (readMembers_print members rest (by omega))).object

theorem readItems_print (items : List Json) {fuel : Nat} (rest : Bytes)
    (enough : 3 * (Utf8.ofChars (printItems items)).length ≤ fuel) :
    ReadsItems rest (rereadItems items)
      (readItems fuel false (Utf8.ofChars (printItems items) ++ rest)) := by
  cases items with
  | nil =>
    change 3 * 1 ≤ fuel at enough
    obtain ⟨fuel, rfl⟩ : ∃ less, fuel = less + 1 := ⟨fuel - 1, by omega⟩
    have hread : readItems (fuel + 1) false (']'.toUInt8 :: rest) = _ := readItems_closed false
    show ReadsItems rest _ (readItems (fuel + 1) false (']'.toUInt8 :: rest))
    rw [hread]
    exact .whole []
  | cons item items =>
    rw [ofChars_printItems_cons, List.length_cons, List.length_append] at enough
    rw [ofChars_printItems_cons, List.cons_append, List.append_assoc]
    obtain ⟨fuel, rfl⟩ : ∃ less, fuel = less + 2 := ⟨fuel - 2, by omega⟩
    rw [readItems_comma]
    exact readItem_reads (readValue_print item (by omega) (endsNumber_printItems items rest))
      (readItems_print items rest (by omega))

theorem readMembers_print (members : List (String × Json)) {fuel : Nat} (rest : Bytes)
    (enough : 3 * (Utf8.ofChars (printMembers members)).length ≤ fuel) :
    ReadsMembers rest (rereadMembers members)
      (readMembers fuel false (Utf8.ofChars (printMembers members) ++ rest)) := by
  cases members with
  | nil =>
    change 3 * 1 ≤ fuel at enough
    obtain ⟨fuel, rfl⟩ : ∃ less, fuel = less + 1 := ⟨fuel - 1, by omega⟩
    have hread : readMembers (fuel + 1) false ('\x7d'.toUInt8 :: rest) = _ :=
      readMembers_closed false
    show ReadsMembers rest _ (readMembers (fuel + 1) false ('\x7d'.toUInt8 :: rest))
    rw [hread]
    exact .whole []
  | cons member members =>
    obtain ⟨key, value⟩ := member
    rw [ofChars_printMembers_cons, memberBytes] at enough
    simp only [List.length_cons, List.length_append] at enough
    rw [ofChars_printMembers_cons, memberBytes, List.cons_append, List.cons_append,
      List.append_assoc, List.cons_append, List.append_assoc]
    obtain ⟨fuel, rfl⟩ : ∃ less, fuel = less + 2 := ⟨fuel - 2, by omega⟩
    rw [readMembers_comma]
    exact readMember_reads key (readValue_print value (by omega)
      (endsNumber_printMembers members rest)) (readMembers_print members rest (by omega))

end

end Provision.Json
