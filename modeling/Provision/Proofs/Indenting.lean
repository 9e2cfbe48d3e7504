import Provision.Json.Printer
import Provision.Proofs.Reloading

/-! Indented texts, read back.

What the lines and the indentation add to the text of a value is blank and stands between its
literals, so the tree of the value spans the indented text as well, `spans_pretty`. A reader makes
the same of both, `parse_pretty`. -/
namespace Provision.Json
open Text

variable {depth : Nat} {text rest : Bytes}

/-! ### Blanks -/

/-- A tree has blanks in front of it or not. -/
theorem Tree.spans_skipBlank_iff (tree : Tree) :
    tree.Spans (skipBlank text) rest ↔ tree.Spans text rest := by
  cases tree <;> simp only [Tree.Spans, skipBlank_skipBlank]

theorem skipBlank_blank {b : UInt8} (h : isBlank b = true) (text : Bytes) :
    skipBlank (b :: text) = skipBlank text := by
  simp [skipBlank, h]

theorem Tree.spans_blank_iff {b : UInt8} (h : isBlank b = true) (tree : Tree) :
    tree.Spans (b :: text) rest ↔ tree.Spans text rest := by
  rw [← tree.spans_skipBlank_iff, skipBlank_blank h, tree.spans_skipBlank_iff]

theorem skipBlank_newLine (depth : Nat) (text : Bytes) :
    skipBlank (Utf8.ofChars (newLine depth) ++ text) = skipBlank text := by
  have hspaces : ∀ count, skipBlank (Utf8.ofChars (List.replicate count ' ') ++ text) =
      skipBlank text := by
    intro count
    induction count with
    | zero => rfl
    | succ count ih =>
      rw [List.replicate_succ, Utf8.ofChars_cons_ascii (by decide), List.cons_append,
        skipBlank_blank (by decide), ih]
  rw [newLine, Utf8.ofChars_cons_ascii (by decide), List.cons_append, skipBlank_blank (by decide),
    hspaces]

/-- Nor does a number go on with a new line. -/
theorem endsNumber_newLine (depth : Nat) (text : Bytes) :
    EndsNumber (Utf8.ofChars (newLine depth) ++ text) := by
  rw [newLine, Utf8.ofChars_cons_ascii (by decide)]
  exact endsNumber_cons (by decide) _

/-- An item begins on a new line, behind a comma unless it is the first one. -/
theorem lead_newLine (depth : Nat) (text : Bytes) :
    Lead true (Utf8.ofChars (newLine depth) ++ text) (skipBlank text) ∧
      Lead false (','.toUInt8 :: (Utf8.ofChars (newLine depth) ++ text)) (skipBlank text) := by
  refine ⟨skipBlank_newLine depth text, _, skipBlank_cons (by decide) _, ?_⟩
  exact skipBlank_newLine depth text

/-! ### The bytes of an indented text -/

theorem ofChars_pretty_array (item : Json) (items : List Json) :
    Utf8.ofChars ((Json.array (item :: items)).pretty depth) =
      '['.toUInt8 :: (Utf8.ofChars (newLine (depth + 1)) ++
        (Utf8.ofChars (item.pretty (depth + 1)) ++ Utf8.ofChars (prettyItems depth items))) := by
  rw [pretty, Utf8.ofChars_append, List.cons_append, Utf8.ofChars_cons_ascii (by decide),
    Utf8.ofChars_append, List.cons_append, List.append_assoc]

theorem ofChars_prettyItems_cons (item : Json) (items : List Json) :
    Utf8.ofChars (prettyItems depth (item :: items)) =
      ','.toUInt8 :: (Utf8.ofChars (newLine (depth + 1)) ++
        (Utf8.ofChars (item.pretty (depth + 1)) ++ Utf8.ofChars (prettyItems depth items))) := by
  rw [prettyItems, Utf8.ofChars_append, List.cons_append, Utf8.ofChars_cons_ascii (by decide),
    Utf8.ofChars_append, List.cons_append, List.append_assoc]

/-- The bytes of a member behind the quote of its key, and those of the members after it. -/
def prettyMemberBytes (depth : Nat) (key : String) (value : Json)
    (members : List (String × Json)) : Bytes :=
  spelled key ++ ':'.toUInt8 :: ' '.toUInt8 ::
    (Utf8.ofChars (value.pretty (depth + 1)) ++ Utf8.ofChars (prettyMembers depth members))

theorem ofChars_member (key : String) (value : Json) (members : List (String × Json)) :
    Utf8.ofChars (printString key ++ [':', ' '] ++ value.pretty (depth + 1) ++
        prettyMembers depth members) =
      '"'.toUInt8 :: prettyMemberBytes depth key value members := by
  have hcolon : Utf8.ofChars [':', ' '] = [':'.toUInt8, ' '.toUInt8] := by decide +kernel
  rw [Utf8.ofChars_append, Utf8.ofChars_append, Utf8.ofChars_append, ofChars_printString, hcolon,
    prettyMemberBytes]
  simp only [List.cons_append, List.append_assoc, List.nil_append]

theorem ofChars_pretty_object (key : String) (value : Json) (members : List (String × Json)) :
    Utf8.ofChars ((Json.object ((key, value) :: members)).pretty depth) =
      '\x7b'.toUInt8 :: (Utf8.ofChars (newLine (depth + 1)) ++
        '"'.toUInt8 :: prettyMemberBytes depth key value members) := by
  rw [← ofChars_member, ← Utf8.ofChars_append, ← Utf8.ofChars_cons_ascii (by decide), pretty]
  simp only [List.cons_append, List.append_assoc]

theorem ofChars_prettyMembers_cons (key : String) (value : Json)
    (members : List (String × Json)) :
    Utf8.ofChars (prettyMembers depth ((key, value) :: members)) =
      ','.toUInt8 :: (Utf8.ofChars (newLine (depth + 1)) ++
        '"'.toUInt8 :: prettyMemberBytes depth key value members) := by
  rw [← ofChars_member, ← Utf8.ofChars_append, ← Utf8.ofChars_cons_ascii (by decide), prettyMembers]
  simp only [List.cons_append, List.append_assoc]

theorem endsNumber_prettyItems (items : List Json) (rest : Bytes) :
    EndsNumber (Utf8.ofChars (prettyItems depth items) ++ rest) := by
  cases items with
  | nil =>
    rw [prettyItems, Utf8.ofChars_append, List.append_assoc]
    exact endsNumber_newLine depth _
  | cons item items =>
    rw [ofChars_prettyItems_cons]
    exact endsNumber_cons (by decide) _

theorem endsNumber_prettyMembers (members : List (String × Json)) (rest : Bytes) :
    EndsNumber (Utf8.ofChars (prettyMembers depth members) ++ rest) := by
  cases members with
  | nil =>
    rw [prettyMembers, Utf8.ofChars_append, List.append_assoc]
    exact endsNumber_newLine depth _
  | cons member members =>
    rw [ofChars_prettyMembers_cons]
    exact endsNumber_cons (by decide) _

/-! ### Trees in an indented text -/

/-- The tree of what a value comes back as spans its compact text. -/
theorem spans_print {value again : Json} (h : value.reread = some again) (ends : EndsNumber rest) :
    again.tree.Spans (Utf8.ofChars value.print ++ rest) rest := by
  have hreads := readValue_print value (Nat.le_refl _) ends
  rw [h] at hreads
  generalize hreading : readValue _ (Utf8.ofChars value.print ++ rest) = reading at hreads
  cases hreads
  exact spans_of_readValue _ hreading

/-- A key with its value, at the beginning of a line. -/
theorem keyAt_of_lead {first : Bool} {key : String} {more : Bytes}
    (h : Lead first text (skipBlank ('"'.toUInt8 :: (spelled key ++ ':'.toUInt8 :: more)))) :
    KeyAt first text (.ok key) more := by
  rw [skipBlank_cons (by decide)] at h
  exact ⟨_, _, _, h, readString_spelled key _, rfl, skipBlank_cons (by decide) more⟩

mutual

/-- The tree of what a value comes back as spans its indented text, too. -/
theorem spans_pretty : (value : Json) → ∀ {depth : Nat} {again : Json} {rest : Bytes},
    value.reread = some again → EndsNumber rest →
      again.tree.Spans (Utf8.ofChars (value.pretty depth) ++ rest) rest
  | .null, _, _, _, h, ends | .bool _, _, _, _, h, ends | .number _, _, _, _, h, ends
  | .string _, _, _, _, h, ends | .array [], _, _, _, h, ends | .object [], _, _, _, h, ends => by
    exact spans_print h ends
  | .array (item :: items), depth, again, rest, h, _ => by
    obtain ⟨all, hall, rfl⟩ := Option.map_eq_some_iff.mp h
    obtain ⟨first, others, hfirst, hothers, rfl⟩ := rereadItems_cons hall
    rw [ofChars_pretty_array, List.cons_append, List.append_assoc, List.append_assoc]
    refine ⟨_, skipBlank_cons (by decide) _, _, _, (lead_newLine _ _).1, ?_,
      @spans_prettyItems items depth others rest hothers⟩
    exact first.tree.spans_skipBlank_iff.mpr
      (spans_pretty item hfirst (endsNumber_prettyItems items rest))
  | .object ((key, value) :: members), depth, again, rest, h, _ => by
    obtain ⟨all, hall, rfl⟩ := Option.map_eq_some_iff.mp h
    obtain ⟨first, others, hfirst, hothers, rfl⟩ := rereadMembers_cons hall
    rw [ofChars_pretty_object, prettyMemberBytes]
    simp only [List.cons_append, List.append_assoc]
    refine ⟨_, skipBlank_cons (by decide) _, _, _, keyAt_of_lead (lead_newLine _ _).1, ?_,
      @spans_prettyMembers members depth others rest hothers⟩
    exact (first.tree.spans_blank_iff (by decide)).mpr
      (spans_pretty value hfirst (endsNumber_prettyMembers members rest))

theorem spans_prettyItems : (items : List Json) → ∀ {depth : Nat} {again : List Json}
    {rest : Bytes}, rereadItems items = some again →
      (treeItems again).Spans false (Utf8.ofChars (prettyItems depth items) ++ rest) rest
  | [], depth, again, rest, h => by
    obtain rfl : [] = again := Option.some.inj h
    rw [prettyItems, Utf8.ofChars_append, List.append_assoc]
    exact (skipBlank_newLine depth _).trans (skipBlank_cons (by decide) rest)
  | item :: items, depth, again, rest, h => by
    obtain ⟨first, others, hfirst, hothers, rfl⟩ := rereadItems_cons h
    rw [ofChars_prettyItems_cons, List.cons_append, List.append_assoc, List.append_assoc]
    refine ⟨_, _, (lead_newLine _ _).2, ?_, @spans_prettyItems items depth others rest hothers⟩
    exact first.tree.spans_skipBlank_iff.mpr
      (spans_pretty item hfirst (endsNumber_prettyItems items rest))

theorem spans_prettyMembers : (members : List (String × Json)) → ∀ {depth : Nat}
    {again : List (String × Json)} {rest : Bytes}, rereadMembers members = some again →
      (treeMembers again).Spans false (Utf8.ofChars (prettyMembers depth members) ++ rest) rest
  | [], depth, again, rest, h => by
    obtain rfl : [] = again := Option.some.inj h
    rw [prettyMembers, Utf8.ofChars_append, List.append_assoc]
    exact (skipBlank_newLine depth _).trans (skipBlank_cons (by decide) rest)
  | (key, value) :: members, depth, again, rest, h => by
    obtain ⟨first, others, hfirst, hothers, rfl⟩ := rereadMembers_cons h
    rw [ofChars_prettyMembers_cons, prettyMemberBytes]
    simp only [List.cons_append, List.append_assoc]
    refine ⟨_, _, keyAt_of_lead (lead_newLine _ _).2, ?_,
      @spans_prettyMembers members depth others rest hothers⟩
    exact (first.tree.spans_blank_iff (by decide)).mpr
      (spans_pretty value hfirst (endsNumber_prettyMembers members rest))

end

/-! ### Whole texts -/

/-- **An indented text is read as the compact one**, whatever becomes of the numbers in it. -/
theorem parse_pretty {value again : Json} (h : value.reread = some again) :
    parse (value.pretty 0 ++ ['\n']) = parse value.print := by
  have hcompact := readTree_print h
  have hpretty : readTree (Utf8.ofChars (value.pretty 0 ++ ['\n'])) =
      (again.tree, some ['\n'.toUInt8]) := by
    rw [Utf8.ofChars_append]
    exact readTree_eq_some_iff.mpr (spans_pretty value h (endsNumber_cons (by decide) []))
  rw [parse, parse, parseBytes, parseBytes, decode, decode, decodeStriking.eq_def,
    decodeStriking.eq_def]
  simp only [hcompact, hpretty]
  cases hvalue : again.tree.value mostDepth with
  | ok value => rfl
  | error e =>
    obtain ⟨f, rfl⟩ := fault_of_value _ hvalue
    rfl

/-- A value that has been read of bytes is one that is read back. -/
theorem legible_of_parseBytes {bytes : Bytes} {value : Json} (h : parseBytes bytes = .ok value) :
    value.Legible := by
  have hcalm : ¬ Strikes ((readTree bytes).1.value mostDepth) := by
    rintro ⟨reach, hstrike⟩
    obtain ⟨f, hf⟩ := fault_of_value _ hstrike
    cases hf
  obtain ⟨hvalue, rest, hrest, -⟩ := decodeStriking_calm hcalm h
  exact Tree.Spans.legible _ (readTree_eq_some_iff.mp (Prod.ext rfl hrest)) hvalue

end Provision.Json
