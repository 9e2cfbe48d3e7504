import Provision.Proofs.Astray
import Provision.Proofs.Calm
import Provision.Proofs.Fieldwise

/-! Reading a text anew without what was struck out of it.

A reader that gives up one item too many of a list has the text read anew from where it has
stopped. If that is the end of the item, the rest of the text is read as before; if it is inside
of a string, the rest is read from the wrong side of its quotes and never comes to a good end.
So the text that is read at last has the members that were given, each of them as it was but for
what has been struck out of its list, `Cautious.left_of_decodeStriking`. -/
namespace Provision.Json

/-- A text is read as it stands, or it is read anew without what is struck out of it. -/
theorem decodeStriking_cases {α : Type} {decoder : Decoder α} {strikes : Nat} {text : Bytes}
    {value : α} (h : decodeStriking decoder strikes text = .ok value) :
    (decoder mostDepth (readTree text).1 = .ok value ∧
      ∃ rest, (readTree text).2 = some rest ∧ skipBlank rest = []) ∨
    ∃ reach less, strikes = less + 1 ∧
      decoder mostDepth (readTree text).1 = .error (.strike reach) ∧
        decodeStriking decoder less (reach.strike text) = .ok value := by
  rw [decodeStriking.eq_def] at h
  cases hread : decoder mostDepth (readTree text).1 with
  | ok found =>
    simp only [hread] at h
    split at h
    · next hends =>
      cases h
      refine .inl ⟨rfl, ?_⟩
      cases hrest : (readTree text).2 with
      | none =>
        rw [hrest] at hends
        cases hends
      | some rest =>
        rw [hrest] at hends
        exact ⟨rest, rfl, List.isEmpty_iff.mp hends⟩
    · cases h
  | error refusal =>
    cases refusal with
    | fault f =>
      simp only [hread] at h
      cases h
    | mismatch m =>
      simp only [hread] at h
      cases h
    | strike reach =>
      cases strikes with
      | zero =>
        simp only [hread] at h
        cases h
      | succ less =>
        simp only [hread] at h
        exact .inr ⟨reach, less, rfl, rfl, h⟩

/-- Where nothing is struck out the text is read as it stands. -/
theorem decodeStriking_calm {α : Type} {decoder : Decoder α} {strikes : Nat} {text : Bytes}
    {value : α} (calm : ¬ Strikes (decoder mostDepth (readTree text).1))
    (h : decodeStriking decoder strikes text = .ok value) :
    decoder mostDepth (readTree text).1 = .ok value ∧
      ∃ rest, (readTree text).2 = some rest ∧ skipBlank rest = [] := by
  rcases decodeStriking_cases h with h | ⟨reach, -, -, hstrike, -⟩
  · exact h
  · exact absurd ⟨reach, hstrike⟩ calm

/-! ### Places in a text -/

/-- A reader gives up a value in the text and stops at `reach`, with `behind` after the value.
A closing bracket may be put in the place of the value. -/
def Cut (text : Bytes) (reach : Reach) (behind : Bytes) (again : Bytes → Bytes → Prop) : Prop :=
  ∃ front value fault passing, text = front ++ value ∧ front ≠ [] ∧
    (Tree.broken fault passing reach).Stops value behind ∧
      ∀ tail rest, skipBlank tail = ']'.toUInt8 :: rest → again (front ++ tail) rest

namespace Cut

variable {text between behind : Bytes} {reach : Reach} {p q : Bytes → Bytes → Prop}

theorem mono (h : Cut text reach behind p) (himp : ∀ a b, p a b → q a b) :
    Cut text reach behind q := by
  obtain ⟨front, value, fault, passing, htext, hfront, hstops, hagain⟩ := h
  exact ⟨front, value, fault, passing, htext, hfront, hstops,
    fun tail rest htail => himp _ _ (hagain tail rest htail)⟩

theorem comp {start stop : Spot} (h : Moves start stop text between p)
    (h' : Cut between reach behind q) :
    Cut text reach behind fun a c => ∃ b, p a b ∧ q b c := by
  obtain ⟨front, rfl, -, hagain⟩ := h
  obtain ⟨next, value, fault, passing, rfl, hnext, hstops, hagain'⟩ := h'
  refine ⟨front ++ next, value, fault, passing, (List.append_assoc ..).symm,
    List.append_ne_nil_of_right_ne_nil _ hnext, hstops, fun tail rest htail => ?_⟩
  have hhead : (next ++ tail).head? = (next ++ value).head? := by
    obtain ⟨b, next, rfl⟩ := List.exists_cons_of_ne_nil hnext
    rfl
  rw [List.append_assoc]
  exact ⟨next ++ tail, hagain _ hhead, hagain' tail rest htail⟩

/-- What is read anew. -/
theorem strike (h : Cut text reach behind p) {rest : Bytes}
    (hclose : skipBlank reach.rest = ']'.toUInt8 :: rest) : p (reach.strike text) rest := by
  obtain ⟨front, value, fault, passing, rfl, -, ⟨-, hstart, -⟩, hagain⟩ := h
  have hstrike : reach.strike (front ++ value) = front ++ reach.rest := by
    rw [Reach.strike, hstart, List.length_append, Nat.add_sub_cancel, List.take_left]
  rw [hstrike]
  exact hagain reach.rest rest hclose

/-- The reader has stopped at the end of the value, or inside of a string that ends there. -/
theorem stops (h : Cut text reach behind p) {rest : Bytes}
    (hclose : skipBlank reach.rest = ']'.toUInt8 :: rest) :
    reach.rest = behind ∨ Moves .inside .outside reach.rest behind fun _ _ => True := by
  obtain ⟨front, value, fault, passing, -, -, ⟨-, -, hstops⟩, -⟩ := h
  rcases hstops with ⟨digits, hdigits, hrest⟩ | hinside
  · -- A digit in front would not close the list.
    cases digits with
    | nil => exact .inl hrest
    | cons b digits =>
      have hb : isNumberByte b = true := by
        simp [isNumberByte, hdigits b (List.mem_cons_self ..)]
      rw [hrest, List.cons_append, skipBlank_cons (startsValue_of_isNumberByte hb).1] at hclose
      exact absurd (List.cons.inj hclose).1 (startsValue_of_isNumberByte hb).2.1
  · exact .inr hinside

end Cut

/-! ### A broken item -/

theorem exists_blanks (text : Bytes) : ∃ blanks, text = blanks ++ skipBlank text ∧
    ∀ tail, skipBlank (blanks ++ tail) = skipBlank tail := by
  refine ⟨text.takeWhile isBlank, List.takeWhile_append_dropWhile.symm, fun tail => ?_⟩
  exact List.dropWhile_append_of_pos fun b hb => List.mem_takeWhile_imp hb

/-- Another item may stand behind the comma. -/
theorem Lead.put {text front : Bytes} (h : Lead false text front) :
    ∃ comma, comma ≠ [] ∧ text = comma ++ front ∧
      ∀ tail, Lead false (comma ++ tail) (skipBlank tail) := by
  obtain ⟨behind, hcomma, rfl⟩ := h
  obtain ⟨blanks, htext, hblanks⟩ := exists_blanks text
  obtain ⟨more, hbehind, hmore⟩ := exists_blanks behind
  rw [hcomma] at htext
  refine ⟨blanks ++ ','.toUInt8 :: more, by simp, ?_, fun tail => ?_⟩
  · rw [List.append_assoc, List.cons_append, ← hbehind]
    exact htext
  · refine ⟨more ++ tail, ?_, hmore tail⟩
    rw [List.append_assoc, List.cons_append, hblanks, skipBlank_cons (by decide)]

/-- The other list starts with these items, but for their places in the text. -/
def Items.Leads : Items → Items → Prop
  | .stop _, _ => True
  | .more _ _, .stop _ => False
  | .more item rest, .more other others => item.forget = other.forget ∧ rest.Leads others

theorem Items.leads_of_forget : (items : Items) → ∀ {others : Items},
    items.forget = others.forget → items.Leads others
  | .stop _, _, _ => trivial
  | .more _ _, .stop _, h => by cases h
  | .more item rest, .more other others, h => by
    injection h with hitem hrest
    exact ⟨hitem, Items.leads_of_forget rest hrest⟩

theorem Items.Leads.trans : (items : Items) → ∀ {others further : Items},
    items.Leads others → others.Leads further → items.Leads further
  | .stop _, _, _, _, _ => trivial
  | .more _ _, .stop _, _, h, _ => h.elim
  | .more _ _, .more _ _, .stop _, _, h => h.elim
  | .more _ rest, .more _ _, .more _ _, ⟨hitem, hrest⟩, ⟨hother, hothers⟩ =>
    ⟨hitem.trans hother, trans rest hrest hothers⟩

theorem Items.cut : (items : Items) → ∀ {first : Bool} {text rest : Bytes} {place : Nat}
    {reach : Reach}, items.Spans first text rest → items.reachAt place = some reach →
      (place = 0 → first = false) → ∃ behind, ∃ others : Items, others.Spans false behind rest ∧
        Cut text reach behind fun a c => ∃ again : Items,
          again.Spans first a c ∧ again.reachAt place = none ∧ again.Leads items
  | .stop _, _, _, _, 0, _, _, h, _ | .stop _, _, _, _, _ + 1, _, _, h, _ => by cases h
  | .more item others, first, text, rest, 0, reach, h, hreach, hfirst => by
    obtain rfl := hfirst rfl
    obtain ⟨front, behind, hlead, hitem, hothers⟩ := h
    cases item with
    | broken fault passing other =>
      cases hreach
      have htoken : Token (skipBlank front) (.broken fault passing reach) behind := hitem
      rw [hlead.skip] at htoken
      obtain ⟨comma, hne, rfl, hput⟩ := hlead.put
      refine ⟨behind, others, hothers, comma, front, fault, passing, rfl, hne, htoken.stops,
        fun tail close htail => ⟨.stop .danglingComma, ⟨rfl, ?_⟩, rfl, trivial⟩⟩
      rw [← htail]
      exact hput tail
    | _ => cases hreach
  | .more item items, first, text, rest, place + 1, reach, h, hreach, _ => by
    obtain ⟨front, behind, hlead, hitem, hitems⟩ := h
    obtain ⟨stop, others, hothers, hcut⟩ := Items.cut items hitems hreach fun _ => rfl
    refine ⟨stop, others, hothers, (hcut.comp (hlead.moves.comp hitem.moves)).mono ?_⟩
    rintro a c ⟨behind, ⟨front, ha, item', hitem', hforget⟩, again, hagain, hnone, hleads⟩
    exact ⟨.more item' again, ⟨front, behind, ha, hitem', hagain⟩, hnone, hforget, hleads⟩

/-- A list that closes here closes. -/
theorem Items.spans_of_close {text stop rest : Bytes} (items : Items)
    (hclose : skipBlank text = ']'.toUInt8 :: stop) (h : items.Spans false text rest) :
    stop = rest := by
  have hcomma : ∀ front, ¬ Lead false text front := by
    rintro front ⟨behind, hskip, -⟩
    rw [hclose] at hskip
    exact absurd (List.cons.inj hskip).1 (by decide)
  cases items with
  | more item items =>
    obtain ⟨front, -, hlead, -⟩ := h
    exact absurd hlead (hcomma front)
  | stop how =>
    cases how with
    | closed =>
      have hskip : skipBlank text = ']'.toUInt8 :: rest := h
      rw [hclose] at hskip
      exact (List.cons.inj hskip).2
    | danglingComma => exact absurd h.2 (hcomma _)
    | _ => exact h.elim

theorem array_cut {items : Items} {text rest : Bytes} {place : Nat} {reach : Reach}
    (h : (Tree.array items).Spans text rest) (hreach : items.reachAt place = some reach)
    (hplace : place ≠ 0) : ∃ behind, ∃ others : Items, others.Spans false behind rest ∧
      Cut text reach behind fun a c => ∃ again : Items,
        (Tree.array again).Spans a c ∧ again.reachAt place = none ∧ again.Leads items := by
  obtain ⟨inner, hopen, hitems⟩ := h
  obtain ⟨behind, others, hothers, hcut⟩ := Items.cut items hitems hreach fun he => absurd he hplace
  refine ⟨behind, others, hothers, (hcut.comp (skipBlank_byte_moves hopen rfl)).mono ?_⟩
  rintro a c ⟨inner, ha, again, hagain, hnone, hleads⟩
  exact ⟨again, ⟨inner, ha, hagain⟩, hnone, hleads⟩

/-! ### Members in a row -/

/-- The members of an object, with other members after them. -/
def Members.prepend (entries : List (Except Fault String × Tree)) (members : Members) : Members :=
  entries.foldr (fun entry rest => .more entry.1 entry.2 rest) members

/-- Members stand at the front of the text one after the other. -/
def Row : List (Except Fault String × Tree) → (first : Bool) → (text rest : Bytes) → Prop
  | [], first, text, rest => first = false ∧ text = rest
  | (key, value) :: entries, first, text, rest => ∃ inner behind, KeyAt first text key inner ∧
    value.Spans inner behind ∧ Row entries false behind rest

namespace Row

variable {members : Members}

theorem spans : (entries : List (Except Fault String × Tree)) → ∀ {first : Bool}
    {text behind rest : Bytes}, Row entries first text behind → members.Spans false behind rest →
      (members.prepend entries).Spans first text rest
  | [], _, _, _, _, ⟨hfirst, htext⟩, h => by
    subst hfirst htext
    exact h
  | (_, _) :: entries, _, _, _, _, ⟨inner, behind, hkey, hvalue, hrow⟩, h =>
    ⟨inner, behind, hkey, hvalue, spans entries hrow h⟩

/-- A reader gets through the row to what stands behind it. -/
theorem read : (entries : List (Except Fault String × Tree)) → ∀ {first : Bool}
    {text behind : Bytes} {fuel : Nat}, Row entries first text behind →
      3 * text.length + 3 ≤ fuel → ∃ less, readMembers fuel first text =
        ((readMembers less false behind).1.prepend entries, (readMembers less false behind).2)
  | [], _, _, _, fuel, ⟨hfirst, htext⟩, _ => by
    subst hfirst htext
    exact ⟨fuel, rfl⟩
  | (key, value) :: entries, first, text, rest, fuel, ⟨inner, behind, hkey, hvalue, hrow⟩,
    enough => by
    have hinner := hkey.length
    have hbehind := hvalue.length
    obtain ⟨fuel, rfl⟩ : ∃ less, fuel = less + 2 := ⟨fuel - 2, by omega⟩
    obtain ⟨less, hread⟩ := read entries hrow (show 3 * behind.length + 3 ≤ fuel by omega)
    refine ⟨less, ?_⟩
    rw [readMembers_more hkey (readValue_of_spans value hvalue (by omega)), hread]
    rfl

end Row

/-! ### Alike but for places -/

mutual

theorem Tree.value_forget (depth : Nat) : (tree : Tree) → tree.forget.value depth = tree.value depth
  | .array items => by
    cases depth with
    | zero => rfl
    | succ depth =>
      show (do return Json.array (← items.forget.values depth)) = _
      rw [Items.values_forget depth items]
      rfl
  | .object members => by
    cases depth with
    | zero => rfl
    | succ depth =>
      show (do return Json.object (← members.forget.fields depth [])) = _
      rw [Members.fields_forget depth members]
      rfl
  | .null | .bool _ | .number _ | .string _ | .broken _ _ _ => rfl

theorem Items.values_forget (depth : Nat) : (items : Items) →
    items.forget.values depth = items.values depth
  | .stop _ => rfl
  | .more item rest => by
    rw [Items.forget, Items.values, Items.values, Tree.value_forget depth item,
      Items.values_forget depth rest]

theorem Members.fields_forget (depth : Nat) : (members : Members) → ∀ {fields : Fields},
    members.forget.fields depth fields = members.fields depth fields
  | .stop _, _ => rfl
  | .more (.error _) _ _, _ => rfl
  | .more (.ok key) value rest, fields => by
    rw [Members.forget, Members.fields, Members.fields, Tree.value_forget depth value]
    simp only [Members.fields_forget depth rest]

end

mutual

theorem Tree.forget_of_value {depth : Nat} : (tree : Tree) → ∀ {value : Json},
    tree.value depth = .ok value → tree.forget = tree
  | .array items, _, h => by
    obtain ⟨values, hvalues, -⟩ := bind_eq_ok_iff.mp h
    obtain ⟨less, -, hvalues⟩ := deeper_eq_ok_iff.mp hvalues
    rw [Tree.forget, Items.forget_of_values items hvalues]
  | .object members, _, h => by
    obtain ⟨fields, hfields, -⟩ := bind_eq_ok_iff.mp h
    obtain ⟨less, -, hfields⟩ := deeper_eq_ok_iff.mp hfields
    rw [Tree.forget, Members.forget_of_fields members hfields]
  | .broken _ _ _, _, h => by cases h
  | .null, _, _ | .bool _, _, _ | .number _, _, _ | .string _, _, _ => rfl

theorem Items.forget_of_values {depth : Nat} : (items : Items) → ∀ {values : List Json},
    items.values depth = .ok values → items.forget = items
  | .stop _, _, _ => rfl
  | .more item rest, _, h => by
    obtain ⟨value, hvalue, h⟩ := bind_eq_ok_iff.mp h
    obtain ⟨others, hothers, -⟩ := bind_eq_ok_iff.mp h
    rw [Items.forget, Tree.forget_of_value item hvalue, Items.forget_of_values rest hothers]

theorem Members.forget_of_fields {depth : Nat} : (members : Members) → ∀ {fields result : Fields},
    members.fields depth fields = .ok result → members.forget = members
  | .stop _, _, _, _ => rfl
  | .more (.error _) _ _, _, _, h => by cases h
  | .more (.ok key) value rest, fields, result, h => by
    obtain ⟨inner, hinner, h⟩ := bind_eq_ok_iff.mp h
    rw [Members.forget, Tree.forget_of_value value hinner, Members.forget_of_fields rest h]

end

theorem Tree.Whole.of_forget {tree again : Tree} (h : tree.Whole)
    (hforget : again.forget = tree.forget) : again = tree := by
  obtain ⟨depth, value, hvalue⟩ := h
  have hagain : again.value depth = .ok value := by
    rw [← Tree.value_forget, hforget, Tree.value_forget, hvalue]
  rw [← Tree.forget_of_value again hagain, hforget, Tree.forget_of_value tree hvalue]

theorem Tree.Whole.reachAt {items : Items} (h : (Tree.array items).Whole) (place : Nat) :
    items.reachAt place = none := by
  obtain ⟨depth, value, hvalue⟩ := h
  obtain ⟨values, hvalues, -⟩ := bind_eq_ok_iff.mp hvalue
  obtain ⟨less, -, hvalues⟩ := deeper_eq_ok_iff.mp hvalues
  exact reachAt_of_values items hvalues

theorem Decoder.Edgy.calm_array {α : Type} {decoder : Decoder α} {place : Nat}
    (h : decoder.Edgy place) {items : Items} (hnone : items.reachAt place = none) (depth : Nat) :
    ¬ Strikes (decoder depth (.array items)) := by
  rintro ⟨reach, hstrike⟩
  obtain ⟨others, he, hreach, -⟩ := h.strikes depth _ reach hstrike
  cases he
  rw [hnone] at hreach
  cases hreach

theorem Items.reachAt_forget : (items : Items) → (place : Nat) →
    (items.forget.reachAt place).isSome = (items.reachAt place).isSome
  | .stop _, 0 | .stop _, _ + 1 => rfl
  | .more item rest, 0 => by cases item <;> rfl
  | .more item rest, place + 1 => Items.reachAt_forget rest place

/-! ### Records -/

/-- Each member with this key is whole. -/
def Members.WholeAt (kept : String) : Members → Prop
  | .stop _ => True
  | .more key value rest => (key = .ok kept → value.Whole) ∧ rest.WholeAt kept

namespace Record

variable {σ : Type} {record : Record σ} {kept : String}

/-- The record strikes nothing out of whole members with the key `kept`, and out of others only
from lists with one item too many. All its fields have names that cannot stand outside of
strings. -/
structure Cautious (record : Record σ) (kept : String) : Prop where
  fields : ∀ field ∈ record.fields, field.codec.read.Calm (fun _ => True) ∨
    (field.name = kept ∧ field.codec.read.Calm Tree.Whole) ∨
      ∃ place, place ≠ 0 ∧ field.codec.read.Edgy place
  names : ∀ field ∈ record.fields, ¬ IsBareText field.name

/-- A field that has been read is calm when it is read again from a tree that is the same but for
its places. -/
theorem Cautious.calm_again (cautious : record.Cautious kept) {name : String}
    {field : RecordField σ} (hfind : record.find? name = some field) {depth : Nat}
    {tree again : Tree} {value : field.α} (hread : field.codec.read depth tree = .ok value)
    (whole : name = kept → tree.Whole) (hforget : again.forget = tree.forget) (more : Nat) :
    ¬ Strikes (field.codec.read more again) := by
  obtain ⟨hmem, hname⟩ := find?_eq_some hfind
  rcases cautious.fields field hmem with hcalm | ⟨hkept, hcalm⟩ | ⟨place, -, hedgy⟩
  · exact hcalm more again trivial
  · have htree := whole (hname.symm.trans hkept)
    rw [htree.of_forget hforget]
    exact hcalm more tree htree
  · rintro ⟨reach, h⟩
    obtain ⟨items, rfl, hreach, -⟩ := hedgy.strikes more again reach h
    cases tree with
    | array others =>
      have hsame : items.forget = others.forget := Tree.array.inj hforget
      have hnone := hedgy.read depth others value hread
      have hsome := Items.reachAt_forget items place
      rw [hsame, Items.reachAt_forget, hnone, hreach] at hsome
      cases hsome
    | _ => cases hforget

/-- What may be left of the value under a name: all of it but for its places in the text, or the
front of a list, if the field is one whose reader strikes something out of some lists. -/
def Left (record : Record σ) (name : String) (tree other : Tree) : Prop :=
  other.forget = tree.forget ∨
    (∃ field, record.find? name = some field ∧ ¬ field.codec.read.Calm fun _ => True) ∧
      ∃ items again, tree = .array items ∧ other = .array again ∧ again.Leads items

theorem Left.trans {name : String} {tree other further : Tree} (h : record.Left name tree other)
    (h' : record.Left name other further) : record.Left name tree further := by
  rcases h with hforget | ⟨hfield, items, again, rfl, rfl, hleads⟩
  · rcases h' with hforget' | ⟨hfield, items, again, rfl, rfl, hleads⟩
    · exact .inl (hforget'.trans hforget)
    · cases tree with
      | array others =>
        have hsame : items.Leads others := Items.leads_of_forget items (Tree.array.inj hforget)
        exact .inr ⟨hfield, others, again, rfl, rfl, hleads.trans again hsame⟩
      | _ => cases hforget
  · rcases h' with hforget' | ⟨-, others, final, he, rfl, hleads'⟩
    · cases further with
      | array final =>
        have hsame : final.Leads again := Items.leads_of_forget final (Tree.array.inj hforget')
        exact .inr ⟨hfield, items, final, rfl, rfl, hsame.trans final hleads⟩
      | _ => cases hforget'
    · cases he
      exact .inr ⟨hfield, items, final, rfl, rfl, hleads'.trans final hleads⟩

/-- All is left of what is read by a reader that strikes nothing out of any text. -/
theorem Left.forget {name : String} {tree other : Tree} (h : record.Left name tree other)
    (calm : ∀ field, record.find? name = some field → field.codec.read.Calm fun _ => True) :
    other.forget = tree.forget := by
  rcases h with hforget | ⟨⟨field, hfind, hstrikes⟩, -⟩
  · exact hforget
  · exact absurd (calm field hfind) hstrikes

/-- What is left under each name. -/
def AllLeft (record : Record σ) (members again : Members) : Prop :=
  ∀ name, Option.Rel (record.Left name) (members.last? name) (again.last? name)

theorem AllLeft.refl (members : Members) : record.AllLeft members members := by
  intro name
  cases members.last? name with
  | none => exact .none
  | some tree => exact .some (.inl rfl)

theorem AllLeft.trans {members again final : Members} (h : record.AllLeft members again)
    (h' : record.AllLeft again final) : record.AllLeft members final := by
  intro name
  have hfirst := h name
  have hsecond := h' name
  revert hfirst hsecond
  cases members.last? name <;> cases again.last? name <;> cases final.last? name <;>
    rintro (h | _) (h' | _)
  · exact .none
  · exact .some (h.trans h')

theorem AllLeft.cons {members again : Members} (h : record.AllLeft members again) {name : String}
    {tree other : Tree} (hleft : record.Left name tree other) :
    record.AllLeft (.more (.ok name) tree members) (.more (.ok name) other again) := by
  intro key
  have hrest := h key
  rw [Members.last?, Members.last?]
  revert hrest
  cases members.last? key <;> cases again.last? key <;> rintro (hrest | _)
  · by_cases hname : name = key
    · rw [if_pos hname, if_pos hname, ← hname]
      exact .some hleft
    · rw [if_neg hname, if_neg hname]
      exact .none
  · exact .some hrest

theorem AllLeft.forget {members again : Members} (h : record.AllLeft members again) {name : String}
    (calm : ∀ field, record.find? name = some field → field.codec.read.Calm fun _ => True) :
    (again.last? name).map Tree.forget = (members.last? name).map Tree.forget := by
  have hleft := h name
  revert hleft
  cases members.last? name <;> cases again.last? name <;> rintro (hleft | _)
  · rfl
  · exact congrArg some (hleft.forget calm)

/-- What is left of a row of members when something has been struck out of the last one. -/
structure Mends (record : Record σ) (kept : String)
    (entries again : List (Except Fault String × Tree)) : Prop where
  last? : ∀ members : Members,
    (members.prepend again).last? kept = (members.prepend entries).last? kept
  whole : ∀ entry ∈ again, entry.1 = .ok kept → entry.2.Whole
  calm : ∀ entry ∈ again, ∀ name field, entry.1 = .ok name → record.find? name = some field →
    ∀ depth, ¬ Strikes (field.codec.read depth entry.2)
  left : ∀ members : Members, record.AllLeft (members.prepend entries) (members.prepend again)

/-- Something is struck out of the only member. -/
theorem Mends.single {name : String} {tree other : Tree} (hname : name ≠ kept)
    (calm : ∀ field, record.find? name = some field →
      ∀ depth, ¬ Strikes (field.codec.read depth other)) (left : record.Left name tree other) :
    record.Mends kept [(.ok name, tree)] [(.ok name, other)] where
  last? := by
    intro members
    show (members.last? kept).or (if name = kept then some other else none) =
      (members.last? kept).or (if name = kept then some tree else none)
    rw [if_neg hname, if_neg hname]
  whole := by
    rintro entry hentry hkept
    rw [List.mem_singleton] at hentry
    subst hentry
    exact absurd (Except.ok.inj hkept) hname
  calm := by
    rintro entry hentry found field hfound hfind
    rw [List.mem_singleton] at hentry
    subst hentry
    cases hfound
    exact calm field hfind
  left := fun members => (AllLeft.refl members).cons left

theorem Mends.cons {entries again : List (Except Fault String × Tree)}
    (h : record.Mends kept entries again) {name : String} {tree other : Tree}
    (whole : name = kept → tree.Whole) (hforget : other.forget = tree.forget)
    (calm : ∀ field, record.find? name = some field →
      ∀ depth, ¬ Strikes (field.codec.read depth other)) :
    record.Mends kept ((.ok name, tree) :: entries) ((.ok name, other) :: again) where
  last? := by
    intro members
    show ((members.prepend again).last? kept).or (if name = kept then some other else none) =
      ((members.prepend entries).last? kept).or (if name = kept then some tree else none)
    rw [h.last? members]
    split
    · next hname => rw [(whole hname).of_forget hforget]
    · rfl
  whole := by
    rintro entry hentry hkept
    rcases List.mem_cons.mp hentry with rfl | hentry
    · have htree := whole (Except.ok.inj hkept)
      rw [htree.of_forget hforget]
      exact htree
    · exact h.whole entry hentry hkept
  calm := by
    rintro entry hentry found field hname hfind
    rcases List.mem_cons.mp hentry with rfl | hentry
    · cases hname
      exact calm field hfind
    · exact h.calm entry hentry found field hname hfind
  left := fun members => (h.left members).cons (.inl hforget)

/-- Something is struck out of the last of the first few members, and the others stand behind what
is left of it. -/
def Parted (record : Record σ) (kept : String) (members : Members) (first : Bool)
    (text rest : Bytes) (reach : Reach) : Prop :=
  ∃ entries behind close, ∃ others : Items, ∃ back : Members,
    members = back.prepend entries ∧ others.Spans false behind close ∧
      back.Spans false close rest ∧ back.WholeAt kept ∧
        (∃ stop, skipBlank reach.rest = ']'.toUInt8 :: stop) ∧
          Cut text reach behind fun a c =>
            ∃ again, Row again first a c ∧ record.Mends kept entries again

/-- A member that has been read stands in front of them. -/
theorem Parted.cons (cautious : record.Cautious kept) {name : String} {tree : Tree}
    {members : Members} {first : Bool} {text inner behind rest : Bytes} {reach : Reach}
    (hkey : KeyAt first text (.ok name) inner) (htree : tree.Spans inner behind)
    (whole : name = kept → tree.Whole)
    (hread : ∀ field, record.find? name = some field →
      ∃ depth content, field.codec.read depth tree = .ok content)
    (h : record.Parted kept members false behind rest reach) :
    record.Parted kept (.more (.ok name) tree members) first text rest reach := by
  obtain ⟨entries, stop, close, others, back, rfl, hothers, hback, hwhole, hclose, hcut⟩ := h
  refine ⟨(.ok name, tree) :: entries, stop, close, others, back, rfl, hothers, hback, hwhole,
    hclose, (hcut.comp (hkey.moves.comp htree.moves)).mono ?_⟩
  rintro a c ⟨behind, ⟨inner, ha, other, hother, hforget⟩, again, hrow, hmends⟩
  refine ⟨(.ok name, other) :: again, ⟨inner, behind, ha, hother, hrow⟩,
    hmends.cons whole hforget fun field hfind more => ?_⟩
  obtain ⟨depth, content, hcontent⟩ := hread field hfind
  exact cautious.calm_again hfind hcontent whole hforget more

/-- The value of the first member is the one that something is struck out of. -/
theorem Parted.here (cautious : record.Cautious kept) {name : String}
    {field : RecordField σ} (hfind : record.find? name = some field) {tree : Tree}
    {members : Members} {first : Bool} {text inner behind rest : Bytes} {depth : Nat}
    {reach : Reach}
    (hkey : KeyAt first text (.ok name) inner) (htree : tree.Spans inner behind)
    (hmembers : members.Spans false behind rest)
    (whole : Members.WholeAt kept (.more (.ok name) tree members))
    (h : field.codec.read depth tree = .error (.strike reach)) :
    record.Parted kept (.more (.ok name) tree members) first text rest reach := by
  obtain ⟨hmem, hname⟩ := find?_eq_some hfind
  rcases cautious.fields field hmem with hcalm | ⟨hkept, hcalm⟩ | ⟨place, hplace, hedgy⟩
  · exact absurd ⟨reach, h⟩ (hcalm depth tree trivial)
  · have htreeWhole := whole.1 (congrArg _ (hname.symm.trans hkept))
    exact absurd ⟨reach, h⟩ (hcalm depth tree htreeWhole)
  · obtain ⟨items, rfl, hreach, hclose⟩ := hedgy.strikes depth tree reach h
    obtain ⟨stop, others, hothers, hcut⟩ := array_cut htree hreach hplace
    refine ⟨[(.ok name, .array items)], stop, behind, others, members, rfl, hothers, hmembers,
      whole.2, hclose, (hcut.comp hkey.moves).mono ?_⟩
    rintro a c ⟨inner, ha, again, hagain, hnone, hleads⟩
    have hstrikes : ¬ field.codec.read.Calm fun _ => True :=
      fun hcalm => hcalm depth _ trivial ⟨reach, h⟩
    refine ⟨[(.ok name, .array again)], ⟨inner, c, ha, hagain, rfl, rfl⟩,
      .single (fun he => ?_) (fun other hother more => ?_)
        (.inr ⟨⟨field, hfind, hstrikes⟩, items, again, rfl, rfl, hleads⟩)⟩
    · have hitems := (whole.1 (congrArg _ he)).reachAt place
      rw [hreach] at hitems
      cases hitems
    · obtain rfl := Option.some.inj (hfind.symm.trans hother)
      exact hedgy.calm_array hnone more

/-- Where something is struck out of the members of an object. -/
theorem parted_of_readMembers (cautious : record.Cautious kept) {depth : Nat} {reach : Reach} :
    (members : Members) → ∀ {first : Bool} {text rest : Bytes} {seen : List String} {value : σ},
      members.Spans first text rest → members.WholeAt kept →
        record.readMembers depth members seen value = .error (.strike reach) →
          record.Parted kept members first text rest reach
  | .stop how, _, _, _, _, _, _, _, h =>
    absurd ⟨reach, h⟩ (Strikes.bind Strikes.accept fun _ _ => Strikes.ok)
  | .more (.error f) _ _, _, _, _, _, _, _, _, h => by cases h
  | .more (.ok name) tree rest, first, text, after, seen, value, hspans, hwhole, h => by
    obtain ⟨inner, behind, hkey, htree, hrest⟩ := hspans
    have htreeWhole : name = kept → tree.Whole := fun he => hwhole.1 (congrArg _ he)
    rw [readMembers] at h
    split at h
    · next hnone =>
      rcases bind_eq_error_iff.mp h with h | ⟨_, -, h⟩
      · exact absurd ⟨reach, h⟩ tree.pass_calm
      · refine .cons cautious hkey htree htreeWhole (fun field hfind => ?_)
          (parted_of_readMembers cautious rest hrest hwhole.2 h)
        rw [hnone] at hfind
        cases hfind
    next field hfind =>
    split at h
    · cases h
    rcases bind_eq_error_iff.mp h with h | ⟨_, hfield, h⟩
    · rcases bind_eq_error_iff.mp h with h | ⟨_, -, h⟩
      · exact .here cautious hfind hkey htree hrest hwhole h
      · cases h
    · obtain ⟨content, hcontent, -⟩ := bind_eq_ok_iff.mp hfield
      refine .cons cautious hkey htree htreeWhole (fun other hother => ?_)
        (parted_of_readMembers cautious rest hrest hwhole.2 h)
      obtain rfl := Option.some.inj (hfind.symm.trans hother)
      exact ⟨depth, content, hcontent⟩

/-! ### Reading anew -/

theorem Mends.wholeAt {entries again : List (Except Fault String × Tree)}
    (h : record.Mends kept entries again) {members : Members} (hmembers : members.WholeAt kept) :
    (members.prepend again).WholeAt kept := by
  have hwhole := h.whole
  clear h
  induction again with
  | nil => exact hmembers
  | cons entry again ih =>
    exact ⟨hwhole entry (List.mem_cons_self ..),
      ih fun other ho => hwhole other (List.mem_cons_of_mem _ ho)⟩

/-- Members with keys that could stand outside of strings are passed over. -/
theorem Cautious.calm_bare (cautious : record.Cautious kept) {depth : Nat} :
    (members : Members) → members.Bare → ∀ {seen : List String} {value : σ},
      ¬ Strikes (record.readMembers depth members seen value)
  | .stop _, _, _, _ => Strikes.bind Strikes.accept fun _ _ => Strikes.ok
  | .more (.error _) _ _, _, _, _ => Strikes.fault
  | .more (.ok name) tree rest, ⟨hname, hrest⟩, seen, value => by
    have hnone : record.find? name = none := by
      cases hfind : record.find? name with
      | none => rfl
      | some field =>
        obtain ⟨hmem, rfl⟩ := find?_eq_some hfind
        exact absurd (hname field.name rfl) (cautious.names field hmem)
    rw [readMembers, hnone]
    exact Strikes.bind tree.pass_calm fun _ _ => cautious.calm_bare rest hrest

theorem Mends.calm_prepend {entries again : List (Except Fault String × Tree)}
    (h : record.Mends kept entries again) {members : Members} {depth : Nat}
    (calm : ∀ seen value, ¬ Strikes (record.readMembers depth members seen value)) :
    ∀ seen value, ¬ Strikes (record.readMembers depth (members.prepend again) seen value) := by
  have hcalm := h.calm
  clear h
  induction again with
  | nil => exact calm
  | cons entry again ih =>
    intro seen value
    have hrest := ih fun other ho => hcalm other (List.mem_cons_of_mem _ ho)
    have hentry := hcalm entry (List.mem_cons_self ..)
    obtain ⟨key, tree⟩ := entry
    show ¬ Strikes (record.readMembers depth (.more key tree (members.prepend again)) seen value)
    cases key with
    | error f => exact Strikes.fault
    | ok name =>
      rw [readMembers]
      split
      · exact Strikes.bind tree.pass_calm fun _ _ => hrest _ _
      next field hfind =>
      split
      · exact Strikes.mismatch
      · have hfield := hentry name field rfl hfind depth
        exact Strikes.bind (Strikes.bind hfield fun _ _ => Strikes.ok) fun _ _ => hrest _ _

theorem strikes_of_readObject {depth : Nat} {members : Members} {reach : Reach}
    (h : record.readObject depth members = .error (.strike reach)) :
    record.readMembers depth members [] record.blank = .error (.strike reach) := by
  rcases bind_eq_error_iff.mp h with h | ⟨⟨seen, value⟩, -, h⟩
  · exact h
  · dsimp only at h
    split at h <;> cases h

/-- A text that is read astray behind a row of members is refused. -/
theorem Cautious.refuses (cautious : record.Cautious kept)
    {entries again : List (Except Fault String × Tree)} (hmends : record.Mends kept entries again)
    {text inner behind : Bytes} (hopen : skipBlank text = '\x7b'.toUInt8 :: inner)
    (hrow : Row again true inner behind) (hastray : Astray behind) (strikes : Nat) (value : σ) :
    decodeStriking record.codec.read strikes text ≠ .ok value := by
  intro h
  have hlength := skipBlank_length text
  rw [hopen, List.length_cons] at hlength
  obtain ⟨less, hread⟩ := hrow.read again
    (show 3 * inner.length + 3 ≤ 3 * text.length + 2 by omega)
  have htree : readTree text = (.object ((Json.readMembers less false behind).1.prepend again),
      (Json.readMembers less false behind).2) := by
    rw [readTree, fuelFor, ← readValue_skipBlank, hopen, readValue_object, hread]
  have hcalm : ¬ Strikes (record.codec.read mostDepth (readTree text).1) := by
    rw [htree]
    refine fun hstrikes => ?_
    obtain ⟨reach, hstrike⟩ := hstrikes
    exact hmends.calm_prepend (fun _ _ => cautious.calm_bare _ (readMembers_astray _ hastray)) _ _
      ⟨reach, strikes_of_readObject hstrike⟩
  obtain ⟨-, rest, hrest, hblank⟩ := decodeStriking_calm hcalm h
  rw [htree] at hrest
  exact (readMembers_behind hastray hrest).skipBlank_ne_nil hblank

/-- **A text is read anew with every member that it has, and what is left of them.** A member of
which a whole value comes is read from the text as it was given. -/
theorem Cautious.left_of_decodeStriking (cautious : record.Cautious kept) {value : σ} :
    (strikes : Nat) → ∀ {text rest : Bytes} {members : Members},
      (Tree.object members).Spans text rest → skipBlank rest = [] → members.WholeAt kept →
        decodeStriking record.codec.read strikes text = .ok value →
          ∃ again : Members, record.readObject (mostDepth - 1) again = .ok value ∧
            again.last? kept = members.last? kept ∧ record.AllLeft members again
  | strikes, text, rest, members, hspans, hrest, hwhole, h => by
    have hobject : record.codec.read mostDepth (.object members) =
      record.readObject (mostDepth - 1) members := rfl
    have htree : readTree text = (.object members, some rest) := readTree_eq_some_iff.mpr hspans
    rcases decodeStriking_cases h with ⟨hread, -⟩ | ⟨reach, less, rfl, hread, hagain⟩
    · rw [htree, hobject] at hread
      exact ⟨members, hread, rfl, AllLeft.refl members⟩
    rw [htree, hobject] at hread
    obtain ⟨inner, hopen, hmembers⟩ := hspans
    obtain ⟨entries, behind, close, others, back, rfl, hothers, hback, hbackWhole,
      ⟨stop, hclose⟩, hcut⟩ := parted_of_readMembers cautious members hmembers hwhole
        (strikes_of_readObject hread)
    obtain ⟨inner', hopen', again, hrow, hmends⟩ :=
      (hcut.comp (skipBlank_byte_moves hopen rfl)).strike hclose
    rcases hcut.stops hclose with hsame | hinside
    · -- The reader goes on where it would have gone on anyway.
      have hstop : stop = close := others.spans_of_close (hsame ▸ hclose) hothers
      subst hstop
      obtain ⟨final, hfinal, hlast, hleft⟩ := left_of_decodeStriking cautious less
        ⟨inner', hopen', hrow.spans again hback⟩ hrest (hmends.wholeAt hbackWhole) hagain
      exact ⟨final, hfinal, hlast.trans (hmends.last? back), (hmends.left back).trans hleft⟩
    · -- The reader goes on inside of a string.
      have hend : Spot.outside.after rest = some .outside := by
        have hskip := (skipBlank_moves rest).after
        rw [hrest] at hskip
        exact hskip
      have hastray : Astray reach.rest := by
        rw [Astray, hinside.after, (Items.Spans.moves _ hothers).after,
          (Members.Spans.moves _ hback).after, hend]
      have hstop := hastray.behind (skipBlank_byte_moves hclose rfl)
      exact absurd hagain (cautious.refuses hmends hopen' hrow hstop less value)

end Record
end Provision.Json
