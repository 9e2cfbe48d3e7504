import Provision.Json.Merge
import Provision.Proofs.Dictionary
import Provision.Proofs.Rereading

/-! Values that a reader can return.

A reader puts the keys of every object in order and goes only so deep: `Fits`. Such a value is
read back from its own tree, `value_tree`, and two of them merged make another one,
`Fits.merge`. With `readValue_print` this says what comes of the text of such a value:
`parse_print_eq_ok_iff`. -/
namespace Provision.Json
open Text

/-- The keys of every object ascend, and lists and objects are nested no deeper than this. -/
inductive Fits : Nat → Json → Prop
  | null {depth : Nat} : Fits depth .null
  | bool {depth : Nat} (value : Bool) : Fits depth (.bool value)
  | number {depth : Nat} (n : Num) : Fits depth (.number n)
  | string {depth : Nat} (value : String) : Fits depth (.string value)
  | array {depth : Nat} {items : List Json} : (∀ item ∈ items, Fits depth item) →
    Fits (depth + 1) (.array items)
  | object {depth : Nat} {members : Fields} : members.Ascending →
    (∀ member ∈ members, Fits depth member.2) → Fits (depth + 1) (.object members)

/-- What stands in an object of this kind. -/
structure Fields.Fit (depth : Nat) (fields : Fields) : Prop where
  ascending : fields.Ascending
  values : ∀ member ∈ fields, Fits depth member.2

namespace Fields.Fit

variable {depth : Nat} {fields : Fields}

theorem nil : Fields.Fit depth [] where
  ascending := List.Pairwise.nil
  values := fun _ h => (nomatch h)

theorem object (h : Fields.Fit depth fields) : Fits (depth + 1) (.object fields) :=
  .object h.ascending h.values

theorem insert (h : Fields.Fit depth fields) {value : Json} (hvalue : Fits depth value)
    (key : String) : Fields.Fit depth (fields.insert key value) where
  ascending := h.ascending.insert key value
  values := fun member hm => by
    rcases Dictionary.mem_of_mem_insert hm with rfl | hm
    · exact hvalue
    · exact h.values member hm

end Fields.Fit

theorem fits_object_iff {depth : Nat} {members : Fields} :
    Fits (depth + 1) (.object members) ↔ Fields.Fit depth members := by
  constructor
  · intro h
    cases h with
    | object ascending values => exact ⟨ascending, values⟩
  · exact Fields.Fit.object

/-! ### What is read fits -/

mutual

theorem fits_of_value {depth : Nat} {value : Json} : (tree : Tree) →
    tree.value depth = .ok value → Fits depth value
  | .null, h => by cases h; exact .null
  | .bool value, h => by cases h; exact .bool value
  | .number n, h => by cases h; exact .number n
  | .string value, h => by cases h; exact .string value
  | .array items, h => by
    obtain ⟨values, hvalues, ⟨⟩⟩ := bind_eq_ok_iff.mp h
    obtain ⟨less, rfl, hvalues⟩ := deeper_eq_ok_iff.mp hvalues
    exact .array (fits_of_values items hvalues)
  | .object members, h => by
    obtain ⟨fields, hfields, ⟨⟩⟩ := bind_eq_ok_iff.mp h
    obtain ⟨less, rfl, hfields⟩ := deeper_eq_ok_iff.mp hfields
    exact (fit_of_fields members hfields .nil).object
  | .broken _ _ _, h => by cases h

theorem fits_of_values {depth : Nat} {values : List Json} : (items : Items) →
    items.values depth = .ok values → ∀ value ∈ values, Fits depth value
  | .stop how, h => by
    obtain ⟨_, -, ⟨⟩⟩ := bind_eq_ok_iff.mp h
    exact fun _ h => (nomatch h)
  | .more item rest, h => by
    obtain ⟨first, hfirst, h⟩ := bind_eq_ok_iff.mp h
    obtain ⟨others, hothers, ⟨⟩⟩ := bind_eq_ok_iff.mp h
    intro value hvalue
    rcases List.mem_cons.mp hvalue with rfl | hvalue
    · exact fits_of_value item hfirst
    · exact fits_of_values rest hothers value hvalue

/-- A reader adds the members to those it has, so the ones it starts with have to fit too. -/
theorem fit_of_fields {depth : Nat} {fields result : Fields} : (members : Members) →
    members.fields depth fields = .ok result → Fields.Fit depth fields → Fields.Fit depth result
  | .stop how, h, hfit => by
    obtain ⟨_, -, ⟨⟩⟩ := bind_eq_ok_iff.mp h
    exact hfit
  | .more (.error _) _ _, h, _ => by cases h
  | .more (.ok key) tree rest, h, hfit => by
    obtain ⟨value, hvalue, h⟩ := bind_eq_ok_iff.mp h
    exact fit_of_fields rest h (hfit.insert (fits_of_value tree hvalue) key)

end

/-! ### What fits is read -/

theorem values_treeItems {depth : Nat} {items : List Json}
    (h : ∀ item ∈ items, item.tree.value depth = .ok item) :
    (treeItems items).values depth = .ok items := by
  induction items with
  | nil => rfl
  | cons item rest ih =>
    rw [treeItems, Items.values, h item (List.mem_cons_self ..)]
    show ((treeItems rest).values depth >>= fun values => .ok (item :: values)) = _
    rw [ih fun other ho => h other (List.mem_cons_of_mem _ ho)]
    rfl

theorem fields_treeMembers {depth : Nat} {members fields : Fields}
    (h : ∀ member ∈ members, member.2.tree.value depth = .ok member.2) :
    (treeMembers members).fields depth fields = .ok (fields.insertAll members) := by
  induction members generalizing fields with
  | nil => rfl
  | cons member rest ih =>
    obtain ⟨key, value⟩ := member
    rw [treeMembers, Members.fields, h (key, value) (List.mem_cons_self ..)]
    exact ih fun other ho => h other (List.mem_cons_of_mem _ ho)

/-- A value that fits is what comes of its tree. -/
theorem Fits.value_tree {depth : Nat} {value : Json} (h : Fits depth value) :
    value.tree.value depth = .ok value := by
  induction h with
  | null => rfl
  | bool => rfl
  | number => rfl
  | string => rfl
  | @array depth items _ ih =>
    refine bind_eq_ok_iff.mpr ⟨items, ?_, rfl⟩
    exact values_treeItems ih
  | @object depth members ascending _ ih =>
    refine bind_eq_ok_iff.mpr ⟨members, ?_, rfl⟩
    refine (fields_treeMembers ih).trans ?_
    have hall : Dictionary.insertAll [] members = [] ++ members :=
      Dictionary.insertAll_of_ascending ascending
    rw [hall]
    rfl

/-! ### Merging -/

theorem Fields.Fit.mergeFields {depth : Nat} {base : Fields} (hbase : Fields.Fit depth base)
    {overrides : List (String × Json)}
    (h : ∀ member ∈ overrides, Fits depth member.2 ∧
      ∀ lower, Fits depth lower → Fits depth (merge lower member.2)) :
    Fields.Fit depth (mergeFields base overrides) := by
  induction overrides generalizing base with
  | nil =>
    rw [Json.mergeFields]
    exact hbase
  | cons member rest ih =>
    obtain ⟨key, value⟩ := member
    obtain ⟨hvalue, hmerge⟩ := h (key, value) (List.mem_cons_self ..)
    rw [Json.mergeFields]
    refine ih (hbase.insert ?_ key) fun other ho => h other (List.mem_cons_of_mem _ ho)
    cases hf : Dictionary.find? key base with
    | none => exact hvalue
    | some lower => exact hmerge lower (hbase.values _ (Dictionary.mem_of_find? hf))

/-- Only of two objects something is left of the lower one. -/
theorem merge_cases (lower upper : Json) :
    merge lower upper = upper ∨ ∃ base overrides, lower = .object base ∧
      upper = .object overrides ∧ merge lower upper = .object (mergeFields base overrides) := by
  cases upper with
  | object overrides =>
    cases lower with
    | object base => exact .inr ⟨base, overrides, rfl, rfl, by rw [merge]⟩
    | _ => exact .inl (by rw [merge]; rintro _ ⟨⟩)
  | _ => exact .inl (by rw [merge]; rintro _ ⟨⟩)

theorem Fits.mergeOver {depth : Nat} {upper : Json} (h : Fits depth upper)
    (plain : upper.isObject = false) (lower : Json) : Fits depth (Json.merge lower upper) := by
  rcases merge_cases lower upper with he | ⟨base, overrides, -, rfl, -⟩
  · rw [he]
    exact h
  · cases plain

/-- Two values merged are nested no deeper than the deeper one. -/
theorem Fits.merge {depth : Nat} {upper : Json} (h : Fits depth upper) :
    ∀ lower, Fits depth lower → Fits depth (Json.merge lower upper) := by
  -- The upper value is followed down; the lower one goes along with it.
  induction h with
  | @object depth members ascending values ih =>
    intro lower hlower
    rcases merge_cases lower (.object members) with he | ⟨base, overrides, rfl, ⟨⟩, he⟩
    · rw [he]
      exact .object ascending values
    · cases hlower with
      | object ascending' values' =>
        rw [he]
        exact (Fields.Fit.mergeFields ⟨ascending', values'⟩
          fun member hm => ⟨values member hm, ih member hm⟩).object
  | null => exact fun lower _ => Fits.null.mergeOver rfl lower
  | bool value => exact fun lower _ => (Fits.bool value).mergeOver rfl lower
  | number n => exact fun lower _ => (Fits.number n).mergeOver rfl lower
  | string value => exact fun lower _ => (Fits.string value).mergeOver rfl lower
  | array items _ => exact fun lower _ => (Fits.array items).mergeOver rfl lower

/-! ### The text of a value that fits -/

theorem fault_of_accept {α : Type} {problem : Option Fault} {rest : Unit → Except Refusal α}
    (hrest : ∀ e, rest () ≠ .error e) {e : Refusal} (h : (accept problem >>= rest) = .error e) :
    ∃ f, e = .fault f := by
  rcases bind_eq_error_iff.mp h with h | ⟨_, -, h⟩
  · cases problem with
    | none => cases h
    | some f => exact ⟨f, by cases h; rfl⟩
  · exact absurd h (hrest e)

mutual

/-- A reader gives a value up only over the text. -/
theorem fault_of_value {depth : Nat} {e : Refusal} : (tree : Tree) →
    tree.value depth = .error e → ∃ f, e = .fault f
  | .null, h | .bool _, h | .number _, h | .string _, h => by cases h
  | .array items, h => by
    rcases bind_eq_error_iff.mp h with h | ⟨_, -, h⟩
    · cases depth with
      | zero => exact ⟨_, by cases h; rfl⟩
      | succ depth => exact fault_of_values items h
    · cases h
  | .object members, h => by
    rcases bind_eq_error_iff.mp h with h | ⟨_, -, h⟩
    · cases depth with
      | zero => exact ⟨_, by cases h; rfl⟩
      | succ depth => exact fault_of_fields members h
    · cases h
  | .broken f _ _, h => ⟨f, by cases h; rfl⟩

theorem fault_of_values {depth : Nat} {e : Refusal} : (items : Items) →
    items.values depth = .error e → ∃ f, e = .fault f
  | .stop how, h => fault_of_accept (fun _ h => by cases h) h
  | .more item rest, h => by
    rcases bind_eq_error_iff.mp h with h | ⟨_, -, h⟩
    · exact fault_of_value item h
    · rcases bind_eq_error_iff.mp h with h | ⟨_, -, h⟩
      · exact fault_of_values rest h
      · cases h

theorem fault_of_fields {depth : Nat} {fields : Fields} {e : Refusal} : (members : Members) →
    members.fields depth fields = .error e → ∃ f, e = .fault f
  | .stop how, h => fault_of_accept (fun _ h => by cases h) h
  | .more (.error f) _ _, h => ⟨f, by cases h; rfl⟩
  | .more (.ok key) tree rest, h => by
    rcases bind_eq_error_iff.mp h with h | ⟨_, -, h⟩
    · exact fault_of_value tree h
    · exact fault_of_fields rest h

end

theorem parseBytes_of_value {bytes : Bytes} {value : Json}
    (h : (readTree bytes).1.value mostDepth = .ok value) :
    parseBytes bytes =
      if endsAfter (readTree bytes).2 then .ok value else .error (.fault .trailingCharacters) := by
  rw [parseBytes, decode, decodeStriking.eq_def]
  simp only [h]

theorem parseBytes_of_refused {bytes : Bytes} (h : (readTree bytes).1.Refused) :
    ∃ e, parseBytes bytes = .error e := by
  rw [parseBytes, decode, decodeStriking.eq_def]
  cases hvalue : (readTree bytes).1.value mostDepth with
  | ok value => exact absurd hvalue (h mostDepth value)
  | error e =>
    obtain ⟨f, rfl⟩ := fault_of_value _ hvalue
    simp only [hvalue]
    exact ⟨_, rfl⟩

theorem rereadItems_cons {item : Json} {rest again : List Json}
    (h : rereadItems (item :: rest) = some again) : ∃ first others, item.reread = some first ∧
      rereadItems rest = some others ∧ again = first :: others := by
  simp only [rereadItems, Option.bind_eq_bind, Option.bind_eq_some_iff, Option.pure_def,
    Option.some.injEq] at h
  obtain ⟨first, hfirst, others, hothers, rfl⟩ := h
  exact ⟨first, others, hfirst, hothers, rfl⟩

theorem rereadMembers_cons {key : String} {value : Json} {rest again : List (String × Json)}
    (h : rereadMembers ((key, value) :: rest) = some again) : ∃ first others,
      value.reread = some first ∧ rereadMembers rest = some others ∧
        again = (key, first) :: others := by
  simp only [rereadMembers, Option.bind_eq_bind, Option.bind_eq_some_iff, Option.pure_def,
    Option.some.injEq] at h
  obtain ⟨first, hfirst, others, hothers, rfl⟩ := h
  exact ⟨first, others, hfirst, hothers, rfl⟩

theorem mem_of_rereadItems {items again : List Json} (h : rereadItems items = some again) :
    ∀ value ∈ again, ∃ item ∈ items, item.reread = some value := by
  induction items generalizing again with
  | nil =>
    cases h
    exact fun _ hv => (nomatch hv)
  | cons item rest ih =>
    obtain ⟨first, others, hfirst, hothers, rfl⟩ := rereadItems_cons h
    intro value hv
    rcases List.mem_cons.mp hv with rfl | hv
    · exact ⟨item, List.mem_cons_self .., hfirst⟩
    · obtain ⟨other, ho, hvalue⟩ := ih hothers value hv
      exact ⟨other, List.mem_cons_of_mem _ ho, hvalue⟩

/-- The keys of an object are read back as they were. -/
theorem mem_of_rereadMembers {members again : List (String × Json)}
    (h : rereadMembers members = some again) :
    again.map Prod.fst = members.map Prod.fst ∧
      ∀ found ∈ again, ∃ member ∈ members, member.2.reread = some found.2 := by
  induction members generalizing again with
  | nil =>
    cases h
    exact ⟨rfl, fun _ hv => (nomatch hv)⟩
  | cons member rest ih =>
    obtain ⟨key, value⟩ := member
    obtain ⟨first, others, hfirst, hothers, rfl⟩ := rereadMembers_cons h
    obtain ⟨hkeys, hvalues⟩ := ih hothers
    refine ⟨by rw [List.map_cons, List.map_cons, hkeys], ?_⟩
    intro found hf
    rcases List.mem_cons.mp hf with rfl | hf
    · exact ⟨(key, value), List.mem_cons_self .., hfirst⟩
    · obtain ⟨other, ho, hvalue⟩ := hvalues found hf
      exact ⟨other, List.mem_cons_of_mem _ ho, hvalue⟩

theorem ascending_of_keys {fields others : Fields} (h : fields.Ascending)
    (keys : others.map Prod.fst = fields.map Prod.fst) : others.Ascending := by
  have hkeys : (fields.map Prod.fst).Pairwise (· < ·) := List.pairwise_map.mpr h
  rw [← keys] at hkeys
  exact List.pairwise_map.mp hkeys

theorem Fits.reread {depth : Nat} {value : Json} (h : Fits depth value) :
    ∀ again, value.reread = some again → Fits depth again := by
  induction h with
  | null => rintro _ ⟨⟩; exact .null
  | bool value => rintro _ ⟨⟩; exact .bool value
  | string value => rintro _ ⟨⟩; exact .string value
  | number n =>
    intro again ha
    obtain ⟨m, -, rfl⟩ := Option.map_eq_some_iff.mp ha
    exact .number m
  | array _ ih =>
    intro again ha
    obtain ⟨items, hitems, rfl⟩ := Option.map_eq_some_iff.mp ha
    refine .array fun value hv => ?_
    obtain ⟨item, hi, hvalue⟩ := mem_of_rereadItems hitems value hv
    exact ih item hi value hvalue
  | object ascending _ ih =>
    intro again ha
    obtain ⟨members, hmembers, rfl⟩ := Option.map_eq_some_iff.mp ha
    obtain ⟨hkeys, hvalues⟩ := mem_of_rereadMembers hmembers
    refine .object (ascending_of_keys ascending hkeys) fun found hf => ?_
    obtain ⟨member, hm, hvalue⟩ := hvalues found hf
    exact ih member hm found.2 hvalue

theorem Reads.parseBytes {bytes : Bytes} {again : Option Json}
    (h : Reads [] again (readTree bytes))
    (fits : ∀ value, again = some value → Fits mostDepth value) :
    (∃ value, again = some value ∧ parseBytes bytes = .ok value) ∨
      again = none ∧ ∃ e, parseBytes bytes = .error e := by
  generalize hreading : readTree bytes = reading at h
  cases h with
  | whole value =>
    have hvalue : (readTree bytes).1.value mostDepth = .ok value := by
      rw [hreading]
      exact (fits value rfl).value_tree
    refine .inl ⟨value, rfl, ?_⟩
    rw [parseBytes_of_value hvalue, hreading]
    rfl
  | refused h =>
    refine .inr ⟨rfl, parseBytes_of_refused ?_⟩
    rw [hreading]
    exact h
  | @cut n b left h =>
    -- A number that stops short is a value, but the bytes behind it are too many.
    have hvalue : (readTree bytes).1.value mostDepth = .ok (.number n) := by
      rw [hreading]
      rfl
    have hends : endsAfter (some (b :: left)) = false := by
      rw [endsAfter, skipBlank_cons (startsValue_of_isNumberByte h).1]
      rfl
    refine .inr ⟨rfl, ?_⟩
    rw [parseBytes_of_value hvalue, hreading, hends]
    exact ⟨_, rfl⟩

/-- The whole text of a value is read as one. -/
theorem reads_print (value : Json) :
    Reads [] value.reread (readTree (Utf8.ofChars value.print)) := by
  have hfuel : 3 * (Utf8.ofChars value.print).length ≤ fuelFor (Utf8.ofChars value.print) := by
    unfold fuelFor
    omega
  have hreads := readValue_print value hfuel (fun _ h => (nomatch h) : EndsNumber [])
  rw [List.append_nil] at hreads
  exact hreads

/-- What comes of the text of a value is the value with its numbers read back. -/
theorem parse_print {value : Json} (fits : Fits mostDepth value) :
    (∃ again, value.reread = some again ∧ parse value.print = .ok again) ∨
      value.reread = none ∧ ∃ e, parse value.print = .error e :=
  (reads_print value).parseBytes fits.reread

/-! ### The numbers in a value -/

def Num.isNatural : Num → Bool
  | .natural _ => true
  | .negative _ | .float _ => false

mutual

def numbers : Json → List Num
  | .number n => [n]
  | .array items => numbersOfItems items
  | .object members => numbersOfMembers members
  | _ => []

def numbersOfItems : List Json → List Num
  | [] => []
  | item :: rest => numbers item ++ numbersOfItems rest

def numbersOfMembers : List (String × Json) → List Num
  | [] => []
  | (_, value) :: rest => numbers value ++ numbersOfMembers rest

end

mutual

theorem reread_eq_self_iff : (value : Json) →
    (value.reread = some value ↔ ∀ n ∈ value.numbers, n.reread = some n)
  | .null | .bool _ | .string _ => by simp [reread, numbers]
  | .number n => by simp [reread, numbers]
  | .array items => by
    rw [reread, numbers, ← rereadItems_eq_self_iff items]
    simp
  | .object members => by
    rw [reread, numbers, ← rereadMembers_eq_self_iff members]
    simp

theorem rereadItems_eq_self_iff : (items : List Json) →
    (rereadItems items = some items ↔ ∀ n ∈ numbersOfItems items, n.reread = some n)
  | [] => by simp [rereadItems, numbersOfItems]
  | item :: rest => by
    rw [rereadItems, numbersOfItems, List.forall_mem_append, ← reread_eq_self_iff item,
      ← rereadItems_eq_self_iff rest]
    cases item.reread <;> cases rereadItems rest <;> simp

theorem rereadMembers_eq_self_iff : (members : List (String × Json)) →
    (rereadMembers members = some members ↔ ∀ n ∈ numbersOfMembers members, n.reread = some n)
  | [] => by simp [rereadMembers, numbersOfMembers]
  | (key, value) :: rest => by
    rw [rereadMembers, numbersOfMembers, List.forall_mem_append, ← reread_eq_self_iff value,
      ← rereadMembers_eq_self_iff rest]
    cases value.reread <;> cases rereadMembers rest <;> simp

end

/-- A value is read back as it was exactly if its numbers are. -/
theorem parse_print_iff_reread {value : Json} (fits : Fits mostDepth value) :
    parse value.print = .ok value ↔ value.reread = some value := by
  rcases parse_print fits with ⟨again, hreread, hparse⟩ | ⟨hnone, e, hparse⟩
  · rw [hreread, hparse, Except.ok.injEq, Option.some.injEq]
  · rw [hnone, hparse]
    exact ⟨fun h => (nomatch h), fun h => (nomatch h)⟩

theorem reread_number_iff (n : Num) :
    n.reread = some n ↔ parse n.print = .ok (.number n) := by
  have h := parse_print_iff_reread (.number n : Fits mostDepth (.number n))
  rw [print] at h
  rw [h, reread_eq_self_iff, numbers, List.forall_mem_singleton]

/-- **The text of a value is read back as the value exactly if each floating point number in it
is.** -/
theorem parse_print_eq_ok_iff {value : Json} (fits : Fits mostDepth value) :
    parse value.print = .ok value ↔
      ∀ d, .float d ∈ value.numbers → parse d.write = .ok (.number (.float d)) := by
  rw [parse_print_iff_reread fits, reread_eq_self_iff]
  constructor
  · intro h d hd
    exact (reread_number_iff (.float d)).mp (h _ hd)
  · intro h n hn
    cases n with
    | natural value => exact reread_natural value
    | negative below => exact reread_negative below
    | float d => exact (reread_number_iff (.float d)).mpr (h d hn)

end Provision.Json
