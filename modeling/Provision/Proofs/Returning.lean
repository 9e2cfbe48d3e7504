import Mathlib.Data.List.Perm.Basic
import Provision.Genesis.Block
import Provision.Proofs.Hexadecimal
import Provision.Proofs.Reloading

/-! A printed document, read back.

What a type writes holds no lists and no numbers but natural ones, `Json.Written`, so none of it
is lost in print. A type is read back if the types in it are: `Codec.Returns` has a lemma for
each way of making types, and for records it asks in addition that a field which is left out is
one that reading fills in with the same value. So every genesis is read back from its own text,
`ParsedGenesis.parse_print`. The order of the maps is all that is asked for, and a genesis that
has been read has it, `Genesis.ordered_of_parse`. -/
namespace Provision

/-! ### Words in order -/

namespace Fixed

variable {size : Nat}

instance : LE (Fixed size) where
  le a b := a.bytes ≤ b.bytes

instance : Std.IsLinearOrder (Fixed size) where
  le_refl a := Std.le_refl a.bytes
  le_trans a _ _ h h' := Std.le_trans (a := a.bytes) h h'
  le_antisymm _ _ h h' := Fixed.ext (Std.le_antisymm h h')
  le_total a _ := Std.le_total (a := a.bytes)

instance : Std.LawfulOrderLT (Fixed size) where
  lt_iff a b := Std.LawfulOrderLT.lt_iff a.bytes b.bytes

end Fixed

namespace Json

/-! ### What is written -/

/-- A value without lists, with natural numbers only, nested no deeper than this. -/
inductive Written : Nat → Json → Prop
  | null {depth : Nat} : Written depth .null
  | bool {depth : Nat} (value : Bool) : Written depth (.bool value)
  | natural {depth : Nat} (value : UInt64) : Written depth (.natural value)
  | string {depth : Nat} (value : String) : Written depth (.string value)
  | object {depth : Nat} {members : List (String × Json)} :
    (∀ member ∈ members, Written depth member.2) → Written (depth + 1) (.object members)

theorem rereadMembers_eq_self {members : List (String × Json)}
    (h : ∀ member ∈ members, member.2.reread = some member.2) :
    rereadMembers members = some members := by
  induction members with
  | nil => rfl
  | cons member rest ih =>
    obtain ⟨key, value⟩ := member
    have hvalue : value.reread = some value := h (key, value) (List.mem_cons_self ..)
    rw [rereadMembers, hvalue, ih fun other ho => h other (List.mem_cons_of_mem _ ho)]
    rfl

/-- Nothing of it changes in print. -/
theorem Written.reread_eq {depth : Nat} {value : Json} (h : Written depth value) :
    value.reread = some value := by
  induction h with
  | null => rfl
  | bool => rfl
  | natural value => exact congrArg (Option.map Json.number) (reread_natural value)
  | string => rfl
  | object _ ih => exact congrArg (Option.map Json.object) (rereadMembers_eq_self ih)

theorem fields_treeMembers_sorted {depth : Nat} {members : List (String × Json)} {fields : Fields}
    (h : ∀ member ∈ members, member.2.tree.value depth = .ok member.2.sorted) :
    (treeMembers members).fields depth fields = .ok (sortedMembers members fields) := by
  induction members generalizing fields with
  | nil => rfl
  | cons member rest ih =>
    obtain ⟨key, value⟩ := member
    rw [treeMembers, Members.fields, h (key, value) (List.mem_cons_self ..)]
    exact ih fun other ho => h other (List.mem_cons_of_mem _ ho)

/-- As a value of any shape it is taken in as it is, but for the order of the keys. -/
theorem Written.value_tree {depth : Nat} {value : Json} (h : Written depth value) :
    value.tree.value depth = .ok value.sorted := by
  induction h with
  | null => rfl
  | bool => rfl
  | natural => rfl
  | string => rfl
  | object _ ih => exact bind_eq_ok_iff.mpr ⟨_, fields_treeMembers_sorted ih, rfl⟩

/-- What a type writes for a value is read back as the value, with this much room for nesting. -/
structure Codec.Returns {α : Type} (codec : Codec α) (room : Nat) (value : α) : Prop where
  written : Written room (codec.write value)
  read : ∀ depth, room ≤ depth → codec.read depth (codec.write value).tree = .ok value

variable {room : Nat}

/-! ### Plain types -/

theorem Codec.uint64_returns (value : UInt64) : Codec.uint64.Returns room value where
  written := .natural value
  read _ _ := by
    have hnatural : (Json.natural value).tree.natural UInt64.size "u64" = .ok value.toNat :=
      if_pos value.toNat_lt
    exact map_eq_ok_iff.mpr ⟨_, hnatural, UInt64.ofNat_toNat⟩

theorem Codec.bool_returns (value : Bool) : Codec.bool.Returns room value where
  written := .bool value
  read _ _ := rfl

theorem Codec.Returns.optional {α : Type} {codec : Codec α} {value : Option α}
    (h : ∀ content, value = some content → codec.Returns room content)
    (full : ∀ content, codec.write content ≠ .null) : codec.optional.Returns room value := by
  cases value with
  | none => exact ⟨.null, fun _ _ => rfl⟩
  | some content =>
    obtain ⟨hwritten, hread⟩ := h content rfl
    refine ⟨hwritten, fun depth hroom => ?_⟩
    have hread := hread depth hroom
    have hfull := full content
    have hwrite : codec.optional.write (some content) = codec.write content := rfl
    rw [hwrite]
    generalize codec.write content = written at hread hfull
    cases written with
    | null => exact absurd rfl hfull
    | _ => exact map_eq_ok_iff.mpr ⟨content, hread, rfl⟩

end Json

open Json

variable {room : Nat}

theorem Bytes.returns (bytes : Bytes) : codec.Returns room bytes where
  written := .string _
  read depth _ := by
    show codec.read depth (.string (String.ofList (Hex.encode bytes))) = _
    simp only [codec, String.toList_ofList, Hex.decode?_encode]

theorem Fixed.returns {size : Nat} (word : Fixed size) : codec.Returns room word where
  written := .string _
  read _ _ := ofText_toText word

theorem UInt256.returns (value : UInt256) : codec.Returns room value where
  written := .string _
  read depth _ := by
    show codec.read depth (.string (String.ofList (print value))) = _
    simp only [codec, String.toList_ofList, parse?_print]

theorem Quantity.returns (value : UInt64) : codec.Returns room value where
  written := .string _
  read depth _ := by
    show read (.string (String.ofList (print value))) = _
    simp only [read, String.toList_ofList, parse_print]

/-! ### Maps -/

namespace Json

variable {κ υ : Type} {readKey : String → Except Refusal κ} {writeKey : κ → String}

/-- Keys and values one by one. -/
theorem pairs_treeMembers {codec : Codec υ} {depth : Nat}
    (keys : ∀ key, readKey (writeKey key) = .ok key) {map : List (κ × υ)}
    (h : ∀ entry ∈ map, codec.read depth (codec.write entry.2).tree = .ok entry.2) :
    (treeMembers (map.map fun entry => (writeKey entry.1, codec.write entry.2))).pairs readKey
      (codec.read depth) = .ok map := by
  induction map with
  | nil => rfl
  | cons entry rest ih =>
    obtain ⟨key, value⟩ := entry
    have hvalue : codec.read depth (codec.write value).tree = .ok value :=
      h (key, value) (List.mem_cons_self ..)
    have hrest := ih fun other ho => h other (List.mem_cons_of_mem _ ho)
    rw [List.map_cons, treeMembers, Members.pairs, keys]
    exact bind_eq_ok_iff.mpr ⟨key, rfl, bind_eq_ok_iff.mpr ⟨value, hvalue,
      bind_eq_ok_iff.mpr ⟨rest, hrest, rfl⟩⟩⟩

variable [LT κ] [DecidableLT κ] [DecidableEq κ] [LE κ] [Std.IsLinearOrder κ]
  [Std.LawfulOrderLT κ]

theorem Codec.Returns.dictionary {codec : Codec υ} {map : Dictionary κ υ}
    (keys : ∀ key, readKey (writeKey key) = .ok key) (ascending : map.Ascending)
    (h : ∀ entry ∈ map, codec.Returns room entry.2) :
    (Codec.dictionary readKey writeKey codec).Returns (room + 1) map where
  written := by
    refine .object fun member hm => ?_
    obtain ⟨entry, he, rfl⟩ := List.mem_map.mp hm
    exact (h entry he).written
  read depth hroom := by
    obtain ⟨depth, rfl⟩ := Nat.exists_eq_succ_of_ne_zero (Nat.ne_zero_of_lt hroom)
    have hpairs := pairs_treeMembers keys fun entry he =>
      (h entry he).read depth (Nat.le_of_succ_le_succ hroom)
    exact bind_eq_ok_iff.mpr
      ⟨map, hpairs, congrArg Except.ok (Dictionary.ofList_of_perm ascending (.refl map))⟩

end Json

namespace Storage

/-- The entries in the spelling that is written. -/
def spell (entries : List (Word × Word)) : List (String × String) :=
  entries.map fun entry => (entry.1.toText, entry.2.toText)

/-- Spelled entries are entered as what they spell. -/
theorem enter_spell (entries : List (Word × Word)) (storage : Storage) :
    storage.enter (spell entries) = .ok (storage.insertAll entries) := by
  induction entries generalizing storage with
  | nil => rfl
  | cons entry rest ih =>
    obtain ⟨slot, word⟩ := entry
    have hcons : spell ((slot, word) :: rest) = (slot.toText, word.toText) :: spell rest := rfl
    rw [hcons, enter, readWord_toText, readWord_toText]
    exact ih (storage.insert slot word)

/-- Spelled entries come in an order of their own. Since no slot is spelled twice it makes no
difference. -/
theorem ofSpelled_spell {storage : Storage} (ascending : storage.Ascending) :
    ofSpelled (Dictionary.ofList (spell storage)) = .ok storage := by
  have hkeys : (spell storage).map Prod.fst = (storage.map Prod.fst).map Fixed.toText := by
    rw [spell, List.map_map, List.map_map]
    rfl
  have hdistinct : ((spell storage).map Prod.fst).Nodup := by
    rw [hkeys]
    exact ascending.nodup.map Fixed.toText_injective
  have hperm : (Dictionary.ofList (spell storage)).Perm (spell storage) :=
    Dictionary.ofList_perm hdistinct
  obtain ⟨entries, hspelled, hentries⟩ : ∃ entries : List (Word × Word),
      Dictionary.ofList (spell storage) = spell entries ∧ entries.Perm storage :=
    (congrFun (congrFun (List.eq_map_comp_perm _) _) _).mpr hperm
  rw [ofSpelled, hspelled, enter_spell]
  exact congrArg Except.ok (Dictionary.ofList_of_perm ascending hentries)

theorem returns {storage : Storage} (ascending : storage.Ascending) :
    codec.Returns (room + 1) storage where
  written := by
    refine .object fun member hm => ?_
    obtain ⟨entry, -, rfl⟩ := List.mem_map.mp hm
    exact .string _
  read depth hroom := by
    obtain ⟨depth, rfl⟩ := Nat.exists_eq_succ_of_ne_zero (Nat.ne_zero_of_lt hroom)
    have hwrite : codec.write storage = .object ((spell storage).map fun entry =>
        (id entry.1, Codec.string.write entry.2)) := by
      rw [spell, List.map_map]
      rfl
    have hpairs : (treeMembers ((spell storage).map fun entry =>
        (id entry.1, Codec.string.write entry.2))).pairs .ok (Codec.string.read depth) =
          .ok (spell storage) :=
      pairs_treeMembers (fun _ => rfl) fun _ _ => rfl
    rw [hwrite]
    exact bind_eq_ok_iff.mpr ⟨Dictionary.ofList (spell storage),
      bind_eq_ok_iff.mpr ⟨_, hpairs, rfl⟩, ofSpelled_spell ascending⟩

end Storage

/-! ### Records -/

namespace Json.Record

variable {σ : Type} {record : Record σ} {value : σ}

/-- What is found under the name of a field in what a record writes. -/
theorem find?_trees_members (lawful : record.Lawful) {field : RecordField σ}
    (h : field ∈ record.fields) :
    Dictionary.find? field.name (trees (record.members value)) =
      if field.omitted (field.get value) then none
      else some (field.codec.write (field.get value)).tree := by
  rw [find?_trees, find?_members lawful, lawful.find?_name h, Option.bind_some,
    RecordField.member?]
  split <;> rfl

/-- A field that is left out has to be as in the blank record. -/
theorem returns (lawful : record.Lawful)
    (h : ∀ field ∈ record.fields, field.codec.Returns room (field.get value))
    (omitted : ∀ field ∈ record.fields, field.omitted (field.get value) = true →
      field.presence ≠ .required ∧ field.get value = field.get record.blank) :
    record.codec.Returns (room + 1) value where
  written := by
    refine .object fun member hm => ?_
    obtain ⟨field, hfield, hmember⟩ := mem_members_iff.mp hm
    rw [RecordField.member?] at hmember
    split at hmember
    · cases hmember
    · cases hmember
      exact (h field hfield).written
  read depth hroom := by
    obtain ⟨depth, rfl⟩ := Nat.exists_eq_succ_of_ne_zero (Nat.ne_zero_of_lt hroom)
    have hdistinct : ((trees (record.members value)).map Prod.fst).Nodup := by
      rw [trees_keys]
      exact nodup_members lawful value
    have hholds : record.Holds depth (Dictionary.find? · (trees (record.members value)))
        value := by
      refine ⟨fun field hfield tree hfound => ?_, fun field hfield hfound => ?_⟩
      · rw [find?_trees_members lawful hfield] at hfound
        split at hfound
        · cases hfound
        · cases hfound
          exact (h field hfield).read depth (Nat.le_of_succ_le_succ hroom)
      · rw [find?_trees_members lawful hfield] at hfound
        split at hfound
        · next homitted => exact omitted field hfield homitted
        · cases hfound
    have htree : (record.codec.write value).tree =
        .object (.ofList (trees (record.members value))) := by
      rw [← treeMembers_eq]
      rfl
    rw [htree]
    exact readObject_of_holds lawful hdistinct hholds (trees_pass _)

end Json.Record

/-! ### The chain configuration -/

/-- A field with a value that is left out exactly if it is absent. -/
theorem omitted_none {α : Type} {presence : Presence} (h : presence ≠ .required)
    {value : Option α} (hnone : value.isNone = true) : presence ≠ .required ∧ value = none :=
  ⟨h, Option.isNone_iff_eq_none.mp hnone⟩

/-- A field that is never left out. -/
theorem omitted_never {P : Prop} (h : false = true) : P :=
  absurd h Bool.false_ne_true

theorem EthashConfig.returns (config : EthashConfig) : codec.Returns (room + 1) config :=
  Record.returns lawful (List.forall_mem_nil _) (List.forall_mem_nil _)

theorem CliqueConfig.returns (config : CliqueConfig) : codec.Returns (room + 1) config := by
  refine Record.returns lawful ?_ ?_ <;> simp only [record, List.forall_mem_cons]
  · exact ⟨Codec.uint64_returns _, Codec.uint64_returns _, List.forall_mem_nil _⟩
  · exact ⟨omitted_never, omitted_never, List.forall_mem_nil _⟩

theorem IstanbulConfig.returns (config : IstanbulConfig) : codec.Returns (room + 1) config := by
  refine Record.returns lawful ?_ ?_ <;> simp only [record, List.forall_mem_cons]
  · exact ⟨Codec.uint64_returns _, Codec.uint64_returns _,
      .optional (fun _ _ => Codec.uint64_returns _) (fun _ h => Json.noConfusion h),
      List.forall_mem_nil _⟩
  · exact ⟨omitted_never, omitted_never, omitted_none (by decide), List.forall_mem_nil _⟩

theorem ChainConfig.returns (config : ChainConfig) : codec.Returns (room + 2) config := by
  have hblock : ∀ value, Codec.uint64.optional.Returns (room + 1) value := fun _ =>
    .optional (fun _ _ => Codec.uint64_returns _) fun _ h => Json.noConfusion h
  have hnone : ∀ {α : Type} {value : Option α}, value.isNone = true →
      Presence.optional ≠ .required ∧ value = none := omitted_none (by decide)
  have hoff : ∀ {value : Bool}, (!value) = true →
      Presence.defaulted ≠ .required ∧ value = false := fun h => ⟨by decide, by simpa using h⟩
  refine Record.returns lawful ?_ ?_ <;> simp only [record, List.forall_mem_cons]
  · exact ⟨hblock _, hblock _, hblock _, Codec.bool_returns _, hblock _,
      .optional (fun _ _ => Fixed.returns _) (fun _ h => Json.noConfusion h), hblock _, hblock _,
      hblock _, hblock _, hblock _, hblock _, hblock _, hblock _, hblock _,
      .optional (fun _ _ => EthashConfig.returns _) (fun _ h => Json.noConfusion h),
      .optional (fun _ _ => CliqueConfig.returns _) (fun _ h => Json.noConfusion h),
      .optional (fun _ _ => IstanbulConfig.returns _) (fun _ h => Json.noConfusion h),
      Codec.bool_returns _, hblock _, List.forall_mem_nil _⟩
  · exact ⟨hnone, hnone, hnone, hoff, hnone, hnone, hnone, hnone, hnone, hnone, hnone, hnone,
      hnone, hnone, hnone, hnone, hnone, hnone, hoff, hnone, List.forall_mem_nil _⟩

/-! ### The document -/

theorem Account.lawful : Account.record.Lawful where
  names := by decide
  get_set := by
    simp only [Account.record, List.forall_mem_cons]
    exact ⟨fun _ _ => rfl, fun _ _ => rfl, fun _ _ => trivial, fun _ _ => rfl,
      List.forall_mem_nil _⟩
  apart := by
    simp only [Account.record, List.pairwise_cons, List.forall_mem_cons]
    repeat' apply And.intro
    all_goals first | exact fun _ _ => rfl | exact List.forall_mem_nil _ | exact .nil
  ext := by
    rintro ⟨⟩ ⟨⟩ h
    simp only [Account.record, List.forall_mem_cons, RecordField.defaulted,
      RecordField.optional, RecordField.withDefault, RecordField.omitting] at h
    simp [h]

theorem Account.returns {account : Account} (ascending : account.storage.Ascending) :
    codec.Returns (room + 2) account := by
  refine Record.returns lawful ?_ ?_ <;> simp only [record, List.forall_mem_cons]
  · exact ⟨.optional (fun _ _ => Bytes.returns _) (fun _ h => Json.noConfusion h),
      Storage.returns ascending, UInt256.returns _, Quantity.returns _, List.forall_mem_nil _⟩
  · exact ⟨omitted_none (by decide), fun h => ⟨by decide, List.isEmpty_iff.mp h⟩,
      omitted_never, omitted_never, List.forall_mem_nil _⟩

/-- The maps of a document are in order. -/
structure Genesis.Ordered (genesis : Genesis) : Prop where
  alloc : genesis.alloc.Ascending
  storage : ∀ entry ∈ genesis.alloc, entry.2.storage.Ascending

theorem Genesis.returns {genesis : Genesis} (ordered : genesis.Ordered) :
    codec.Returns (room + 4) genesis := by
  have hnone : ∀ {α : Type} {value : Option α}, value.isNone = true →
      Presence.defaulted ≠ .required ∧ value = none := omitted_none (by decide)
  refine Record.returns lawful ?_ ?_ <;> simp only [record, List.forall_mem_cons]
  · exact ⟨.optional (fun _ _ => ChainConfig.returns _) (fun _ h => Json.noConfusion h),
      Quantity.returns _, Quantity.returns _, Bytes.returns _, Quantity.returns _,
      .optional (fun _ _ => UInt256.returns _) (fun _ h => Json.noConfusion h), Fixed.returns _,
      Fixed.returns _, .dictionary Fixed.ofText_toText ordered.alloc fun entry he =>
        Account.returns (ordered.storage entry he), Quantity.returns _, Quantity.returns _,
      Fixed.returns _, .optional (fun _ _ => Quantity.returns _) (fun _ h => Json.noConfusion h),
      List.forall_mem_nil _⟩
  · exact ⟨hnone, omitted_never, omitted_never, omitted_never, omitted_never, hnone, omitted_never,
      omitted_never, omitted_never, omitted_never, omitted_never, omitted_never, hnone,
      List.forall_mem_nil _⟩

/-! ### What has been read is in order -/

namespace Json

/-- Each field of a record that has been read comes of some tree, or is as in the blank record. -/
theorem Record.field_of_read {σ : Type} {record : Record σ} (lawful : record.Lawful)
    {depth : Nat} {tree : Tree} {value : σ} (h : record.read depth tree = .ok value)
    {field : RecordField σ} (hfield : field ∈ record.fields) :
    (∃ depth source, field.codec.read depth source = .ok (field.get value)) ∨
      field.get value = field.get record.blank := by
  cases depth with
  | zero => cases tree <;> cases h
  | succ depth =>
    refine Record.read_invariant (P := fun value =>
      (∃ depth source, field.codec.read depth source = .ok (field.get value)) ∨
        field.get value = field.get record.blank) ?_ (.inr rfl) h
    intro other hother source value after hvalue hread
    obtain ⟨content, hcontent, ⟨⟩⟩ := bind_eq_ok_iff.mp hread
    by_cases hname : other.name = field.name
    · obtain rfl : other = field := lawful.eq_of_name hother hfield hname
      rw [lawful.get_set _ hother]
      exact .inl ⟨depth, source, hcontent⟩
    · rw [lawful.get_set_other hother hfield hname]
      exact hvalue

theorem Tree.dictionary_eq_ok {κ υ : Type} [LT κ] [DecidableLT κ] [DecidableEq κ] [LE κ]
    [Std.IsLinearOrder κ] [Std.LawfulOrderLT κ] {key : String → Except Refusal κ}
    {value : Decoder υ} {depth : Nat} {tree : Tree} {map : Dictionary κ υ}
    (h : tree.dictionary key value depth = .ok map) :
    map.Ascending ∧ ∀ entry ∈ map, ∃ depth source, value depth source = .ok entry.2 := by
  cases tree with
  | object members =>
    obtain ⟨pairs, hpairs, ⟨⟩⟩ := bind_eq_ok_iff.mp h
    obtain ⟨less, -, hpairs⟩ := deeper_eq_ok_iff.mp hpairs
    refine ⟨Dictionary.Ascending.insertAll .nil pairs, fun entry he => ?_⟩
    obtain ⟨rows, -, rfl, hrows⟩ := Members.pairs_eq_ok members hpairs
    rcases Dictionary.mem_of_mem_insertAll he with he | he
    · obtain ⟨row, hrow, rfl⟩ := List.mem_map.mp he
      exact ⟨less, row.1.2, (hrows row hrow).2⟩
    · cases he
  | _ => cases h

end Json

theorem Storage.ascending_of_enter (spelled : List (String × String)) {storage result : Storage}
    (h : storage.enter spelled = .ok result) (ascending : storage.Ascending) :
    result.Ascending := by
  induction spelled generalizing storage with
  | nil =>
    cases h
    exact ascending
  | cons entry rest ih =>
    obtain ⟨slot, -, h⟩ := bind_eq_ok_iff.mp h
    obtain ⟨word, -, h⟩ := bind_eq_ok_iff.mp h
    exact ih h (ascending.insert slot word)

theorem Account.ascending_of_read {depth : Nat} {tree : Tree} {account : Account}
    (h : codec.read depth tree = .ok account) : account.storage.Ascending := by
  have hfield := Record.field_of_read lawful h (List.mem_cons_of_mem _ (List.mem_cons_self ..))
  rcases hfield with ⟨_, source, hread⟩ | hblank
  · obtain ⟨spelled, -, hentered⟩ := bind_eq_ok_iff.mp hread
    exact Storage.ascending_of_enter spelled hentered .nil
  · have hempty : account.storage = [] := hblank
    rw [hempty]
    exact .nil

theorem Genesis.ordered_of_read {depth : Nat} {tree : Tree} {genesis : Genesis}
    (h : codec.read depth tree = .ok genesis) : genesis.Ordered := by
  have hmem : RecordField.defaulted "alloc" Alloc.codec (·.alloc)
      (fun v g => { g with alloc := v }) ∈ record.fields := by
    simp [record]
  rcases Record.field_of_read lawful h hmem with ⟨_, source, hread⟩ | hblank
  · obtain ⟨hascending, haccounts⟩ := Tree.dictionary_eq_ok hread
    refine ⟨hascending, fun entry he => ?_⟩
    obtain ⟨_, source, haccount⟩ := haccounts entry he
    exact Account.ascending_of_read haccount
  · have hempty : genesis.alloc = [] := hblank
    constructor <;> rw [hempty]
    · exact .nil
    · exact List.forall_mem_nil _

theorem ParsedGenesis.ordered {text : List Char} {parsed : ParsedGenesis}
    (h : ParsedGenesis.parse text = .ok parsed) : parsed.genesis.Ordered := by
  obtain ⟨genesis, hgenesis, h⟩ := bind_eq_ok_iff.mp h
  obtain ⟨raw, -, ⟨⟩⟩ := bind_eq_ok_iff.mp h
  obtain ⟨tree, htree⟩ := decodeStriking_eq_ok _ hgenesis
  exact Genesis.ordered_of_read htree

/-! ### The text of a document -/

/-- A configuration that is taken as it stands is taken as the map that is written. -/
theorem ChainConfig.read_fields (config : ChainConfig) (depth : Nat) :
    Codec.fields.optional.read (depth + 2) (codec.write config).tree =
      .ok (some config.fields) := by
  have hwritten : Written (depth + 2) (codec.write config) := (returns config).written
  have hvalue : (codec.write config).tree.value (depth + 2) =
      .ok (.object (sortedMembers config.members [])) := hwritten.value_tree
  obtain ⟨fields, hfields, ⟨⟩⟩ := bind_eq_ok_iff.mp hvalue
  exact map_eq_ok_iff.mpr ⟨_, hfields, rfl⟩

theorem RawConfig.read_written (genesis : Genesis) (depth : Nat) :
    record.read (depth + 3) (Genesis.codec.write genesis).tree =
      .ok ⟨genesis.config.map ChainConfig.fields⟩ := by
  have hdistinct : ((trees (Genesis.record.members genesis)).map Prod.fst).Nodup := by
    rw [trees_keys]
    exact Record.nodup_members Genesis.lawful genesis
  have hfind : Dictionary.find? "config" (trees (Genesis.record.members genesis)) =
      if genesis.config.isNone then none
      else some (ChainConfig.codec.optional.write genesis.config).tree :=
    Record.find?_trees_members Genesis.lawful (List.mem_cons_self ..)
  have hholds : record.Holds (depth + 2)
      (Dictionary.find? · (trees (Genesis.record.members genesis)))
      ⟨genesis.config.map ChainConfig.fields⟩ := by
    refine ⟨List.forall_mem_singleton.mpr fun tree hfound => ?_,
      List.forall_mem_singleton.mpr fun hfound => ?_⟩
    · replace hfound := hfind.symm.trans hfound
      cases hconfig : genesis.config with
      | none =>
        rw [hconfig] at hfound
        cases hfound
      | some config =>
        rw [hconfig] at hfound
        cases hfound
        exact config.read_fields depth
    · replace hfound := hfind.symm.trans hfound
      cases hconfig : genesis.config with
      | none => exact ⟨by decide, rfl⟩
      | some config =>
        rw [hconfig] at hfound
        cases hfound
  have htree : (Genesis.codec.write genesis).tree =
      .object (.ofList (trees (Genesis.record.members genesis))) := by
    rw [← treeMembers_eq]
    rfl
  rw [htree]
  exact Record.readObject_of_holds lawful hdistinct hholds (Record.trees_pass _)

/-- The text of a configuration, read as a value of any shape. -/
theorem ChainConfig.parse_print_fields (config : ChainConfig) :
    Json.parse config.print = .ok (.object config.fields) := by
  have hreturns : codec.Returns (125 + 2) config := returns config
  let any : Codec Json := ⟨Tree.value, id⟩
  have hread : any.parse config.print = .ok (codec.write config).sorted :=
    Codec.parse_print hreturns.written.reread_eq hreturns.written.value_tree
  exact hread

theorem Genesis.parse_print {genesis : Genesis} (ordered : genesis.Ordered) :
    ParsedGenesis.parse genesis.print =
      .ok ⟨genesis, (genesis.config.map ChainConfig.fields).getD []⟩ := by
  have hreturns : codec.Returns 4 genesis := returns ordered
  have hreread := hreturns.written.reread_eq
  have hgenesis : codec.parse genesis.print = .ok genesis :=
    Codec.parse_print hreread (hreturns.read mostDepth (by decide))
  have hraw : RawConfig.record.codec.parse genesis.print =
      .ok ⟨genesis.config.map ChainConfig.fields⟩ :=
    Codec.parse_print hreread (RawConfig.read_written genesis 124)
  exact bind_eq_ok_iff.mpr ⟨genesis, hgenesis, bind_eq_ok_iff.mpr ⟨_, hraw, rfl⟩⟩

/-- A document that has been read back from its own text: the document as it was, and of its
configuration the object that the text of the configuration is. -/
structure ParsedGenesis.Restores (genesis : Genesis) (again : ParsedGenesis) : Prop where
  document : again.genesis = genesis
  configuration : match genesis.config with
    | none => again.override = []
    | some config => Json.parse config.print = .ok (.object again.override)

theorem Genesis.restores {genesis : Genesis} (ordered : genesis.Ordered) :
    ∃ again, ParsedGenesis.parse genesis.print = .ok again ∧
      ParsedGenesis.Restores genesis again := by
  refine ⟨_, parse_print ordered, rfl, ?_⟩
  split
  · next hconfig =>
    rw [hconfig]
    rfl
  · next config hconfig =>
    rw [hconfig]
    exact config.parse_print_fields

/-- **Reading undoes printing.** Of every genesis with its maps in order, and of every genesis that
has been read. -/
theorem ParsedGenesis.parse_genesis_print :
    (∀ genesis : Genesis, genesis.Ordered → ∃ again, parse genesis.print = .ok again ∧
      Restores genesis again) ∧
    ∀ text parsed, parse text = .ok parsed → ∃ again, parse parsed.genesis.print = .ok again ∧
      Restores parsed.genesis again ∧ again.genesis.header = parsed.genesis.header ∧
        again.genesis.hash = parsed.genesis.hash := by
  refine ⟨fun genesis ordered => Genesis.restores ordered, fun text parsed h => ?_⟩
  obtain ⟨again, hagain, hrestores⟩ := Genesis.restores (ordered h)
  refine ⟨again, hagain, hrestores, ?_, ?_⟩ <;> rw [hrestores.document]

/-- Two accounts, one with code and storage, and a configuration with sections. -/
def spelledGenesis : Genesis where
  config := some
    { chainId := some 7
      daoForkSupport := true
      clique := some {}
      istanbul := some { ceil2Nby3Block := some 0 } }
  alloc := [(Fixed.zero, { balance := 1 }),
    (.ofNat 5, { code := some [], storage := [(Fixed.zero, .ofNat 3), (.ofNat 1, Fixed.zero)] })]
  difficulty := some 0

/-- A document with a number in decimal, a word that is filled up and a member that is passed
over. -/
def spelledDocument : List Char :=
  ("\x7b\"nonce\":\"42\",\"config\":\x7b\"chainId\":7,\"rate\":2.5\x7d,\"alloc\":\x7b" ++
    "\"0000000000000000000000000000000000000000\":\x7b\"balance\":9,\"storage\":\x7b" ++
    "\"0x1\":\"2\"\x7d\x7d\x7d\x7d").toList

theorem ParsedGenesis.parse_genesis_print_spelled :
    spelledGenesis.Ordered ∧ (∃ again, parse spelledGenesis.print = .ok again ∧
      Restores spelledGenesis again) ∧
    ∃ parsed, parse spelledDocument = .ok parsed ∧ ∃ again,
      parse parsed.genesis.print = .ok again ∧ again.genesis.hash = parsed.genesis.hash := by
  have hordered : spelledGenesis.Ordered := by
    constructor <;> simp only [Dictionary.Ascending] <;> decide +kernel
  have hok : (parse spelledDocument).isOk = true := by decide +kernel
  obtain ⟨parsed, hparse⟩ := exists_ok_of_isOk hok
  obtain ⟨hprinted, hread⟩ := parse_genesis_print
  obtain ⟨again, hagain, -, -, hhash⟩ := hread spelledDocument parsed hparse
  exact ⟨hordered, hprinted spelledGenesis hordered, parsed, hparse, again, hagain, hhash⟩

end Provision
