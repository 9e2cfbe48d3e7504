import Provision.Genesis.ChainConfig
import Provision.Proofs.Fieldwise
import Provision.Proofs.Nesting

/-! What a type makes of a value that has been read before.

A text can be read as a value of any shape first, and the type be made of that value afterwards.
A decoder that gives the same both ways is faithful. Records are, if their fields are: a value
keeps the last of the members with a name, and a record allows one only, `Record.faithful`.
So the whole chain configuration is, `ChainConfig.faithful`. -/
namespace Provision.Json

/-- What comes of a tree also comes of the value that is read from it, at the same depth or
where there is more room. -/
def Decoder.Faithful {α : Type} (decoder : Decoder α) : Prop :=
  ∀ {tree : Tree} {value : Json} {depth within more : Nat} {result : α},
    tree.value within = .ok value → decoder depth tree = .ok result → depth ≤ more →
      decoder more value.tree = .ok result

/-! ### The tree of a value -/

mutual

theorem pass_tree : (value : Json) → value.tree.pass = .ok ()
  | .null | .bool _ | .number _ | .string _ => rfl
  | .array items => pass_treeItems items
  | .object members => pass_treeMembers members

theorem pass_treeItems : (items : List Json) → (treeItems items).pass = .ok ()
  | [] => rfl
  | item :: rest => bind_eq_ok_iff.mpr ⟨(), pass_tree item, pass_treeItems rest⟩

theorem pass_treeMembers : (members : List (String × Json)) → (treeMembers members).pass = .ok ()
  | [] => rfl
  | (_, value) :: rest => bind_eq_ok_iff.mpr ⟨(), pass_tree value, pass_treeMembers rest⟩

end

/-- The members of an object as they stand in its tree. -/
def trees (members : List (String × Json)) : List (String × Tree) :=
  members.map fun member => (member.1, member.2.tree)

theorem treeMembers_eq (members : List (String × Json)) :
    treeMembers members = .ofList (trees members) := by
  induction members with
  | nil => rfl
  | cons member rest ih =>
    obtain ⟨key, value⟩ := member
    rw [treeMembers, ih]
    rfl

theorem trees_keys (members : List (String × Json)) :
    (trees members).map Prod.fst = members.map Prod.fst := by
  rw [trees, List.map_map]
  rfl

theorem find?_trees (members : List (String × Json)) (name : String) :
    Dictionary.find? name (trees members) = (Dictionary.find? name members).map tree :=
  Dictionary.find?_mapValue (fun _ value => tree value) name members

theorem accept_fault?_eq_ok {how : ListEnd} (h : accept how.fault? = .ok ()) : how = .closed := by
  cases how <;> first | rfl | cases h

/-- A value holds under a name what its last member is read as. -/
theorem find?_fields {depth : Nat} (name : String) : (members : Members) →
    {fields result : Fields} → members.fields depth fields = .ok result →
      match members.last? name with
      | some tree => ∃ value, tree.value depth = .ok value ∧
          Dictionary.find? name result = some value
      | none => Dictionary.find? name result = Dictionary.find? name fields
  | .stop how, fields, result, h => by
    obtain ⟨_, -, ⟨⟩⟩ := bind_eq_ok_iff.mp h
    rfl
  | .more (.error f) _ _, _, _, h => by cases h
  | .more (.ok key) tree rest, fields, result, h => by
    obtain ⟨value, hvalue, h⟩ := bind_eq_ok_iff.mp h
    have hrest := find?_fields name rest h
    rw [Members.last?]
    cases hlast : rest.last? name with
    | some other =>
      rw [hlast] at hrest
      exact hrest
    | none =>
      rw [hlast, Dictionary.find?_insert] at hrest
      rw [Option.none_or]
      by_cases heq : key = name
      · rw [if_pos heq] at hrest ⊢
        exact ⟨value, hvalue, hrest⟩
      · rw [if_neg heq] at hrest ⊢
        exact hrest

/-- What is found in an object that has been read. -/
theorem lookup_fields {depth : Nat} {members : Members} {result : Fields}
    (h : members.fields depth [] = .ok result) (name : String) :
    (members.last? name = none ∧ Dictionary.find? name result = none) ∨
      ∃ tree value, members.last? name = some tree ∧ tree.value depth = .ok value ∧
        Dictionary.find? name result = some value := by
  have hfind := find?_fields name members h
  cases hlast : members.last? name with
  | none =>
    rw [hlast] at hfind
    exact .inl ⟨rfl, hfind⟩
  | some tree =>
    rw [hlast] at hfind
    obtain ⟨value, hvalue, hfound⟩ := hfind
    exact .inr ⟨tree, value, rfl, hvalue, hfound⟩

/-! ### Plain types -/

/-- Trees without anything in them are the trees of their values. -/
theorem tree_of_value {depth : Nat} {tree : Tree} {value : Json} (h : tree.value depth = .ok value)
    (array : ∀ items, tree ≠ .array items) (object : ∀ members, tree ≠ .object members) :
    value.tree = tree := by
  cases tree with
  | array items => exact absurd rfl (array items)
  | object members => exact absurd rfl (object members)
  | broken _ _ _ => cases h
  | _ => cases h; rfl

/-- A type that is never read from a list or an object. -/
theorem Decoder.faithful_of_plain {α : Type} {decoder : Decoder α}
    (array : ∀ depth items result, decoder depth (.array items) ≠ .ok result)
    (object : ∀ depth members result, decoder depth (.object members) ≠ .ok result)
    (level : ∀ depth more tree, decoder depth tree = decoder more tree) :
    decoder.Faithful := by
  intro tree value depth within more result hvalue hread _
  have hsame : value.tree = tree := tree_of_value hvalue
    (fun items he => array depth items result (he ▸ hread))
    (fun members he => object depth members result (he ▸ hread))
  rw [hsame, level more depth]
  exact hread

theorem Codec.uint64_faithful : Codec.uint64.read.Faithful :=
  Decoder.faithful_of_plain (fun _ _ _ h => by cases h) (fun _ _ _ h => by cases h)
    fun _ _ _ => rfl

theorem Codec.bool_faithful : Codec.bool.read.Faithful :=
  Decoder.faithful_of_plain (fun _ _ _ h => by cases h) (fun _ _ _ h => by cases h)
    fun _ _ _ => rfl

theorem Codec.optional_faithful {α : Type} {codec : Codec α} (h : codec.read.Faithful) :
    codec.optional.read.Faithful := by
  intro tree value depth within more result hvalue hread hmore
  have hsome : ∀ {tree : Tree} {value : Json}, value ≠ .null →
      tree.value within = .ok value → (codec.read depth tree).map some = .ok result →
        codec.optional.read more value.tree = .ok result := by
    intro tree value hne hvalue hread
    obtain ⟨inner, hinner, rfl⟩ := map_eq_ok_iff.mp hread
    have hagain := h hvalue hinner hmore
    cases value with
    | null => exact absurd rfl hne
    | _ => exact map_eq_ok_iff.mpr ⟨inner, hagain, rfl⟩
  cases tree with
  | null =>
    cases hvalue
    exact hread
  | array items =>
    refine hsome (fun he => ?_) hvalue hread
    obtain ⟨_, -, hv⟩ := bind_eq_ok_iff.mp hvalue
    cases hv
    cases he
  | object members =>
    refine hsome (fun he => ?_) hvalue hread
    obtain ⟨_, -, hv⟩ := bind_eq_ok_iff.mp hvalue
    cases hv
    cases he
  | broken _ _ _ => cases hvalue
  | _ =>
    refine hsome (fun he => ?_) hvalue hread
    cases hvalue
    cases he

/-! ### Byte strings of a fixed length -/

theorem byte_tree {depth : Nat} {tree : Tree} {value : Json} (h : tree.value depth = .ok value) :
    value.tree.byte.toOption = tree.byte.toOption := by
  cases tree with
  | array items =>
    obtain ⟨_, -, ⟨⟩⟩ := bind_eq_ok_iff.mp h
    rfl
  | object members =>
    obtain ⟨_, -, ⟨⟩⟩ := bind_eq_ok_iff.mp h
    rfl
  | broken _ _ _ => cases h
  | _ => cases h; rfl

theorem values_finish {depth : Nat} {items : Items} {values : List Json}
    (h : items.values depth = .ok values) (hfinish : items.finish = .ok ()) : values = [] := by
  cases items with
  | stop how =>
    obtain ⟨_, -, ⟨⟩⟩ := bind_eq_ok_iff.mp h
    rfl
  | more item rest => cases hfinish

/-- No list, no object and nothing broken. -/
def Tree.isPlain : Tree → Bool
  | .array _ | .object _ | .broken _ _ _ => false
  | _ => true

/-- One more such item is passed over at the end, if it is no byte. -/
theorem Items.afterBytes_more_eq_ok_iff {tooLong : Refusal} {item : Tree} {rest : Items}
    (h : item.isPlain = true) : (Items.more item rest).afterBytes tooLong = .ok () ↔
      item.byte.toOption = none ∧ rest.finish = .ok () := by
  cases item with
  | array _ => cases h
  | object _ => cases h
  | broken _ _ _ => cases h
  | _ =>
    unfold Items.afterBytes
    dsimp only
    split
    · next hbyte => simp [hbyte, Except.toOption]
    · next hbyte => simp [hbyte, Except.toOption]

theorem afterBytes_treeItems {depth : Nat} {tooLong : Refusal} {items : Items} {values : List Json}
    (h : items.values depth = .ok values) (hafter : items.afterBytes tooLong = .ok ()) :
    (treeItems values).afterBytes tooLong = .ok () := by
  cases items with
  | stop how =>
    obtain ⟨_, -, ⟨⟩⟩ := bind_eq_ok_iff.mp h
    rfl
  | more item rest =>
    obtain ⟨value, hvalue, h⟩ := bind_eq_ok_iff.mp h
    obtain ⟨others, hothers, ⟨⟩⟩ := bind_eq_ok_iff.mp h
    have hplain : item.isPlain = true → value.tree = item →
        (treeItems (value :: others)).afterBytes tooLong = .ok () := by
      rintro hplain rfl
      obtain ⟨hbyte, hfinish⟩ := (Items.afterBytes_more_eq_ok_iff hplain).mp hafter
      rw [values_finish hothers hfinish]
      exact (Items.afterBytes_more_eq_ok_iff hplain).mpr ⟨hbyte, rfl⟩
    cases item with
    | array _ => cases hafter
    | object _ => cases hafter
    | broken _ _ _ => cases hvalue
    | _ =>
      cases hvalue
      exact hplain rfl rfl

theorem exactly_treeItems {depth : Nat} {tooShort : Nat → Refusal} {tooLong : Refusal}
    {items : Items} {values : List Json} {found missing : Nat} {bytes : Bytes}
    (h : items.values depth = .ok values)
    (hread : items.exactly tooShort tooLong found missing = .ok bytes) :
    (treeItems values).exactly tooShort tooLong found missing = .ok bytes := by
  induction missing generalizing items values found bytes with
  | zero =>
    rw [Items.exactly] at hread ⊢
    obtain ⟨_, hafter, hbytes⟩ := bind_eq_ok_iff.mp hread
    exact bind_eq_ok_iff.mpr ⟨(), afterBytes_treeItems h hafter, hbytes⟩
  | succ missing ih =>
    cases items with
    | stop how =>
      rw [Items.exactly] at hread
      obtain ⟨_, -, hread⟩ := bind_eq_ok_iff.mp hread
      cases hread
    | more item rest =>
      obtain ⟨value, hvalue, h⟩ := bind_eq_ok_iff.mp h
      obtain ⟨others, hothers, ⟨⟩⟩ := bind_eq_ok_iff.mp h
      rw [Items.exactly] at hread
      obtain ⟨byte, hbyte, hread⟩ := bind_eq_ok_iff.mp hread
      obtain ⟨more, hmore, hbytes⟩ := bind_eq_ok_iff.mp hread
      have hsame : value.tree.byte = .ok byte := by
        have hoption := byte_tree hvalue
        rw [hbyte] at hoption
        cases hagain : value.tree.byte with
        | ok other =>
          rw [hagain] at hoption
          cases hoption
          rfl
        | error e =>
          rw [hagain] at hoption
          cases hoption
      rw [treeItems, Items.exactly]
      exact bind_eq_ok_iff.mpr ⟨byte, hsame, bind_eq_ok_iff.mpr ⟨more, ih hothers hmore, hbytes⟩⟩

theorem fixed_faithful {size : Nat} : (Fixed.codec : Codec (Fixed size)).read.Faithful := by
  intro tree value depth within more result hvalue hread hmore
  cases tree with
  | array items =>
    obtain ⟨values, hvalues, ⟨⟩⟩ := bind_eq_ok_iff.mp hvalue
    obtain ⟨_, rfl, hvalues⟩ := deeper_eq_ok_iff.mp hvalues
    obtain ⟨_, rfl, hread⟩ := deeper_eq_ok_iff.mp hread
    obtain ⟨bytes, hbytes, ⟨⟩⟩ := bind_eq_ok_iff.mp hread
    obtain ⟨more, rfl⟩ := Nat.exists_eq_succ_of_ne_zero (Nat.ne_zero_of_lt hmore)
    exact bind_eq_ok_iff.mpr ⟨bytes, exactly_treeItems hvalues hbytes, rfl⟩
  | string text =>
    cases hvalue
    exact hread
  | _ => cases hread

/-! ### Records -/

namespace Record

variable {σ : Type} {record : Record σ}

theorem readItems_treeItems {depth within more : Nat} (hmore : depth ≤ more)
    {fields : List (RecordField σ)}
    (faithful : ∀ field ∈ fields, field.codec.read.Faithful) {position : Nat} {items : Items}
    {values : List Json} {start result : σ} (h : items.values within = .ok values)
    (hread : record.readItems depth fields position items start = .ok result) :
    record.readItems more fields position (treeItems values) start = .ok result := by
  induction fields generalizing position items values start with
  | nil =>
    rw [readItems] at hread ⊢
    obtain ⟨_, hfinish, hresult⟩ := bind_eq_ok_iff.mp hread
    rw [values_finish h hfinish]
    exact hresult
  | cons field fields ih =>
    have hrest : ∀ other ∈ fields, other.codec.read.Faithful :=
      fun other ho => faithful other (List.mem_cons_of_mem _ ho)
    cases items with
    | stop how =>
      obtain ⟨_, haccept, ⟨⟩⟩ := bind_eq_ok_iff.mp h
      obtain rfl := accept_fault?_eq_ok haccept
      rw [treeItems, readItems]
      rw [readItems] at hread
      obtain ⟨_, -, hread⟩ := bind_eq_ok_iff.mp hread
      refine bind_eq_ok_iff.mpr ⟨(), rfl, ?_⟩
      split
      · next hdefaulted =>
        rw [if_pos hdefaulted] at hread
        have hvalues : (Items.stop .closed).values within = .ok [] := rfl
        exact ih hrest hvalues hread
      · next hdefaulted =>
        rw [if_neg hdefaulted] at hread
        cases hread
    | more item rest =>
      obtain ⟨value, hvalue, h⟩ := bind_eq_ok_iff.mp h
      obtain ⟨others, hothers, ⟨⟩⟩ := bind_eq_ok_iff.mp h
      rw [readItems] at hread
      obtain ⟨between, hbetween, hread⟩ := bind_eq_ok_iff.mp hread
      obtain ⟨content, hcontent, hset⟩ := bind_eq_ok_iff.mp hbetween
      have hagain := faithful field (List.mem_cons_self ..) hvalue hcontent hmore
      rw [treeItems, readItems]
      exact bind_eq_ok_iff.mpr
        ⟨between, bind_eq_ok_iff.mpr ⟨content, hagain, hset⟩, ih hrest hothers hread⟩

/-- What holds of an object holds of the value that is read from it. -/
theorem Holds.fields {depth within more : Nat}
    (faithful : ∀ field ∈ record.fields, field.codec.read.Faithful) {members : Members}
    {fields : Fields} {value : σ} (hfields : members.fields within [] = .ok fields)
    (holds : record.Holds depth (members.last? ·) value) (hmore : depth ≤ more) :
    record.Holds more (Dictionary.find? · (trees fields)) value := by
  refine ⟨fun field hfield tree hfound => ?_, fun field hfield hfound => ?_⟩
  · rw [find?_trees] at hfound
    rcases lookup_fields hfields field.name with ⟨-, hnone⟩ | ⟨source, inner, hlast, hinner, hsome⟩
    · rw [hnone] at hfound
      cases hfound
    · rw [hsome] at hfound
      cases hfound
      exact faithful field hfield hinner (holds.read field hfield source hlast) hmore
  · rw [find?_trees] at hfound
    rcases lookup_fields hfields field.name with ⟨hlast, -⟩ | ⟨source, inner, -, -, hsome⟩
    · exact holds.absent field hfield hlast
    · rw [hsome] at hfound
      cases hfound

theorem trees_pass (fields : Fields) : ∀ entry ∈ trees fields, entry.2.pass = .ok () := by
  intro entry he
  obtain ⟨member, -, rfl⟩ := List.mem_map.mp he
  exact pass_tree member.2

/-- A record is made of an object in which its fields hold. -/
theorem read_object_of_holds (lawful : record.Lawful) {depth : Nat} {fields : Fields} {value : σ}
    (ascending : fields.Ascending)
    (holds : record.Holds depth (Dictionary.find? · (trees fields)) value) :
    record.read (depth + 1) (Json.object fields).tree = .ok value := by
  have hdistinct : ((trees fields).map Prod.fst).Nodup := by
    rw [trees_keys]
    exact ascending.nodup
  rw [tree, treeMembers_eq]
  exact readObject_of_holds lawful hdistinct holds (trees_pass fields)

theorem faithful (lawful : record.Lawful)
    (hfields : ∀ field ∈ record.fields, field.codec.read.Faithful) :
    record.codec.read.Faithful := by
  intro tree value depth within more result hvalue hread hmore
  cases tree with
  | object members =>
    obtain ⟨fields, hread', ⟨⟩⟩ := bind_eq_ok_iff.mp hvalue
    obtain ⟨_, rfl, hread'⟩ := deeper_eq_ok_iff.mp hread'
    obtain ⟨_, rfl, hread⟩ := deeper_eq_ok_iff.mp hread
    obtain ⟨more, rfl⟩ := Nat.exists_eq_succ_of_ne_zero (Nat.ne_zero_of_lt hmore)
    exact read_object_of_holds lawful (fit_of_fields members hread' .nil).ascending
      ((holds_of_readObject lawful hread).fields hfields hread' (Nat.le_of_succ_le_succ hmore))
  | array items =>
    obtain ⟨values, hvalues, ⟨⟩⟩ := bind_eq_ok_iff.mp hvalue
    obtain ⟨_, rfl, hvalues⟩ := deeper_eq_ok_iff.mp hvalues
    obtain ⟨_, rfl, hread⟩ := deeper_eq_ok_iff.mp hread
    obtain ⟨more, rfl⟩ := Nat.exists_eq_succ_of_ne_zero (Nat.ne_zero_of_lt hmore)
    exact readItems_treeItems (Nat.le_of_succ_le_succ hmore) hfields hvalues hread
  | _ => cases hread

end Record
end Json

/-! ### The chain configuration -/

open Json

theorem EthashConfig.lawful : EthashConfig.record.Lawful where
  names := List.nodup_nil
  get_set := fun _ h => (nomatch h)
  apart := .nil
  ext := fun _ _ _ => rfl

theorem CliqueConfig.lawful : CliqueConfig.record.Lawful where
  names := by decide
  get_set := by
    simp only [CliqueConfig.record, List.forall_mem_cons]
    exact ⟨fun _ _ => rfl, fun _ _ => rfl, fun _ h => (nomatch h)⟩
  apart := by
    simp only [CliqueConfig.record, List.pairwise_cons, List.forall_mem_cons]
    repeat' apply And.intro
    all_goals first | exact fun _ _ => rfl | exact fun _ h => (nomatch h) | exact .nil
  ext := by
    rintro ⟨⟩ ⟨⟩ h
    simp only [CliqueConfig.record, List.forall_mem_cons, RecordField.defaulted] at h
    simp [h]

theorem IstanbulConfig.lawful : IstanbulConfig.record.Lawful where
  names := by decide
  get_set := by
    simp only [IstanbulConfig.record, List.forall_mem_cons]
    exact ⟨fun _ _ => rfl, fun _ _ => rfl, fun _ _ => rfl, fun _ h => (nomatch h)⟩
  apart := by
    simp only [IstanbulConfig.record, List.pairwise_cons, List.forall_mem_cons]
    repeat' apply And.intro
    all_goals first | exact fun _ _ => rfl | exact fun _ h => (nomatch h) | exact .nil
  ext := by
    rintro ⟨⟩ ⟨⟩ h
    simp only [IstanbulConfig.record, List.forall_mem_cons, RecordField.defaulted,
      RecordField.optional] at h
    simp [h]

theorem ChainConfig.lawful : ChainConfig.record.Lawful where
  names := by decide
  get_set := by
    simp only [ChainConfig.record, List.forall_mem_cons]
    repeat' apply And.intro
    all_goals first | exact fun _ _ => rfl | exact fun _ h => (nomatch h)
  apart := by
    simp only [ChainConfig.record, List.pairwise_cons, List.forall_mem_cons]
    repeat' apply And.intro
    all_goals first | exact fun _ _ => rfl | exact fun _ h => (nomatch h) | exact .nil
  ext := by
    rintro ⟨⟩ ⟨⟩ h
    simp only [ChainConfig.record, List.forall_mem_cons, RecordField.defaulted,
      RecordField.optional, block, switch, RecordField.omitting] at h
    simp [h]

theorem EthashConfig.faithful : EthashConfig.codec.read.Faithful :=
  Record.faithful lawful fun _ h => (nomatch h)

theorem CliqueConfig.faithful : CliqueConfig.codec.read.Faithful :=
  Record.faithful lawful (by
    simp only [CliqueConfig.record, List.forall_mem_cons]
    exact ⟨Codec.uint64_faithful, Codec.uint64_faithful, fun _ h => (nomatch h)⟩)

theorem IstanbulConfig.faithful : IstanbulConfig.codec.read.Faithful :=
  Record.faithful lawful (by
    simp only [IstanbulConfig.record, List.forall_mem_cons]
    exact ⟨Codec.uint64_faithful, Codec.uint64_faithful,
      Codec.optional_faithful Codec.uint64_faithful, fun _ h => (nomatch h)⟩)

theorem ChainConfig.fields_faithful :
    ∀ field ∈ ChainConfig.record.fields, field.codec.read.Faithful := by
  have hblock : Codec.uint64.optional.read.Faithful :=
    Codec.optional_faithful Codec.uint64_faithful
  have hswitch : Codec.bool.read.Faithful := Codec.bool_faithful
  simp only [ChainConfig.record, List.forall_mem_cons]
  exact ⟨hblock, hblock, hblock, hswitch, hblock, Codec.optional_faithful fixed_faithful, hblock,
    hblock, hblock, hblock, hblock, hblock, hblock, hblock, hblock,
    Codec.optional_faithful EthashConfig.faithful, Codec.optional_faithful CliqueConfig.faithful,
    Codec.optional_faithful IstanbulConfig.faithful, hswitch, hblock, fun _ h => (nomatch h)⟩

/-- A configuration is the same whether it is read from a text or from the value in the text. -/
theorem ChainConfig.faithful : ChainConfig.codec.read.Faithful :=
  Record.faithful lawful fields_faithful

end Provision
