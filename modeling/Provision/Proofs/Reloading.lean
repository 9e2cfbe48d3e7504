import Provision.Proofs.Completion
import Provision.Proofs.Legible

/-! The configuration record, read back.

The record holds the document's own configuration with some zeros put in, as text. What a type
reads of a value it reads of that text as well, `Codec.Restores`: printing changes numbers of
double precision only, which no field is read from, and the zeros are what an absent field stands
for. So a configuration is loaded as it was stored, `ParsedGenesis.parse_mergedText`. -/
namespace Provision

namespace Json
open Text

/-! ### Members that are read back -/

theorem find?_rereadMembers {members again : Fields} (h : rereadMembers members = some again)
    (key : String) :
    (Dictionary.find? key members = none ∧ Dictionary.find? key again = none) ∨
      ∃ value found, Dictionary.find? key members = some value ∧ value.reread = some found ∧
        Dictionary.find? key again = some found := by
  induction members generalizing again with
  | nil =>
    cases h
    exact .inl ⟨rfl, rfl⟩
  | cons member rest ih =>
    obtain ⟨name, value⟩ := member
    obtain ⟨found, others, hfound, hothers, rfl⟩ := rereadMembers_cons h
    simp only [Dictionary.find?_cons]
    by_cases hname : name = key
    · simp only [if_pos hname]
      exact .inr ⟨value, found, rfl, hfound, rfl⟩
    · simp only [if_neg hname]
      exact ih hothers

theorem Legible.withZeros {value : Json} (h : value.Legible) (names : List String) :
    (value.withZeros names).Legible := by
  cases value with
  | object members =>
    rw [legible_object_iff] at h
    refine legible_object_iff.mpr ?_
    induction names generalizing members with
    | nil => exact h
    | cons name names ih =>
      rw [addZeros]
      split
      · exact ih members h
      · refine ih _ fun member hm => ?_
        rcases Dictionary.mem_of_mem_insert hm with rfl | hm
        · intro n hn
          obtain rfl := List.mem_singleton.mp hn
          trivial
        · exact h member hm
  | _ => exact h

/-! ### Types -/

/-- What the type reads of a value it reads of what the value comes back as, when it is printed
with these zeros put in. -/
def Codec.Restores {α : Type} (codec : Codec α) (names : List String) : Prop :=
  ∀ {depth within : Nat} {value again : Json} {result : α}, Fits within value → value.Legible →
    codec.read depth value.tree = .ok result → (value.withZeros names).reread = some again →
      codec.read depth again.tree = .ok result

/-- A type that is read only of values that come back as they were. -/
theorem Codec.restores_of_same {α : Type} {codec : Codec α}
    (h : ∀ (depth : Nat) (value : Json) (result : α), codec.read depth value.tree = .ok result →
      value.isObject = false ∧ value.reread = some value) (names : List String) :
    codec.Restores names := by
  intro depth within value again result _ _ hread hagain
  obtain ⟨hplain, hsame⟩ := h depth value result hread
  rw [withZeros_of_not_object hplain, hsame] at hagain
  cases hagain
  exact hread

theorem Codec.uint64_restores (names : List String) : Codec.uint64.Restores names := by
  refine restores_of_same (fun depth value result hread => ?_) names
  cases value with
  | number n =>
    cases n with
    | natural value => exact ⟨rfl, by rw [reread, reread_natural]; rfl⟩
    | _ => cases hread
  | _ => cases hread

theorem Codec.bool_restores (names : List String) : Codec.bool.Restores names := by
  refine restores_of_same (fun depth value result hread => ?_) names
  cases value with
  | bool value => exact ⟨rfl, rfl⟩
  | _ => cases hread

theorem Codec.Restores.optional {α : Type} {codec : Codec α} {names : List String}
    (h : codec.Restores names) : codec.optional.Restores names := by
  intro depth within value again result hfits hlegible hread hagain
  -- Null stands for nothing, and no other value comes back as null.
  have hsome : again ≠ .null → (codec.read depth value.tree).map some = .ok result →
      codec.optional.read depth again.tree = .ok result := by
    intro hne hread
    obtain ⟨inner, hinner, rfl⟩ := map_eq_ok_iff.mp hread
    have hinner' := h hfits hlegible hinner hagain
    cases again with
    | null => exact absurd rfl hne
    | _ => exact map_eq_ok_iff.mpr ⟨inner, hinner', rfl⟩
  cases value with
  | null =>
    cases hagain
    exact hread
  | bool value =>
    cases hagain
    exact hsome nofun hread
  | string value =>
    cases hagain
    exact hsome nofun hread
  | number n =>
    obtain ⟨m, -, rfl⟩ := Option.map_eq_some_iff.mp hagain
    exact hsome nofun hread
  | array items =>
    obtain ⟨others, -, rfl⟩ := Option.map_eq_some_iff.mp hagain
    exact hsome nofun hread
  | object members =>
    obtain ⟨others, -, rfl⟩ := Option.map_eq_some_iff.mp hagain
    exact hsome nofun hread

/-! ### Byte strings of a fixed length -/

theorem byte_reread {value again : Json} (hlegible : value.Legible)
    (h : value.reread = some again) : again.tree.byte.toOption = value.tree.byte.toOption := by
  cases value with
  | number n =>
    obtain ⟨m, hm, rfl⟩ := Option.map_eq_some_iff.mp h
    rcases Num.Legible.reread (hlegible n (List.mem_singleton_self n)) with hsame | ⟨d, e, rfl, he⟩
    · cases hsame.symm.trans hm
      rfl
    · cases he.symm.trans hm
      rfl
  | array items =>
    obtain ⟨others, -, rfl⟩ := Option.map_eq_some_iff.mp h
    rfl
  | object members =>
    obtain ⟨others, -, rfl⟩ := Option.map_eq_some_iff.mp h
    rfl
  | _ =>
    cases h
    rfl

theorem afterBytes_reread {tooLong : Refusal} {items again : List Json}
    (hlegible : ∀ item ∈ items, item.Legible) (hagain : rereadItems items = some again)
    (h : (treeItems items).afterBytes tooLong = .ok ()) :
    (treeItems again).afterBytes tooLong = .ok () := by
  cases items with
  | nil =>
    cases hagain
    exact h
  | cons item rest =>
    obtain ⟨first, others, hfirst, hothers, rfl⟩ := rereadItems_cons hagain
    have hbyte := byte_reread (hlegible item (List.mem_cons_self ..)) hfirst
    have hplain : item.tree.isPlain = true → first.tree.isPlain = true →
        (treeItems (first :: others)).afterBytes tooLong = .ok () := by
      intro hitem hfirst
      obtain ⟨hnone, hfinish⟩ := (Items.afterBytes_more_eq_ok_iff hitem).mp h
      cases rest with
      | nil =>
        cases hothers
        exact (Items.afterBytes_more_eq_ok_iff hfirst).mpr ⟨hbyte.trans hnone, rfl⟩
      | cons _ _ => cases hfinish
    cases item with
    | array _ => cases h
    | object _ => cases h
    | number n =>
      obtain ⟨m, -, rfl⟩ := Option.map_eq_some_iff.mp hfirst
      exact hplain rfl rfl
    | _ =>
      cases hfirst
      exact hplain rfl rfl

theorem exactly_reread {tooShort : Nat → Refusal} {tooLong : Refusal} {items again : List Json}
    {found missing : Nat} {bytes : Bytes} (hlegible : ∀ item ∈ items, item.Legible)
    (hagain : rereadItems items = some again)
    (h : (treeItems items).exactly tooShort tooLong found missing = .ok bytes) :
    (treeItems again).exactly tooShort tooLong found missing = .ok bytes := by
  induction missing generalizing items again found bytes with
  | zero =>
    rw [Items.exactly] at h ⊢
    obtain ⟨_, hafter, hbytes⟩ := bind_eq_ok_iff.mp h
    exact bind_eq_ok_iff.mpr ⟨(), afterBytes_reread hlegible hagain hafter, hbytes⟩
  | succ missing ih =>
    cases items with
    | nil =>
      obtain ⟨_, -, h⟩ := bind_eq_ok_iff.mp h
      cases h
    | cons item rest =>
      obtain ⟨first, others, hfirst, hothers, rfl⟩ := rereadItems_cons hagain
      obtain ⟨hitem, hrest⟩ := List.forall_mem_cons.mp hlegible
      obtain ⟨byte, hbyte, h⟩ := bind_eq_ok_iff.mp h
      obtain ⟨more, hmore, hbytes⟩ := bind_eq_ok_iff.mp h
      have hoption := byte_reread hitem hfirst
      rw [hbyte] at hoption
      exact bind_eq_ok_iff.mpr ⟨byte, eq_ok_of_toOption hoption,
        bind_eq_ok_iff.mpr ⟨more, ih hrest hothers hmore, hbytes⟩⟩

theorem fixed_restores {size : Nat} (names : List String) :
    (Fixed.codec : Codec (Fixed size)).Restores names := by
  intro depth within value again result _ hlegible hread hagain
  cases value with
  | string text =>
    cases hagain
    exact hread
  | array items =>
    obtain ⟨others, hothers, rfl⟩ := Option.map_eq_some_iff.mp hagain
    obtain ⟨less, rfl, hread⟩ := deeper_eq_ok_iff.mp hread
    obtain ⟨bytes, hbytes, hfront⟩ := bind_eq_ok_iff.mp hread
    exact bind_eq_ok_iff.mpr
      ⟨bytes, exactly_reread (legible_array_iff.mp hlegible) hothers hbytes, hfront⟩
  | _ => cases hread

/-! ### Records -/

namespace Record

variable {σ : Type} {record : Record σ} {depth within : Nat} {value : σ}

/-- A zero is read as what the field has in the blank record. -/
def ZeroIsBlank (record : Record σ) (field : RecordField σ) : Prop :=
  ∀ depth, field.codec.read depth (Json.natural 0).tree = .ok (field.get record.blank)

/-- What holds of an object holds of what it comes back as. -/
theorem Holds.reread {names : String → List String} {zeroed : List String}
    {fields completed again : Fields}
    (hfields : ∀ field ∈ record.fields, field.codec.Restores (names field.name))
    (hzeroed : ∀ field ∈ record.fields, field.name ∈ zeroed → record.ZeroIsBlank field)
    (hfind : ∀ key, Dictionary.find? key completed =
      ((Dictionary.find? key fields).map (withZeros (names key))).or
        (if key ∈ zeroed then some (.natural 0) else none))
    (fit : Fields.Fit within fields) (legible : ∀ member ∈ fields, member.2.Legible)
    (hagain : rereadMembers completed = some again)
    (holds : record.Holds depth (Dictionary.find? · (trees fields)) value) :
    record.Holds depth (Dictionary.find? · (trees again)) value := by
  refine ⟨fun field hfield tree hfound => ?_, fun field hfield hfound => ?_⟩
  · rw [find?_trees] at hfound
    rcases find?_rereadMembers hagain field.name with ⟨-, hnone⟩ |
      ⟨content, found, hcontent, hreread, hsome⟩
    · rw [hnone] at hfound
      cases hfound
    rw [hsome] at hfound
    cases hfound
    rw [hfind] at hcontent
    have hlookup := find?_trees fields field.name
    cases hupper : Dictionary.find? field.name fields with
    | some upper =>
      rw [hupper] at hcontent hlookup
      cases hcontent
      have hmem := Dictionary.mem_of_find? hupper
      exact hfields field hfield (fit.values _ hmem) (legible _ hmem)
        (holds.read field hfield _ hlookup) hreread
    | none =>
      -- The document leaves the field out, and what is found is a zero that was put in.
      rw [hupper] at hcontent hlookup
      have hname : field.name ∈ zeroed := by
        by_contra hnot
        rw [if_neg hnot] at hcontent
        cases hcontent
      rw [if_pos hname] at hcontent
      cases hcontent
      have hzero : (Json.natural 0).reread = some (.natural 0) := by
        rw [Json.natural, Json.reread, reread_natural]
        rfl
      cases hzero.symm.trans hreread
      rw [(holds.absent field hfield hlookup).2]
      exact hzeroed field hfield hname depth
  · rw [find?_trees] at hfound
    rcases find?_rereadMembers hagain field.name with ⟨hnone, -⟩ | ⟨content, found, -, -, hsome⟩
    · rw [hfind, Option.or_eq_none_iff, Option.map_eq_none_iff] at hnone
      refine holds.absent field hfield ?_
      rw [find?_trees, hnone.1]
      rfl
    · rw [hsome] at hfound
      cases hfound

theorem readItems_reread {fields : List (RecordField σ)}
    (hfields : ∀ field ∈ fields, field.codec.Restores []) {position : Nat}
    {items again : List Json} {start result : σ} (fits : ∀ item ∈ items, Fits within item)
    (legible : ∀ item ∈ items, item.Legible) (hagain : rereadItems items = some again)
    (h : record.readItems depth fields position (treeItems items) start = .ok result) :
    record.readItems depth fields position (treeItems again) start = .ok result := by
  induction fields generalizing position items again start with
  | nil =>
    cases items with
    | nil =>
      cases hagain
      exact h
    | cons item rest => cases h
  | cons field fields ih =>
    cases items with
    | nil =>
      cases hagain
      exact h
    | cons item rest =>
      obtain ⟨first, others, hfirst, hothers, rfl⟩ := rereadItems_cons hagain
      obtain ⟨hfield, hfields⟩ := List.forall_mem_cons.mp hfields
      obtain ⟨hfits, fits⟩ := List.forall_mem_cons.mp fits
      obtain ⟨hlegible, legible⟩ := List.forall_mem_cons.mp legible
      obtain ⟨between, hbetween, h⟩ := bind_eq_ok_iff.mp h
      obtain ⟨content, hcontent, hset⟩ := bind_eq_ok_iff.mp hbetween
      have hfirst' : (item.withZeros []).reread = some first := by
        rw [withZeros_nil]
        exact hfirst
      have hcontent' := hfield hfits hlegible hcontent hfirst'
      exact bind_eq_ok_iff.mpr ⟨between, bind_eq_ok_iff.mpr ⟨content, hcontent', hset⟩,
        ih hfields fits legible hothers h⟩

/-- A record without sections of its own. -/
theorem restores (lawful : record.Lawful) {names : List String}
    (hfields : ∀ field ∈ record.fields, field.codec.Restores [])
    (hzeroed : ∀ field ∈ record.fields, field.name ∈ names → record.ZeroIsBlank field) :
    record.codec.Restores names := by
  intro depth within value again result hfits hlegible hread hagain
  cases value with
  | object fields =>
    obtain ⟨members, hmembers, rfl⟩ := Option.map_eq_some_iff.mp hagain
    obtain ⟨depth, rfl, -⟩ := deeper_eq_ok_iff.mp hread
    cases hfits with
    | object ascending hvalues =>
    have hascending := ascending_of_keys (ascending_addZeros names ascending)
      (mem_of_rereadMembers hmembers).1
    exact read_object_of_holds lawful hascending
      ((holds_of_read_object lawful ascending hread).reread hfields hzeroed
        (find?_addZeros_map names fields) ⟨ascending, hvalues⟩
        (legible_object_iff.mp hlegible) hmembers)
  | array items =>
    obtain ⟨others, hothers, rfl⟩ := Option.map_eq_some_iff.mp hagain
    obtain ⟨depth, rfl, hread⟩ := deeper_eq_ok_iff.mp hread
    cases hfits with
    | array hitems =>
    exact readItems_reread hfields hitems (legible_array_iff.mp hlegible) hothers hread
  | _ => cases hread

end Record

/-- The tree of the text of a value is the tree of what the value comes back as. -/
theorem readTree_print {value again : Json} (h : value.reread = some again) :
    readTree (Utf8.ofChars value.print) = (again.tree, some []) := by
  have hreads := reads_print value
  rw [h] at hreads
  generalize readTree (Utf8.ofChars value.print) = reading at hreads ⊢
  cases hreads
  rfl

/-- A type is read of the text of a value if it is read of what the value comes back as. -/
theorem Codec.parse_print {α : Type} {codec : Codec α} {value again : Json} {result : α}
    (hagain : value.reread = some again) (hread : codec.read mostDepth again.tree = .ok result) :
    codec.parse value.print = .ok result := by
  rw [Codec.parse, decode, decodeStriking.eq_def]
  simp only [readTree_print hagain, hread]
  rfl

end Json

/-! ### The chain configuration -/

open Json Text

theorem EthashConfig.restores : EthashConfig.codec.Restores [] :=
  Record.restores lawful (fun _ h => (nomatch h)) (fun _ h => (nomatch h))

theorem CliqueConfig.restores : CliqueConfig.codec.Restores ["period", "epoch"] := by
  refine Record.restores lawful ?_ ?_ <;> simp only [CliqueConfig.record, List.forall_mem_cons]
  · exact ⟨Codec.uint64_restores [], Codec.uint64_restores [], List.forall_mem_nil _⟩
  · exact ⟨fun _ _ => rfl, fun _ _ => rfl, List.forall_mem_nil _⟩

theorem IstanbulConfig.restores : IstanbulConfig.codec.Restores ["epoch", "policy"] := by
  refine Record.restores lawful ?_ ?_ <;> simp only [IstanbulConfig.record, List.forall_mem_cons]
  · exact ⟨Codec.uint64_restores [], Codec.uint64_restores [],
      Codec.Restores.optional (Codec.uint64_restores []), List.forall_mem_nil _⟩
  · exact ⟨fun _ _ => rfl, fun _ _ => rfl, fun h => absurd h (by decide), List.forall_mem_nil _⟩

namespace ChainConfig

theorem fields_restore : ∀ field ∈ record.fields, field.codec.Restores (zeros field.name) := by
  have hblock : ∀ names, Codec.uint64.optional.Restores names :=
    fun names => Codec.Restores.optional (Codec.uint64_restores names)
  have hswitch : ∀ names, Codec.bool.Restores names := Codec.bool_restores
  have hhash : ∀ names, (Fixed.codec : Codec Hash).optional.Restores names :=
    fun names => Codec.Restores.optional (fixed_restores names)
  simp only [record, List.forall_mem_cons]
  exact ⟨hblock _, hblock _, hblock _, hswitch _, hblock _, hhash _, hblock _, hblock _, hblock _,
    hblock _, hblock _, hblock _, hblock _, hblock _, hblock _,
    Codec.Restores.optional EthashConfig.restores, Codec.Restores.optional CliqueConfig.restores,
    Codec.Restores.optional IstanbulConfig.restores, hswitch _, hblock _, List.forall_mem_nil _⟩

/-- A configuration that is printed with zeros in its sections is read back as it was. -/
theorem parse_completed {within : Nat} {config : ChainConfig} {override : Fields}
    (fit : Fields.Fit within override) (legible : (Json.object override).Legible)
    (h : codec.read mostDepth (Json.object override).tree = .ok config) :
    codec.parse (Json.object (completed override)).print = .ok config := by
  rw [legible_object_iff] at legible
  have hlegible : (Json.object (completed override)).Legible := by
    refine legible_object_iff.mpr fun member hm => ?_
    obtain ⟨source, hsource, rfl⟩ := List.mem_map.mp hm
    exact (legible source hsource).withZeros _
  obtain ⟨again, hagain⟩ := hlegible.exists_reread
  refine Codec.parse_print hagain ?_
  obtain ⟨members, hmembers, rfl⟩ := Option.map_eq_some_iff.mp hagain
  have hascending := ascending_of_keys (ascending_completed fit.ascending)
    (mem_of_rereadMembers hmembers).1
  have hfind : ∀ key, Dictionary.find? key (completed override) =
      ((Dictionary.find? key override).map (withZeros (zeros key))).or
        (if key ∈ [] then some (.natural 0) else none) := by
    intro key
    rw [find?_completed, if_neg List.not_mem_nil, Option.or_none]
  have hzeroed : ∀ field ∈ record.fields, field.name ∈ [] → record.ZeroIsBlank field :=
    fun _ _ h => absurd h List.not_mem_nil
  exact Record.read_object_of_holds lawful hascending
    ((Record.holds_of_read_object lawful fit.ascending h).reread fields_restore hzeroed hfind fit
      legible hmembers)

theorem parse_mergedText_dev : codec.parse (mergedText .dev []) = .ok .dev :=
  eq_ok_of_toOption (by decide +kernel)

end ChainConfig

/-! ### The record of a document -/

theorem Json.Members.Spans.last? {name : String} : (members : Members) →
    ∀ {first : Bool} {text rest : Bytes} {found : Tree}, members.Spans first text rest →
      members.last? name = some found → ∃ text' rest', found.Spans text' rest'
  | .stop _, _, _, _, _, _, hlast => by cases hlast
  | .more key tree members, first, text, rest, found, h, hlast => by
    obtain ⟨inner, behind, -, htree, hmembers⟩ := h
    cases key with
    | error f => exact Members.Spans.last? members hmembers hlast
    | ok key =>
      rw [Members.last?] at hlast
      cases hrest : members.last? name with
      | some other =>
        rw [hrest] at hlast
        cases hlast
        exact Members.Spans.last? members hmembers hrest
      | none =>
        rw [hrest, Option.none_or] at hlast
        split at hlast
        · cases hlast
          exact ⟨_, _, htree⟩
        · cases hlast

/-- The configuration of a document stands in its text. -/
theorem spans_of_configTree? {tree found : Tree} {text rest : Bytes} (h : tree.Spans text rest)
    (hfound : configTree? tree = some found) : ∃ text' rest', found.Spans text' rest' := by
  cases tree with
  | object members =>
    obtain ⟨inner, -, hmembers⟩ := h
    exact Members.Spans.last? members hmembers hfound
  | array items =>
    cases items with
    | stop how => cases hfound
    | more item items =>
      cases hfound
      obtain ⟨inner, -, front, behind, -, hitem, -⟩ := h
      exact ⟨_, _, hitem⟩
  | _ => cases hfound

/-- **The configuration record of a document is read as the configuration that the document is
read with.** -/
theorem ParsedGenesis.parse_mergedText {text : List Char} {parsed : ParsedGenesis}
    (h : ParsedGenesis.parse text = .ok parsed) :
    ChainConfig.codec.parse
        (ChainConfig.mergedText parsed.genesis.chainConfig parsed.override) =
      .ok parsed.genesis.chainConfig := by
  obtain ⟨raw, hraw, hoverride, hshares⟩ := ParsedGenesis.shares h
  have hagrees := hshares.agreement hoverride
  cases hconfig : parsed.genesis.config with
  | none =>
    have hchain : parsed.genesis.chainConfig = .dev := by
      rw [Genesis.chainConfig, hconfig]
      rfl
    rw [hchain, hagrees.nil hconfig]
    exact ChainConfig.parse_mergedText_dev
  | some config =>
    have hchain : parsed.genesis.chainConfig = config := by
      rw [Genesis.chainConfig, hconfig]
      rfl
    obtain ⟨tree, hfound, -, hkept⟩ := hagrees.place config hconfig
    obtain ⟨rest, hspans, -⟩ := RawConfig.spans_of_parse hraw
    obtain ⟨_, _, htree⟩ := spans_of_configTree? hspans hfound
    have hlegible := Tree.Spans.legible tree htree (Codec.value_of_fields hkept)
    have hfit := ParsedGenesis.fit_override h
    have hread := hagrees.decode config hconfig
    rw [hchain, ChainConfig.mergedText, ChainConfig.merged_eq_completed hfit hread]
    exact ChainConfig.parse_completed hfit hlegible hread

/-- A document with a section that leaves members out, one as a list, a null and a number of double
precision. -/
def mixedDocument : List Char :=
  ("\x7b\"config\":\x7b\"chainId\":7,\"rate\":2.5e-7,\"daoForkBlock\":null,\"clique\":[5]," ++
    "\"istanbul\":\x7b\"policy\":1\x7d\x7d\x7d").toList

theorem ParsedGenesis.parse_mergedText_mixed :
    ∃ parsed, ParsedGenesis.parse mixedDocument = .ok parsed ∧
      ChainConfig.codec.parse
          (ChainConfig.mergedText parsed.genesis.chainConfig parsed.override) =
        .ok parsed.genesis.chainConfig := by
  have hok : (ParsedGenesis.parse mixedDocument).isOk = true := by decide +kernel
  obtain ⟨parsed, hparse⟩ := exists_ok_of_isOk hok
  exact ⟨parsed, hparse, ParsedGenesis.parse_mergedText hparse⟩

end Provision
