import Provision.Proofs.Merging
import Provision.Proofs.Overriding
import Provision.Proofs.TwoReadings

/-! The configuration record, and what the document says.

What a record writes, merged under the object that it was read from, leaves that object as it is
but for the fields that are written even if the object leaves them out. In a chain configuration
those are two in each of the sections `clique` and `istanbul`. So the configuration record is the
document's own configuration with zeros put in there, `ParsedGenesis.mergedText_eq`. -/
namespace Provision

namespace Json

/-! ### Members that are put in -/

/-- The members with a zero under each name that is missing. -/
def addZeros : List String → Fields → Fields
  | [], members => members
  | name :: names, members =>
    addZeros names (if (Dictionary.find? name members).isSome then members
      else members.insert name (.natural 0))

/-- An object with a zero under each name that is missing, and any other value as it is. -/
def withZeros (names : List String) : Json → Json
  | .object members => .object (addZeros names members)
  | value => value

theorem find?_addZeros (names : List String) (members : Fields) (key : String) :
    Dictionary.find? key (addZeros names members) =
      (Dictionary.find? key members).or (if key ∈ names then some (.natural 0) else none) := by
  induction names generalizing members with
  | nil => simp [addZeros]
  | cons name names ih =>
    rw [addZeros, ih]
    cases hname : Dictionary.find? name members with
    | some value =>
      by_cases h : key = name
      · subst h
        simp [hname]
      · simp [h]
    | none =>
      by_cases h : key = name
      · subst h
        simp [hname, Dictionary.find?_insert]
      · simp [h, Ne.symm h, Dictionary.find?_insert]

theorem ascending_addZeros (names : List String) {members : Fields} (h : members.Ascending) :
    (addZeros names members).Ascending := by
  induction names generalizing members with
  | nil => exact h
  | cons name names ih =>
    rw [addZeros]
    split
    · exact ih h
    · exact ih (h.insert name (.natural 0))

@[simp] theorem withZeros_nil (value : Json) : value.withZeros [] = value := by
  cases value <;> rfl

/-- Values that nothing is put into, among members that zeros are put in beside. -/
theorem find?_addZeros_map (names : List String) (members : Fields) (key : String) :
    Dictionary.find? key (addZeros names members) =
      ((Dictionary.find? key members).map (withZeros [])).or
        (if key ∈ names then some (.natural 0) else none) := by
  rw [find?_addZeros, Option.map_congr fun value _ => withZeros_nil value, Option.map_id']

theorem withZeros_of_not_object {value : Json} (h : value.isObject = false)
    (names : List String) : value.withZeros names = value := by
  cases value with
  | object members => cases h
  | _ => rfl

/-! ### Ascending keys -/

theorem sortedMembers_eq_insertAll (members : List (String × Json)) (fields : Fields) :
    sortedMembers members fields =
      fields.insertAll (members.map fun member => (member.1, member.2.sorted)) := by
  induction members generalizing fields with
  | nil => rfl
  | cons member rest ih => exact ih _

theorem ascending_sortedMembers (members : List (String × Json)) :
    (sortedMembers members []).Ascending := by
  rw [sortedMembers_eq_insertAll]
  exact Dictionary.Ascending.insertAll .nil _

theorem ascending_mergeFields {base : Fields} (h : base.Ascending)
    (overrides : List (String × Json)) : (mergeFields base overrides).Ascending := by
  induction overrides generalizing base with
  | nil =>
    rw [mergeFields]
    exact h
  | cons member rest ih =>
    rw [mergeFields_cons]
    exact ih (h.insert _ _)

mutual

/-- A value that a reader can return is in order. -/
theorem Fits.sorted_eq : {depth : Nat} → {value : Json} → Fits depth value → value.sorted = value
  | _, .null, _ | _, .bool _, _ | _, .number _, _ | _, .string _, _ => rfl
  | _, .array items, .array h => by
    rw [sorted, sortedItems_eq items h]
  | _, .object members, .object ascending h => by
    rw [sorted, sortedMembers_eq_insertAll, sortedValues_eq members h]
    have hall : Dictionary.insertAll [] members = [] ++ members :=
      Dictionary.insertAll_of_ascending ascending
    rw [hall]
    rfl

theorem sortedItems_eq {depth : Nat} : (items : List Json) → (∀ item ∈ items, Fits depth item) →
    sortedItems items = items
  | [], _ => rfl
  | item :: rest, h => by
    rw [sortedItems, (h item (List.mem_cons_self ..)).sorted_eq,
      sortedItems_eq rest fun other ho => h other (List.mem_cons_of_mem _ ho)]

theorem sortedValues_eq {depth : Nat} : (members : List (String × Json)) →
    (∀ member ∈ members, Fits depth member.2) →
      (members.map fun member => (member.1, member.2.sorted)) = members
  | [], _ => rfl
  | (key, value) :: rest, h => by
    rw [List.map_cons, (h (key, value) (List.mem_cons_self ..)).sorted_eq,
      sortedValues_eq rest fun other ho => h other (List.mem_cons_of_mem _ ho)]

end

/-! ### What a record has written -/

/-- In members without repetitions the last one with a name is the one that is found. -/
theorem last?_ofList {entries : List (String × Tree)} (distinct : (entries.map Prod.fst).Nodup)
    (name : String) : (Members.ofList entries).last? name = Dictionary.find? name entries := by
  induction entries with
  | nil => rfl
  | cons entry rest ih =>
    obtain ⟨key, tree⟩ := entry
    obtain ⟨hkey, hrest⟩ := List.nodup_cons.mp distinct
    rw [Members.ofList, Members.last?, ih hrest, Dictionary.find?_cons]
    by_cases h : key = name
    · subst h
      rw [Dictionary.find?_eq_none_iff.mpr hkey, Option.none_or]
    · simp [h]

namespace Record

variable {σ : Type} {record : Record σ}

theorem mem_members_iff {value : σ} {entry : String × Json} :
    entry ∈ record.members value ↔
      ∃ field ∈ record.fields, field.member? value = some entry :=
  List.mem_filterMap

theorem nodup_members (lawful : record.Lawful) (value : σ) :
    ((record.members value).map Prod.fst).Nodup := by
  have hsublist : ((record.members value).map Prod.fst).Sublist
      (record.fields.map RecordField.name) := by
    rw [members, List.map_filterMap]
    induction record.fields with
    | nil => exact .refl _
    | cons field fields ih =>
      rw [List.filterMap_cons, List.map_cons, RecordField.member?]
      split
      · exact ih.cons _
      · next hname =>
        split at hname
        · cases hname
        · cases hname
          exact ih.cons_cons _
  exact lawful.names.sublist hsublist

/-- What is found under a name among the members that a record writes. -/
theorem find?_members (lawful : record.Lawful) (value : σ) (key : String) :
    Dictionary.find? key (record.members value) =
      (record.find? key).bind fun field => (field.member? value).map Prod.snd := by
  refine Option.ext fun content => ?_
  rw [Dictionary.find?_eq_some_iff (nodup_members lawful value), mem_members_iff]
  constructor
  · rintro ⟨field, hfield, hmember⟩
    have hname : field.name = key := by
      rw [RecordField.member?] at hmember
      split at hmember
      · cases hmember
      · cases hmember
        rfl
    rw [← hname, lawful.find?_name hfield, Option.bind_some, hmember]
    rfl
  · intro h
    obtain ⟨field, hfind, hmap⟩ := Option.bind_eq_some_iff.mp h
    obtain ⟨entry, hmember, rfl⟩ := Option.map_eq_some_iff.mp hmap
    obtain ⟨hfield, rfl⟩ := find?_eq_some hfind
    refine ⟨field, hfield, ?_⟩
    rw [hmember]
    rw [RecordField.member?] at hmember
    split at hmember
    · cases hmember
    · cases hmember
      rfl

theorem find?_sortedMembers (lawful : record.Lawful) (value : σ) (key : String) :
    Dictionary.find? key (sortedMembers (record.members value) []) =
      (record.find? key).bind fun field =>
        (field.member? value).map fun member => member.2.sorted := by
  have hkeys : ((record.members value).map fun member => (member.1, member.2.sorted)).map
      Prod.fst = (record.members value).map Prod.fst := by
    rw [List.map_map]
    rfl
  have hdistinct : (((record.members value).map fun member =>
      (member.1, member.2.sorted)).map Prod.fst).Nodup := by
    rw [hkeys]
    exact nodup_members lawful value
  rw [sortedMembers_eq_insertAll, Dictionary.find?_insertAll_of_nodup [] hdistinct,
    Dictionary.find?_nil, Option.or_none,
    Dictionary.find?_mapValue (fun _ content => sorted content), find?_members lawful]
  cases record.find? key with
  | none => rfl
  | some field => rw [Option.bind_some, Option.bind_some, Option.map_map]; rfl

end Record

/-! ### Writing under what has been read -/

/-- What the type writes, merged under the value that it was read from, puts in these zeros and
nothing else. -/
def Codec.Completes {α : Type} (codec : Codec α) (names : List String) : Prop :=
  ∀ {depth within : Nat} {value : Json} {result : α}, Fits within value →
    codec.read depth value.tree = .ok result →
      merge (codec.write result).sorted value = value.withZeros names

/-- What a field makes of the value that it is read from, and what is written for it if there is
none. -/
structure RecordField.Completes {σ : Type} (field : RecordField σ) (blank : σ)
    (names : List String) (missing : Option Json) : Prop where
  codec : field.codec.Completes names
  omitted : ∀ {depth : Nat} {value : Json} {result : field.α},
    field.codec.read depth value.tree = .ok result → field.omitted result = true →
      value.withZeros names = value
  missing : (field.member? blank).map (fun member => member.2.sorted) = missing

theorem Codec.completes_of_plain {α : Type} {codec : Codec α}
    (object : ∀ depth members result, codec.read depth (.object members) ≠ .ok result)
    (names : List String) : codec.Completes names := by
  intro depth within value result _ hread
  have hplain : value.isObject = false := by
    cases value with
    | object members => exact absurd hread (object _ _ _)
    | _ => rfl
  rw [merge_not_object _ hplain, withZeros_of_not_object hplain]

theorem Codec.Completes.optional {α : Type} {codec : Codec α} {names : List String}
    (h : codec.Completes names) : codec.optional.Completes names := by
  intro depth within value result hfits hread
  cases value with
  | null =>
    cases hread
    rfl
  | _ =>
    obtain ⟨inner, hinner, rfl⟩ := map_eq_ok_iff.mp hread
    exact h hfits hinner

theorem RecordField.completes_optional {σ α : Type} (name : String) {codec : Codec α}
    {get : σ → Option α} {set : Option α → σ → σ} {names : List String} {blank : σ}
    (h : codec.Completes names) (hblank : get blank = none) :
    (RecordField.optional name codec get set).Completes blank names none where
  codec := h.optional
  omitted := by
    intro depth value result hread homitted
    obtain rfl : result = none := Option.isNone_iff_eq_none.mp homitted
    cases value with
    | null => rfl
    | _ =>
      obtain ⟨inner, -, ⟨⟩⟩ := map_eq_ok_iff.mp hread
  missing := by
    rw [member?, show (RecordField.optional name codec get set).omitted
      ((RecordField.optional name codec get set).get blank) = true from
      Option.isNone_iff_eq_none.mpr hblank]
    rfl

namespace Record

variable {σ : Type} {record : Record σ} {depth within : Nat} {fields : Fields} {value : σ}

/-- What is found after what a record writes was merged under the object that holds it. -/
theorem find?_mergeFields_members (lawful : record.Lawful) {names : String → List String}
    {missing : String → Option Json}
    (hfields : ∀ field ∈ record.fields,
      field.Completes record.blank (names field.name) (missing field.name))
    (hothers : ∀ name, record.find? name = none → names name = [] ∧ missing name = none)
    (fits : Fits (within + 1) (.object fields))
    (holds : record.Holds depth (Dictionary.find? · (trees fields)) value) (key : String) :
    Dictionary.find? key (mergeFields (sortedMembers (record.members value) []) fields) =
      ((Dictionary.find? key fields).map (withZeros (names key))).or (missing key) := by
  cases fits with
  | object ascending hvalues =>
  rw [find?_mergeFields _ ascending.nodup, find?_sortedMembers lawful]
  cases hfield : record.find? key with
  | none =>
    obtain ⟨hnames, hmissing⟩ := hothers key hfield
    rw [hnames, hmissing]
    cases Dictionary.find? key fields with
    | none => rfl
    | some upper =>
      simp [merge_of_not_object (show isObject .null = false from rfl)]
  | some field =>
    obtain ⟨hmem, rfl⟩ := find?_eq_some hfield
    have hcompletes := hfields field hmem
    have hfound := find?_trees fields field.name
    cases hupper : Dictionary.find? field.name fields with
    | none =>
      -- What the record writes here it writes of the blank record, too.
      rw [hupper] at hfound
      have hblank := (holds.absent field hmem hfound).2
      have hmember : field.member? value = field.member? record.blank := by
        rw [RecordField.member?, RecordField.member?, hblank]
      simp [hmember, hcompletes.missing]
    | some upper =>
      rw [hupper] at hfound
      have hread := holds.read field hmem _ hfound
      have hfits := hvalues _ (Dictionary.mem_of_find? hupper)
      have hmerge := hcompletes.codec hfits hread
      cases homitted : field.omitted (field.get value) with
      | true =>
        simp [RecordField.member?, homitted, hcompletes.omitted hread homitted,
          merge_of_not_object (show isObject .null = false from rfl)]
      | false => simp [RecordField.member?, homitted, hmerge]

theorem holds_of_read_object (lawful : record.Lawful) (ascending : fields.Ascending)
    (h : record.read (depth + 1) (Json.object fields).tree = .ok value) :
    record.Holds depth (Dictionary.find? · (trees fields)) value := by
  have hdistinct : ((trees fields).map Prod.fst).Nodup := by
    rw [trees_keys]
    exact ascending.nodup
  have hread : record.readObject depth (.ofList (trees fields)) = .ok value := by
    rw [← treeMembers_eq]
    exact h
  have hholds := holds_of_readObject lawful hread
  simp only [last?_ofList hdistinct] at hholds
  exact hholds

/-- A record without sections of its own puts in a zero for each field that it writes even if it
is zero. -/
theorem completes (lawful : record.Lawful) {names : List String}
    (hfields : ∀ field ∈ record.fields, field.Completes record.blank []
      (if field.name ∈ names then some (.natural 0) else none))
    (hnames : ∀ name ∈ names, record.find? name ≠ none) : record.codec.Completes names := by
  intro depth within value result hfits hread
  cases value with
  | object fields =>
    obtain ⟨depth, rfl, -⟩ := deeper_eq_ok_iff.mp hread
    obtain ⟨within, rfl⟩ : ∃ less, within = less + 1 := by
      cases hfits with
      | object _ _ => exact ⟨_, rfl⟩
    have hascending : Dictionary.Ascending fields := by
      cases hfits with
      | object ascending _ => exact ascending
    have hholds := holds_of_read_object lawful hascending hread
    have hothers : ∀ name, record.find? name = none → ([] : List String) = [] ∧
        (if name ∈ names then some (Json.natural 0) else none) = none :=
      fun name hnone => ⟨rfl, if_neg fun hname => hnames name hname hnone⟩
    have hfind := find?_mergeFields_members lawful hfields hothers hfits hholds
    have hsame : mergeFields (sortedMembers (record.members result) []) fields =
        addZeros names fields := by
      refine (ascending_mergeFields (ascending_sortedMembers _) _).ext
        (ascending_addZeros names hascending) fun key => ?_
      rw [hfind, find?_addZeros_map]
    rw [show (record.codec.write result).sorted =
      .object (sortedMembers (record.members result) []) from rfl, merge, hsame]
    rfl
  | array items =>
    rw [merge_not_object _ rfl]
    rfl
  | _ => cases hread

end Record
end Json

/-! ### The chain configuration -/

open Json Text

theorem EthashConfig.completes : EthashConfig.codec.Completes [] :=
  Record.completes lawful (fun _ h => (nomatch h)) (List.forall_mem_nil _)

theorem CliqueConfig.completes : CliqueConfig.codec.Completes ["period", "epoch"] := by
  refine Record.completes lawful ?_ (by decide)
  have huint : Codec.uint64.Completes [] := Codec.completes_of_plain (fun _ _ _ h => by cases h) []
  simp only [CliqueConfig.record, List.forall_mem_cons]
  exact ⟨⟨huint, fun _ h => Bool.noConfusion h, rfl⟩, ⟨huint, fun _ h => Bool.noConfusion h, rfl⟩,
    List.forall_mem_nil _⟩

theorem IstanbulConfig.completes : IstanbulConfig.codec.Completes ["epoch", "policy"] := by
  refine Record.completes lawful ?_ (by decide)
  have huint : Codec.uint64.Completes [] := Codec.completes_of_plain (fun _ _ _ h => by cases h) []
  simp only [IstanbulConfig.record, List.forall_mem_cons]
  exact ⟨⟨huint, fun _ h => Bool.noConfusion h, rfl⟩, ⟨huint, fun _ h => Bool.noConfusion h, rfl⟩,
    RecordField.completes_optional _ huint rfl, List.forall_mem_nil _⟩

namespace ChainConfig

/-- The members that a section is written with even if a document leaves them out. -/
def zeros (name : String) : List String :=
  (Dictionary.find? name
    [("clique", ["period", "epoch"]), ("istanbul", ["epoch", "policy"])]).getD []

/-- A configuration with zeros for what its sections leave out. -/
def completed (config : Fields) : Fields :=
  config.map fun member => (member.1, member.2.withZeros (zeros member.1))

theorem fields_complete : ∀ field ∈ record.fields, field.Completes record.blank
    (zeros field.name) none := by
  have hblock : ∀ name get set, zeros name = [] → get record.blank = none →
      (block name get set).Completes record.blank (zeros name) none := by
    intro name get set hname hblank
    rw [hname]
    exact RecordField.completes_optional _
      (Codec.completes_of_plain (fun _ _ _ h => by cases h) []) hblank
  have hswitch : ∀ name get set, zeros name = [] → get record.blank = false →
      (switch name get set).Completes record.blank (zeros name) none := by
    intro name get set hname hblank
    rw [hname]
    have hoff : (switch name get set).omitted ((switch name get set).get record.blank) = true :=
      congrArg _ hblank
    refine ⟨Codec.completes_of_plain (fun _ _ _ h => by cases h) [], fun _ _ => withZeros_nil _, ?_⟩
    rw [RecordField.member?, hoff]
    rfl
  have hhash : (Fixed.codec : Codec Hash).Completes [] :=
    Codec.completes_of_plain (fun _ _ _ h => by cases h) []
  simp only [record, List.forall_mem_cons]
  exact ⟨hblock _ _ _ rfl rfl, hblock _ _ _ rfl rfl, hblock _ _ _ rfl rfl, hswitch _ _ _ rfl rfl,
    hblock _ _ _ rfl rfl, RecordField.completes_optional _ hhash rfl, hblock _ _ _ rfl rfl,
    hblock _ _ _ rfl rfl, hblock _ _ _ rfl rfl, hblock _ _ _ rfl rfl, hblock _ _ _ rfl rfl,
    hblock _ _ _ rfl rfl, hblock _ _ _ rfl rfl, hblock _ _ _ rfl rfl, hblock _ _ _ rfl rfl,
    RecordField.completes_optional _ EthashConfig.completes rfl,
    RecordField.completes_optional _ CliqueConfig.completes rfl,
    RecordField.completes_optional _ IstanbulConfig.completes rfl, hswitch _ _ _ rfl rfl,
    hblock _ _ _ rfl rfl, List.forall_mem_nil _⟩

theorem find?_completed (config : Fields) (key : String) :
    Dictionary.find? key (completed config) =
      (Dictionary.find? key config).map (withZeros (zeros key)) :=
  Dictionary.find?_mapValue (fun name value => withZeros (zeros name) value) key config

theorem ascending_completed {config : Fields} (h : config.Ascending) :
    (completed config).Ascending :=
  List.pairwise_map.mpr h

/-- A configuration merged under the object that it was read from. -/
theorem merged_eq_completed {depth within : Nat} {config : ChainConfig} {override : Fields}
    (fits : Fields.Fit within override)
    (h : codec.read (depth + 1) (Json.object override).tree = .ok config) :
    config.merged override = completed override := by
  have hholds := Record.holds_of_read_object lawful fits.ascending h
  have hnames : ∀ name, record.find? name = none →
      zeros name = [] ∧ (none : Option Json) = none := by
    intro name hnone
    have hclique : name ≠ "clique" := by
      rintro rfl
      cases hnone
    have histanbul : name ≠ "istanbul" := by
      rintro rfl
      cases hnone
    simp [zeros, Dictionary.find?_cons, Ne.symm hclique, Ne.symm histanbul]
  refine (ascending_mergeFields (ascending_sortedMembers _) _).ext
    (ascending_completed fits.ascending) fun key => ?_
  have hmerged := Record.find?_mergeFields_members lawful fields_complete hnames fits.object hholds
  rw [find?_completed]
  exact (hmerged key).trans (Option.or_none ..)

end ChainConfig

/-! ### The record of a document -/

theorem Json.Codec.value_of_fields {depth : Nat} {tree : Tree} {fields : Fields}
    (h : Codec.fields.read depth tree = .ok fields) : tree.value depth = .ok (.object fields) := by
  cases tree with
  | object members => exact bind_eq_ok_iff.mpr ⟨fields, h, rfl⟩
  | _ => cases h

/-- What the configuration record of a document says, when the document has its configuration at
`found`. -/
structure ParsedGenesis.Recorded (parsed : ParsedGenesis) (found : Option Tree) : Prop where
  /-- There is none, or null in its place. -/
  dev : found = none ∨ found = some .null →
    ChainConfig.mergedText parsed.genesis.chainConfig parsed.override =
      (ChainConfig.codec.write .dev).sorted.print
  /-- Of members with the same key the last one counts, at every depth. -/
  object : ∀ tree, found = some tree → tree ≠ .null → ∃ config,
    tree.value (mostDepth - 1) = .ok (.object config) ∧
      ChainConfig.mergedText parsed.genesis.chainConfig parsed.override =
        (Json.object (ChainConfig.completed config)).sorted.print

/-- **The configuration record is the configuration of the document with keys in order and zeros
for what its sections leave out.** -/
theorem ParsedGenesis.mergedText_eq {text : List Char} {parsed : ParsedGenesis}
    (h : ParsedGenesis.parse text = .ok parsed) :
    parsed.Recorded (configTree? (readTree (Utf8.ofChars text)).1) := by
  obtain ⟨raw, -, hoverride, hshares⟩ := ParsedGenesis.shares h
  have hagrees := hshares.agreement hoverride
  refine ⟨fun hnone => ?_, fun tree hfound hne => ?_⟩
  · have hconfig := hagrees.none_iff.mpr (hagrees.absent_iff.mpr hnone)
    have hchain : parsed.genesis.chainConfig = .dev := by
      rw [Genesis.chainConfig, hconfig]
      rfl
    rw [hchain, hagrees.nil hconfig, ChainConfig.mergedText, ChainConfig.merged, mergeFields]
    rfl
  · have hsome : parsed.genesis.config ≠ none := by
      intro hconfig
      have habsent := hagrees.absent_iff.mp (hagrees.none_iff.mp hconfig)
      simp [hfound, hne] at habsent
    obtain ⟨config, hconfig⟩ := Option.ne_none_iff_exists'.mp hsome
    obtain ⟨tree', hfound', -, hkept⟩ := hagrees.place config hconfig
    obtain rfl : tree' = tree := Option.some.inj (hfound'.symm.trans hfound)
    have hchain : parsed.genesis.chainConfig = config := by
      rw [Genesis.chainConfig, hconfig]
      rfl
    have hmerged : parsed.genesis.chainConfig.merged parsed.override =
        ChainConfig.completed parsed.override := by
      rw [hchain]
      exact ChainConfig.merged_eq_completed (ParsedGenesis.fit_override h)
        (hagrees.decode config hconfig)
    have hfits := ParsedGenesis.fits_merged h
    refine ⟨parsed.override, Codec.value_of_fields hkept, ?_⟩
    rw [ChainConfig.mergedText, ← hmerged, hfits.sorted_eq]

/-- A document with two sections that leave members out, and with one member twice that is passed
over. -/
def sectionedDocument : List Char :=
  ("\x7b\"config\":\x7b\"note\":1,\"istanbul\":\x7b\"epoch\":5\x7d,\"clique\":\x7b\x7d," ++
    "\"note\":[\x7b\"b\":1,\"a\":2\x7d]\x7d\x7d").toList

theorem ParsedGenesis.mergedText_eq_sectioned :
    ∃ parsed, ParsedGenesis.parse sectionedDocument = .ok parsed ∧
      parsed.Recorded (configTree? (readTree (Utf8.ofChars sectionedDocument)).1) := by
  have hok : (ParsedGenesis.parse sectionedDocument).isOk = true := by decide +kernel
  obtain ⟨parsed, hparse⟩ := exists_ok_of_isOk hok
  exact ⟨parsed, hparse, ParsedGenesis.mergedText_eq hparse⟩

end Provision
