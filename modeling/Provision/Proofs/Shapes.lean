import Provision.Proofs.TwoReadings

/-! What stands where a document describes a record.

The document, its configuration, the accounts and the settings of the ways to agree on blocks are
records, and the client's documents have an object for each of them. A record is read from a list
as well, so a document that is accepted has objects and lists in these places, and null or nothing
where a record may be left out: `ParsedGenesis.formed`. Only the configuration is never a list,
since it is also kept as it stands. -/
namespace Provision

open Json Text

/-! ### Objects and lists -/

namespace Json

def Tree.isObject : Tree → Bool
  | .object _ => true
  | _ => false

def Tree.isList : Tree → Bool
  | .array _ => true
  | _ => false

def Tree.isNull : Tree → Bool
  | .null => true
  | _ => false

/-- The last member of an object with a name. -/
def Tree.member? (name : String) : Tree → Option Tree
  | .object members => members.last? name
  | _ => none

/-- The values of the members, in their order. -/
def Members.contents : Members → List Tree
  | .stop _ => []
  | .more _ value rest => value :: rest.contents

theorem Tree.isObject_forget (tree : Tree) : tree.forget.isObject = tree.isObject := by
  cases tree <;> rfl

theorem Tree.isList_forget (tree : Tree) : tree.forget.isList = tree.isList := by
  cases tree <;> rfl

theorem Members.contents_forget (members : Members) :
    members.forget.contents = members.contents.map Tree.forget := by
  cases members with
  | stop how => rfl
  | more key value rest =>
    rw [Members.forget, contents, contents, contents_forget rest, List.map_cons]

/-- A record is read from an object or from a list. -/
theorem Record.isObject_or_isList {σ : Type} {record : Record σ} {depth : Nat} {tree : Tree}
    {value : σ} (h : record.codec.read depth tree = .ok value) :
    tree.isObject = true ∨ tree.isList = true := by
  cases tree with
  | object _ => exact .inl rfl
  | array _ => exact .inr rfl
  | _ => cases h

/-- A record that may be left out is read from null as well. -/
theorem Record.optional_cases {σ : Type} {record : Record σ} {depth : Nat} {tree : Tree}
    {value : Option σ} (h : record.codec.optional.read depth tree = .ok value) :
    tree.isNull = true ∨ tree.isObject = true ∨ tree.isList = true := by
  cases tree with
  | null => exact .inl rfl
  | object _ => exact .inr (.inl rfl)
  | array _ => exact .inr (.inr rfl)
  | _ => cases h

theorem Members.contents_ofList (entries : List (String × Tree)) :
    (Members.ofList entries).contents = entries.map Prod.snd := by
  induction entries with
  | nil => rfl
  | cons entry rest ih =>
    rw [List.map_cons, ← ih]
    rfl

/-- What is read as a map is an object, and each of its values is read. -/
theorem Tree.dictionary_contents {κ υ : Type} [LT κ] [DecidableLT κ] [DecidableEq κ]
    {key : String → Except Refusal κ} {value : Decoder υ} {depth : Nat} {tree : Tree}
    {map : Dictionary κ υ} (h : tree.dictionary key value depth = .ok map) :
    ∃ members less, tree = .object members ∧
      ∀ content ∈ members.contents, ∃ result, value less content = .ok result := by
  cases tree with
  | object members =>
    obtain ⟨pairs, hpairs, -⟩ := bind_eq_ok_iff.mp h
    obtain ⟨less, -, hpairs⟩ := deeper_eq_ok_iff.mp hpairs
    refine ⟨members, less, rfl, ?_⟩
    obtain ⟨rows, rfl, -, hrows⟩ := Members.pairs_eq_ok members hpairs
    rw [Members.contents_ofList, List.map_map]
    intro content hc
    obtain ⟨row, hrow, rfl⟩ := List.mem_map.mp hc
    exact ⟨row.2.2, (hrows row hrow).2⟩
  | _ => cases h

end Json

/-! ### The places of a document -/

/-- The accounts of a document. -/
def accountTrees (document : Tree) : List Tree :=
  match document.member? "alloc" with
  | some (.object members) => members.contents
  | _ => []

/-- The ways to agree on blocks, as the configuration names them. -/
def sectionNames : List String := ["ethash", "clique", "istanbul"]

/-- Their settings, as far as the configuration has any. -/
def sectionTrees (document : Tree) : List Tree :=
  sectionNames.filterMap fun name => (configTree? document).bind (Tree.member? name)

/-- The records of a document. -/
def recordTrees (document : Tree) : List Tree :=
  document :: ((configTree? document).toList ++ accountTrees document ++ sectionTrees document)

/-- A document of the client's shape: objects in all the places, or null where a record may be left
out. -/
structure ClientShape (document : Tree) : Prop where
  top : document.isObject = true
  config : ∀ config, configTree? document = some config →
    config.isNull = true ∨ config.isObject = true
  accounts : ∀ account ∈ accountTrees document, account.isObject = true
  sections : ∀ settings ∈ sectionTrees document,
    settings.isNull = true ∨ settings.isObject = true

/-- What stands in the places of a document that is accepted. -/
structure Formed (document : Tree) : Prop where
  /-- A list has the configuration in it, or nothing. -/
  top : document.isObject = true ∨ document = .array (.stop .closed) ∨
    ∃ config, document = .array (.more config (.stop .closed))
  config : ∀ config, configTree? document = some config →
    config.isNull = true ∨ config.isObject = true
  accounts : ∀ account ∈ accountTrees document, account.isObject = true ∨ account.isList = true
  sections : ∀ settings ∈ sectionTrees document,
    settings.isNull = true ∨ settings.isObject = true ∨ settings.isList = true

/-- It has the client's shape exactly if there is no list. -/
theorem Formed.clientShape_iff {document : Tree} (h : Formed document) :
    ClientShape document ↔ ∀ tree ∈ recordTrees document, tree.isList = false := by
  have hapart : ∀ {tree : Tree}, tree.isNull = true ∨ tree.isObject = true →
      tree.isList = false := by
    intro tree ht
    cases tree <;> first | rfl | simp [Tree.isNull, Tree.isObject] at ht
  constructor
  · intro hshape tree ht
    rcases List.mem_cons.mp ht with rfl | ht
    · exact hapart (.inr hshape.top)
    · simp only [List.mem_append, Option.mem_toList] at ht
      rcases ht with (hconfig | haccount) | hsection
      · exact hapart (hshape.config tree hconfig)
      · exact hapart (.inr (hshape.accounts tree haccount))
      · exact hapart (hshape.sections tree hsection)
  · intro hnone
    have hplace : ∀ tree, tree ∈ recordTrees document → ¬ tree.isList = true := by
      intro tree ht
      rw [hnone tree ht]
      exact Bool.false_ne_true
    refine ⟨?_, h.config, fun account ha => ?_, fun settings hs => ?_⟩
    · have htop := hplace document (List.mem_cons_self ..)
      rcases h.top with hobject | rfl | ⟨config, rfl⟩
      · exact hobject
      · exact absurd rfl htop
      · exact absurd rfl htop
    · have haccount : account ∈ recordTrees document := by
        simp [recordTrees, ha]
      exact (h.accounts account ha).resolve_right (hplace account haccount)
    · have hsection : settings ∈ recordTrees document := by
        simp [recordTrees, hs]
      rcases h.sections settings hs with hnull | hobject | hlist
      · exact .inl hnull
      · exact .inr hobject
      · exact absurd hlist (hplace settings hsection)

/-! ### Documents that are accepted -/

/-- Nothing is struck out of the accounts. -/
theorem Genesis.alloc_calm {field : RecordField Genesis} (h : record.find? "alloc" = some field) :
    field.codec.read.Calm fun _ => True := by
  obtain ⟨rfl⟩ := h
  exact Alloc.calm hereditary_true

theorem accountTrees_of_left {members again : Members} {genesis : Genesis} {depth : Nat}
    (hread : Genesis.record.readObject depth again = .ok genesis)
    (hleft : Genesis.record.AllLeft members again) :
    ∀ account ∈ accountTrees (.object members),
      account.isObject = true ∨ account.isList = true := by
  have hforget := hleft.forget fun _ => Genesis.alloc_calm
  have hholds := Record.holds_of_readObject Genesis.lawful hread
  unfold accountTrees
  split
  · next contents hcontents =>
    have hcontents : members.last? "alloc" = some (.object contents) := hcontents
    rw [hcontents] at hforget
    obtain ⟨tree, htree, hsame⟩ := Option.map_eq_some_iff.mp hforget
    have hmem : _ ∈ Genesis.record.fields := List.mem_of_find?_eq_some
      (show Genesis.record.find? "alloc" = some _ from rfl)
    obtain ⟨others, less, rfl, hothers⟩ :=
      Tree.dictionary_contents (hholds.read _ hmem tree htree)
    have hmap : others.contents.map Tree.forget = contents.contents.map Tree.forget := by
      rw [← Members.contents_forget, ← Members.contents_forget]
      exact congrArg Members.contents (Tree.object.inj hsame)
    intro account ha
    obtain ⟨other, hother, he⟩ : ∃ other ∈ others.contents, other.forget = account.forget := by
      rw [← List.mem_map, hmap]
      exact List.mem_map_of_mem ha
    obtain ⟨result, hresult⟩ := hothers other hother
    rw [← account.isObject_forget, ← account.isList_forget, ← he, other.isObject_forget,
      other.isList_forget]
    exact Record.isObject_or_isList hresult
  · exact List.forall_mem_nil _

/-- The settings of a configuration that has been read. -/
theorem section_cases {members : Members} {depth : Nat} {chain : ChainConfig}
    (h : ChainConfig.record.readObject depth members = .ok chain) {name : String}
    (hname : name ∈ sectionNames) {settings : Tree}
    (hsettings : members.last? name = some settings) :
    settings.isNull = true ∨ settings.isObject = true ∨ settings.isList = true := by
  have hholds := Record.holds_of_readObject ChainConfig.lawful h
  have hfields : ∀ name ∈ sectionNames, ∃ field, ChainConfig.record.find? name = some field ∧
      ∀ tree value, field.codec.read depth tree = .ok value →
        tree.isNull = true ∨ tree.isObject = true ∨ tree.isList = true := by
    simp only [sectionNames, List.forall_mem_cons]
    exact ⟨⟨_, rfl, fun _ _ => Record.optional_cases⟩, ⟨_, rfl, fun _ _ => Record.optional_cases⟩,
      ⟨_, rfl, fun _ _ => Record.optional_cases⟩, List.forall_mem_nil _⟩
  obtain ⟨field, hfind, hcases⟩ := hfields name hname
  obtain ⟨hmem, rfl⟩ := Record.find?_eq_some hfind
  exact hcases settings _ (hholds.read field hmem settings hsettings)

theorem ParsedGenesis.formed {text : List Char} {parsed : ParsedGenesis}
    (h : ParsedGenesis.parse text = .ok parsed) : Formed (readTree (Utf8.ofChars text)).1 := by
  obtain ⟨raw, -, -, hshares⟩ := ParsedGenesis.shares h
  have hconfig : ∀ config, configTree? (readTree (Utf8.ofChars text)).1 = some config →
      config.isNull = true ∨ ∃ members chain, config = .object members ∧
        ChainConfig.record.readObject (mostDepth - 2) members = .ok chain := by
    intro config hfound
    obtain ⟨hconfig, hkept⟩ := hshares.read config hfound
    rcases found_cases hconfig hkept with ⟨rfl, -, -⟩ | ⟨chain, fields, hne, -, -, hchain, -⟩
    · exact .inl rfl
    · cases config with
      | object members => exact .inr ⟨members, chain, rfl, hchain⟩
      | null => exact absurd rfl hne
      | _ => cases hkept
  refine ⟨?_, fun config hfound => ?_, ?_, fun settings hs => ?_⟩
  · rcases ParsedGenesis.genesis_cases h with ⟨members, -, htree, -⟩ | ⟨items, htree, hitems, -⟩
    · rw [htree]
      exact .inl rfl
    · rw [htree]
      rcases hitems with rfl | ⟨item, rfl⟩
      · exact .inr (.inl rfl)
      · exact .inr (.inr ⟨item, rfl⟩)
  · rcases hconfig config hfound with hnull | ⟨members, -, rfl, -⟩
    · exact .inl hnull
    · exact .inr rfl
  · rcases ParsedGenesis.genesis_cases h with ⟨members, again, htree, hread, hleft⟩ |
      ⟨items, htree, -⟩
    · rw [htree]
      exact accountTrees_of_left hread hleft
    · rw [htree]
      exact List.forall_mem_nil _
  · obtain ⟨name, hname, hs⟩ := List.mem_filterMap.mp hs
    obtain ⟨config, hfound, hsettings⟩ := Option.bind_eq_some_iff.mp hs
    rcases hconfig config hfound with hnull | ⟨members, chain, rfl, hchain⟩
    · cases config with
      | null => cases hsettings
      | _ => cases hnull
    · exact section_cases hchain hname hsettings

/-- **Whatever is accepted has the client's shape, unless it has a list in the place of a record.**
The places and what may stand in them are the same for every text. -/
theorem ParsedGenesis.clientShape_iff_no_list {text : List Char} {parsed : ParsedGenesis}
    (h : ParsedGenesis.parse text = .ok parsed) :
    Formed (readTree (Utf8.ofChars text)).1 ∧
      (ClientShape (readTree (Utf8.ofChars text)).1 ↔
        ∀ tree ∈ recordTrees (readTree (Utf8.ofChars text)).1, tree.isList = false) :=
  ⟨ParsedGenesis.formed h, (ParsedGenesis.formed h).clientShape_iff⟩

/-- A document with a list for each way to agree on blocks, and for an account. -/
def listedDocument : List Char :=
  ("\x7b\"config\":\x7b\"ethash\":[],\"clique\":[5],\"istanbul\":[1,2,null]\x7d," ++
    "\"alloc\":\x7b\"0xca843569e3427144cead5e4d5999a3d0ccf92b8e\":" ++
      "[null,\x7b\x7d,\"0x1\",\"0x0\"]\x7d\x7d").toList

theorem listedDocument_accepted : ∃ parsed, ParsedGenesis.parse listedDocument = .ok parsed := by
  have hok : (ParsedGenesis.parse listedDocument).isOk = true := by decide +kernel
  exact exists_ok_of_isOk hok

theorem ParsedGenesis.clientShape_iff_no_list_listedDocument :
    ∃ parsed, ParsedGenesis.parse listedDocument = .ok parsed ∧
      Formed (readTree (Utf8.ofChars listedDocument)).1 ∧
        (ClientShape (readTree (Utf8.ofChars listedDocument)).1 ↔
          ∀ tree ∈ recordTrees (readTree (Utf8.ofChars listedDocument)).1,
            tree.isList = false) := by
  obtain ⟨parsed, hparse⟩ := listedDocument_accepted
  exact ⟨parsed, hparse, ParsedGenesis.clientShape_iff_no_list hparse⟩

/-- A list with nothing in it is accepted, and so are lists for the accounts and the sections. -/
theorem ParsedGenesis.not_clientShape :
    (∃ parsed, ParsedGenesis.parse ['[', ']'] = .ok parsed ∧
      ¬ ClientShape (readTree (Utf8.ofChars ['[', ']'])).1) ∧
    ∃ parsed, ParsedGenesis.parse listedDocument = .ok parsed ∧
      ¬ ClientShape (readTree (Utf8.ofChars listedDocument)).1 ∧
        ∀ tree ∈ accountTrees (readTree (Utf8.ofChars listedDocument)).1 ++
          sectionTrees (readTree (Utf8.ofChars listedDocument)).1, tree.isList = true := by
  have hempty : (ParsedGenesis.parse ['[', ']']).isOk = true := by decide +kernel
  obtain ⟨empty, hempty⟩ := exists_ok_of_isOk hempty
  obtain ⟨listed, hlisted⟩ := listedDocument_accepted
  have hlists : let document := (readTree (Utf8.ofChars listedDocument)).1
      (∃ account ∈ accountTrees document, account.isObject = false) ∧
        ∀ tree ∈ accountTrees document ++ sectionTrees document, tree.isList = true := by
    decide +kernel
  obtain ⟨⟨account, haccount, hlist⟩, hall⟩ := hlists
  refine ⟨⟨empty, hempty, fun hshape => ?_⟩, listed, hlisted, fun hshape => ?_, hall⟩
  · exact absurd hshape.top (by decide +kernel)
  · have hobject := hshape.accounts account haccount
    rw [hlist] at hobject
    cases hobject

end Provision
