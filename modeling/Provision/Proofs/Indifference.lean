import Provision.Proofs.InStep
import Provision.Proofs.Settling

/-! Documents that say the same.

Two documents say the same if what the library knows of them is the same but for the order of
members: then the genesis is the same, and with it all that is written into a store except for the
configuration record, `ParsedGenesis.parse_alike`. The record also has what the configuration says
beyond that. -/
namespace Provision

open Json Text

/-! ### Records and maps of a document -/

theorem Storage.settles : codec.read.Settles .whole := by
  intro depth tree other first second halike hfirst hsecond
  obtain ⟨spelled, hspelled, hfirst⟩ := bind_eq_ok_iff.mp hfirst
  obtain ⟨spelled', hspelled', hsecond⟩ := bind_eq_ok_iff.mp hsecond
  have hkeys : ∀ {tree : Tree}, tree.distinct = true → ∀ members, tree = .object members →
      (members.keys.map (Except.ok (ε := Refusal))).Nodup := by
    rintro _ hdistinct members rfl
    exact (Tree.distinct_object hdistinct).1.map fun _ _ he => Except.ok.inj he
  obtain rfl := Tree.dictionary_settles (fun _ => rfl) Codec.string_settles halike
    (hkeys halike.distinct) (hkeys halike.other_distinct) hspelled hspelled'
  exact Except.ok.inj (hfirst.symm.trans hsecond)

namespace Account

def shape : Shape := record.shape fun _ => .whole

theorem settles : codec.read.Settles shape := by
  refine Record.settles lawful ?_
  simp only [record, List.forall_mem_cons]
  exact ⟨Codec.optional_settles Bytes.settles, Storage.settles, UInt256.settles,
    Quantity.settles, List.forall_mem_nil _⟩

end Account

namespace ChainConfig

/-- What is known of the members of a configuration. -/
def inner : String → Shape
  | "ethash" => EthashConfig.record.shape fun _ => .whole
  | "clique" => CliqueConfig.record.shape fun _ => .whole
  | "istanbul" => IstanbulConfig.record.shape fun _ => .whole
  | _ => .whole

def shape : Shape := record.shape inner

theorem settles : codec.read.Settles shape := by
  have hblock : Codec.uint64.optional.read.Settles .whole :=
    Codec.optional_settles Codec.uint64_settles
  have hswitch : Codec.bool.read.Settles .whole := Codec.bool_settles
  have hethash : EthashConfig.codec.read.Settles (EthashConfig.record.shape fun _ => .whole) :=
    Record.settles EthashConfig.lawful (List.forall_mem_nil _)
  have hclique : CliqueConfig.codec.read.Settles (CliqueConfig.record.shape fun _ => .whole) := by
    refine Record.settles CliqueConfig.lawful ?_
    simp only [CliqueConfig.record, List.forall_mem_cons]
    exact ⟨Codec.uint64_settles, Codec.uint64_settles, List.forall_mem_nil _⟩
  have histanbul :
      IstanbulConfig.codec.read.Settles (IstanbulConfig.record.shape fun _ => .whole) := by
    refine Record.settles IstanbulConfig.lawful ?_
    simp only [IstanbulConfig.record, List.forall_mem_cons]
    exact ⟨Codec.uint64_settles, Codec.uint64_settles, hblock, List.forall_mem_nil _⟩
  refine Record.settles lawful ?_
  simp only [record, List.forall_mem_cons]
  exact ⟨hblock, hblock, hblock, hswitch, hblock, Codec.optional_settles Fixed.settles, hblock,
    hblock, hblock, hblock, hblock, hblock, hblock, hblock, hblock,
    Codec.optional_settles hethash, Codec.optional_settles hclique,
    Codec.optional_settles histanbul, hswitch, hblock, List.forall_mem_nil _⟩

end ChainConfig

namespace Genesis

/-- What is known of the members of a document, with so much of its configuration. -/
def inner (config : Shape) : String → Shape
  | "config" => config
  | "alloc" => .map Account.shape
  | _ => .whole

def shapeWith (config : Shape) : Shape := record.shape (inner config)

/-- What the library knows of a document. -/
def shape : Shape := shapeWith ChainConfig.shape

end Genesis

/-- The keys of the accounts of a document. -/
def accountKeys (document : Tree) : List String :=
  match document.member? "alloc" with
  | some (.object members) => members.keys
  | _ => []

/-- No object of a document has a key twice, and no two keys of the accounts name one address. -/
structure Unambiguous (document : Tree) : Prop where
  distinct : document.distinct = true
  addresses :
    ((accountKeys document).map (Fixed.ofText : String → Except Refusal Address)).Nodup

instance (document : Tree) : Decidable (Unambiguous document) :=
  decidable_of_iff (document.distinct = true ∧
      ((accountKeys document).map (Fixed.ofText : String → Except Refusal Address)).Nodup)
    ⟨fun h => ⟨h.1, h.2⟩, fun h => ⟨h.distinct, h.addresses⟩⟩

/-! ### The configuration -/

theorem Genesis.configTree?_alike {config : Shape} {document other : Tree}
    (h : document.Alike (shapeWith config) other) :
    Option.Rel (Tree.Alike config) (configTree? document) (configTree? other) := by
  cases document with
  | object members =>
    obtain ⟨others, rfl, hfound⟩ := h.object
    exact hfound "config" config rfl
  | array items =>
    obtain ⟨others, rfl, hitems⟩ := h.array
    cases items with
    | stop how =>
      rw [hitems.stop]
      exact .none
    | more item rest =>
      obtain ⟨other, back, rfl, hitem, -⟩ := hitems.more
      exact .some hitem
  | broken fault passing reach =>
    cases other with
    | broken _ _ _ => exact .none
    | _ => cases h.reordered
  | _ =>
    rw [h.eq_of_isPlain rfl]
    exact .none

section Config

variable {genesis other : Genesis} {raw raw' : RawConfig} {found found' : Option Tree}
  (h : Shares genesis raw found) (h' : Shares other raw' found')

include h h'

theorem Shares.config_eq (alike : Option.Rel (Tree.Alike ChainConfig.shape) found found') :
    genesis.config = other.config := by
  cases alike with
  | none => rw [(h.absent rfl).1, (h'.absent rfl).1]
  | some halike =>
    exact Codec.optional_settles ChainConfig.settles halike (h.read _ rfl).1 (h'.read _ rfl).1

theorem Shares.raw_eq (alike : Option.Rel (Tree.Alike .whole) found found') :
    raw.config = raw'.config := by
  cases alike with
  | none => rw [(h.absent rfl).2, (h'.absent rfl).2]
  | some halike =>
    exact Codec.optional_settles Codec.fields_settles halike (h.read _ rfl).2 (h'.read _ rfl).2

end Config

/-- The whole configuration says what the library knows of it. -/
theorem ParsedGenesis.Agrees.config_eq {parsed other : ParsedGenesis} {raw raw' : RawConfig}
    {found found' : Option Tree} (h : parsed.Agrees raw found) (h' : other.Agrees raw' found')
    (same : raw.config = raw'.config) :
    parsed.genesis.config = other.genesis.config ∧ parsed.override = other.override := by
  have hoverride : parsed.override = other.override := by
    rw [h.override_eq, h'.override_eq, same]
  refine ⟨?_, hoverride⟩
  cases hconfig : parsed.genesis.config with
  | none => exact (h'.none_iff.mpr (same ▸ h.none_iff.mp hconfig)).symm
  | some config =>
    cases hother : other.genesis.config with
    | none =>
      have hnone := h.none_iff.mpr (same.trans (h'.none_iff.mp hother))
      rw [hconfig] at hnone
      cases hnone
    | some config' =>
      have hread := h.decode config hconfig
      rw [hoverride] at hread
      have hread' := h'.decode config' hother
      rw [hread] at hread'
      rw [Except.ok.inj hread']

/-! ### The rest of a document -/

namespace Json.Record

variable {σ : Type} {record : Record σ} {inner : String → Shape} {members others : Members}

/-- The same is read from what has been left of the two members with the name of a field. -/
def Steady (record : Record σ) (inner : String → Shape) (members others : Members)
    (field : RecordField σ) : Prop :=
  ∀ ⦃tree other left left' : Tree⦄, members.last? field.name = some tree →
    others.last? field.name = some other → tree.Alike (inner field.name) other →
      record.Left field.name tree left → record.Left field.name other left' →
        ∀ ⦃depth a b⦄, field.codec.read depth left = .ok a →
          field.codec.read depth left' = .ok b → a = b

theorem steady_of_calm (lawful : record.Lawful) {field : RecordField σ}
    (hfield : field ∈ record.fields) (calm : field.codec.read.Calm fun _ => True)
    (settles : field.codec.read.Settles (inner field.name)) :
    record.Steady inner members others field := by
  intro tree other left left' _ _ halike hleft hleft' depth a b ha hb
  have hcalm : ∀ other, record.find? field.name = some other →
      other.codec.read.Calm fun _ => True := by
    intro other hother
    rw [lawful.find?_name hfield] at hother
    cases hother
    exact calm
  exact settles (halike.of_forget (hleft.forget hcalm) (hleft'.forget hcalm)) ha hb

theorem Steady.get_eq {again further : Members} {depth : Nat} {first second : σ}
    {field : RecordField σ} (h : record.Steady inner members others field)
    (hfield : field ∈ record.fields)
    (alike : (Tree.object members).Alike (record.shape inner) (.object others))
    (hagain : record.AllLeft members again) (hfurther : record.AllLeft others further)
    (hfirst : record.Holds depth again.last? first)
    (hsecond : record.Holds depth further.last? second) : field.get first = field.get second := by
  refine hfirst.get_eq hsecond hfield ?_
  obtain ⟨_, ⟨⟩, hfound⟩ := alike.object
  have hsame := hfound field.name _ (member_shape hfield)
  have hleft := hagain field.name
  have hleft' := hfurther field.name
  revert hsame hleft hleft'
  cases htree : members.last? field.name <;> cases hother : others.last? field.name <;>
    cases again.last? field.name <;> cases further.last? field.name <;>
      rintro (hsame | _) (hleft | _) (hleft' | _)
  · exact .none
  · exact .some fun _ _ ha hb => h htree hother hsame hleft hleft' ha hb

end Json.Record

/-- The keys of the accounts name different addresses in what is left of them as well. -/
theorem Unambiguous.left {members accounts : Members} {tree : Tree}
    (h : Unambiguous (.object members)) (hfound : members.last? "alloc" = some tree)
    (hforget : (Tree.object accounts).forget = tree.forget) :
    (accounts.keys.map (Fixed.ofText : String → Except Refusal Address)).Nodup := by
  cases tree with
  | object source =>
    have hkeys : accounts.keys = source.keys := by
      rw [← accounts.keys_forget, Tree.object.inj hforget, source.keys_forget]
    have haddresses := h.addresses
    rw [accountKeys, Tree.member?, hfound] at haddresses
    rw [hkeys]
    exact haddresses
  | _ => cases hforget

theorem Alloc.steady {config : Shape} {members others : Members} {field : RecordField Genesis}
    (h : Unambiguous (.object members)) (h' : Unambiguous (.object others))
    (hfield : Genesis.record.find? "alloc" = some field) :
    Genesis.record.Steady (Genesis.inner config) members others field := by
  obtain ⟨rfl⟩ := hfield
  intro tree other left left' htree hother halike hleft hleft' depth a b ha hb
  have hforget := hleft.forget fun _ => Genesis.alloc_calm
  have hforget' := hleft'.forget fun _ => Genesis.alloc_calm
  refine Tree.dictionary_settles (fun _ => rfl) Account.settles (halike.of_forget hforget hforget')
    ?_ ?_ ha hb
  · rintro accounts rfl
    exact h.left htree hforget
  · rintro accounts rfl
    exact h'.left hother hforget'

theorem Genesis.eq_of_readObject {members others again further : Members} {config : Shape}
    {genesis other : Genesis} {depth : Nat} (unambiguous : Unambiguous (.object members))
    (unambiguous' : Unambiguous (.object others))
    (alike : (Tree.object members).Alike (shapeWith config) (.object others))
    (hagain : record.AllLeft members again) (hfurther : record.AllLeft others further)
    (h : record.readObject depth again = .ok genesis)
    (h' : record.readObject depth further = .ok other) (same : genesis.config = other.config) :
    genesis = other := by
  have hquantity : Quantity.codec.read.Calm fun _ => True := Quantity.codec_calm
  have hfixed : ∀ {size : Nat} (name : String) (get set),
      record.Steady (inner config) members others
        (.defaulted name (Fixed.codec : Codec (Fixed size)) get set) :=
    fun _ _ _ _ _ _ _ _ _ halike hleft hleft' _ _ _ ha hb =>
      Fixed.settles_leads halike hleft.leads hleft'.leads ha hb
  have hfields : ∀ field ∈ record.fields, field.get genesis = field.get other ∨
      (field.codec.read.Calm (fun _ => True) ∧
        field.codec.read.Settles (inner config field.name)) ∨
          record.Steady (inner config) members others field := by
    simp only [record, List.forall_mem_cons]
    exact ⟨.inl same, .inr (.inl ⟨hquantity, Quantity.settles⟩),
      .inr (.inl ⟨hquantity, Quantity.settles⟩), .inr (.inl ⟨Bytes.codec_calm, Bytes.settles⟩),
      .inr (.inl ⟨hquantity, Quantity.settles⟩),
      .inr (.inl ⟨Codec.optional_calm UInt256.codec_calm, Codec.optional_settles UInt256.settles⟩),
      .inr (.inr (hfixed _ _ _)), .inr (.inr (hfixed _ _ _)),
      .inr (.inr (Alloc.steady unambiguous unambiguous' rfl)),
      .inr (.inl ⟨hquantity, Quantity.settles⟩), .inr (.inl ⟨hquantity, Quantity.settles⟩),
      .inr (.inr (hfixed _ _ _)),
      .inr (.inl ⟨Codec.optional_calm hquantity, Codec.optional_settles Quantity.settles⟩),
      List.forall_mem_nil _⟩
  have hholds := Record.holds_of_readObject lawful h
  have hholds' := Record.holds_of_readObject lawful h'
  refine lawful.ext _ _ fun field hfield => ?_
  rcases hfields field hfield with heq | ⟨hcalm, hsettles⟩ | hsteady
  · exact heq
  · exact (Record.steady_of_calm lawful hfield hcalm hsettles).get_eq hfield alike hagain hfurther
      hholds hholds'
  · exact hsteady.get_eq hfield alike hagain hfurther hholds hholds'

/-- A document that is a list has nothing but a configuration. -/
theorem Genesis.eq_of_readItems {items : Items} {genesis : Genesis} {depth : Nat}
    (hitems : items = .stop .closed ∨ ∃ item, items = .more item (.stop .closed))
    (h : record.readItems depth record.fields 0 items record.blank = .ok genesis) :
    genesis = { config := genesis.config } := by
  rcases hitems with rfl | ⟨item, rfl⟩
  · rw [Record.readItems_closed h]
    rfl
  · obtain ⟨_, hfield, hclosed⟩ := bind_eq_ok_iff.mp h
    obtain ⟨config, -, ⟨⟩⟩ := bind_eq_ok_iff.mp hfield
    rw [Record.readItems_closed hclosed]
    rfl

theorem ParsedGenesis.genesis_eq {text text' : List Char} {parsed other : ParsedGenesis}
    (h : parse text = .ok parsed) (h' : parse text' = .ok other) {config : Shape}
    (unambiguous : Unambiguous (readTree (Utf8.ofChars text)).1)
    (unambiguous' : Unambiguous (readTree (Utf8.ofChars text')).1)
    (alike : (readTree (Utf8.ofChars text)).1.Alike (Genesis.shapeWith config)
      (readTree (Utf8.ofChars text')).1)
    (same : parsed.genesis.config = other.genesis.config) : parsed.genesis = other.genesis := by
  rcases genesis_cases h with ⟨members, again, htree, hread, hleft⟩ | ⟨items, htree, hitems, hread⟩
  · rcases genesis_cases h' with ⟨others, further, hother, hread', hleft'⟩ | ⟨items, hother, -, -⟩
    · rw [htree] at alike unambiguous
      rw [hother] at alike unambiguous'
      exact Genesis.eq_of_readObject unambiguous unambiguous' alike hleft hleft' hread hread' same
    · rw [htree, hother] at alike
      cases alike.reordered
  · rcases genesis_cases h' with ⟨others, further, hother, -, -⟩ | ⟨items', hother, hitems', hread'⟩
    · rw [htree, hother] at alike
      cases alike.reordered
    · rw [Genesis.eq_of_readItems hitems hread, Genesis.eq_of_readItems hitems' hread', same]

/-! ### Two documents -/

/-- What is known of the documents in two texts is the same but for the order of members. -/
def SayAlike (shape : Shape) (text other : List Char) : Prop :=
  ((readTree (Utf8.ofChars text)).1.known shape).reordered
    ((readTree (Utf8.ofChars other)).1.known shape) = true

instance (shape : Shape) (text other : List Char) : Decidable (SayAlike shape text other) :=
  inferInstanceAs (Decidable (_ = true))

/-- Two documents with one genesis block: whatever is set up from them, and wherever, it is the
same but for the configuration records. -/
structure SameBlock (parsed other : ParsedGenesis) : Prop where
  genesis : parsed.genesis = other.genesis
  header : parsed.genesis.header = other.genesis.header
  hash : parsed.genesis.hash = other.genesis.hash
  stores : ∀ (disk disk' : Disk) (directory : Path) (cache : UInt64) (stores : List Name),
    disk.Matches (Key.config parsed.genesis.hash).encode disk' →
      InStep (Disk.Matches (Key.config parsed.genesis.hash).encode)
        (Instance.setupStores disk directory parsed cache stores)
        (Instance.setupStores disk' directory other cache stores)

theorem SameBlock.of_genesis {parsed other : ParsedGenesis}
    (h : parsed.genesis = other.genesis) : SameBlock parsed other where
  genesis := h
  header := congrArg Genesis.header h
  hash := congrArg Genesis.hash h
  stores disk disk' directory cache stores hdisk := by
    obtain ⟨genesis, override⟩ := parsed
    obtain ⟨_, override'⟩ := other
    cases h
    exact Instance.setupStores_matches hdisk directory override override' cache stores

/-- **Documents that say the same of what the library knows make the same instance, but for the
configuration records. If they say the same of the whole configuration, the records are the same as
well.** -/
theorem ParsedGenesis.parse_alike {text text' : List Char} {parsed other : ParsedGenesis}
    (h : parse text = .ok parsed) (h' : parse text' = .ok other)
    (unambiguous : Unambiguous (readTree (Utf8.ofChars text)).1)
    (unambiguous' : Unambiguous (readTree (Utf8.ofChars text')).1) :
    (SayAlike Genesis.shape text text' → SameBlock parsed other ∧
      ∀ (host : Host) (clock : Int) (request : Instance.Request),
        InStep (Host.Matches (Key.config parsed.genesis.hash).encode)
          (Instance.create host clock { request with genesis := text })
          (Instance.create host clock { request with genesis := text' })) ∧
    (SayAlike (Genesis.shapeWith .whole) text text' →
      parsed.genesis = other.genesis ∧ parsed.override = other.override ∧
        parsed.genesis.chainConfig.mergedBytes parsed.override =
          other.genesis.chainConfig.mergedBytes other.override ∧
        ∀ (host : Host) (clock : Int) (request : Instance.Request),
          Instance.create host clock { request with genesis := text } =
            Instance.create host clock { request with genesis := text' }) := by
  obtain ⟨raw, -, hoverride, hshares⟩ := shares h
  obtain ⟨raw', -, hoverride', hshares'⟩ := shares h'
  refine ⟨fun hsame => ?_, fun hsame => ?_⟩
  · have halike : (readTree (Utf8.ofChars text)).1.Alike Genesis.shape
        (readTree (Utf8.ofChars text')).1 := ⟨unambiguous.distinct, unambiguous'.distinct, hsame⟩
    have hconfig := hshares.config_eq hshares' (Genesis.configTree?_alike halike)
    have hgenesis := genesis_eq h h' unambiguous unambiguous' halike hconfig
    exact ⟨.of_genesis hgenesis, fun host clock request =>
      Instance.create_matches host clock request h h' hgenesis.symm⟩
  · have halike : (readTree (Utf8.ofChars text)).1.Alike (Genesis.shapeWith .whole)
        (readTree (Utf8.ofChars text')).1 := ⟨unambiguous.distinct, unambiguous'.distinct, hsame⟩
    have hraw := hshares.raw_eq hshares' (Genesis.configTree?_alike halike)
    obtain ⟨hconfig, hkept⟩ :=
      (hshares.agreement hoverride).config_eq (hshares'.agreement hoverride') hraw
    have hgenesis := genesis_eq h h' unambiguous unambiguous' halike hconfig
    obtain rfl : parsed = other := by
      obtain ⟨_, _⟩ := parsed
      obtain ⟨_, _⟩ := other
      cases hgenesis
      cases hkept
      rfl
    refine ⟨rfl, rfl, rfl, fun host clock request => ?_⟩
    exact Instance.create_congr host clock request h h'

def plainDocument : List Char :=
  ("\x7b\"config\":\x7b\"chainId\":7,\"ethash\":\x7b\x7d\x7d," ++
    "\"alloc\":\x7b\"0xca843569e3427144cead5e4d5999a3d0ccf92b8e\":" ++
      "\x7b\"balance\":\"0x1\",\"storage\":\x7b\"1\":\"2\",\"3\":\"4\"\x7d\x7d\x7d\x7d").toList

/-- The same with its members in another order, and with members that nobody knows beside the
configuration and in the account. -/
def turnedDocument : List Char :=
  ("\x7b\"alloc\":\x7b\"0xca843569e3427144cead5e4d5999a3d0ccf92b8e\":" ++
      "\x7b\"storage\":\x7b\"3\":\"4\",\"1\":\"2\"\x7d,\"a\":[],\"balance\":\"0x1\"\x7d\x7d," ++
    "\"b\":0,\"config\":\x7b\"ethash\":\x7b\x7d,\"chainId\":7\x7d\x7d").toList

/-- The same with members that nobody knows in the configuration and in a section of it. -/
def extendedDocument : List Char :=
  ("\x7b\"config\":\x7b\"a\":0,\"ethash\":\x7b\"b\":[]\x7d,\"chainId\":7\x7d," ++
    "\"alloc\":\x7b\"0xca843569e3427144cead5e4d5999a3d0ccf92b8e\":" ++
      "\x7b\"balance\":\"0x1\",\"storage\":\x7b\"1\":\"2\",\"3\":\"4\"\x7d\x7d\x7d\x7d").toList

theorem ParsedGenesis.parse_alike_turned_extended : ∃ parsed turned extended,
    parse plainDocument = .ok parsed ∧ parse turnedDocument = .ok turned ∧
      parse extendedDocument = .ok extended ∧
        (Unambiguous (readTree (Utf8.ofChars plainDocument)).1 ∧
          Unambiguous (readTree (Utf8.ofChars turnedDocument)).1 ∧
            Unambiguous (readTree (Utf8.ofChars extendedDocument)).1) ∧
          SayAlike (Genesis.shapeWith .whole) plainDocument turnedDocument ∧
            SayAlike Genesis.shape plainDocument extendedDocument ∧
              parsed.override = turned.override ∧ SameBlock parsed extended := by
  have hread : (∀ text ∈ [plainDocument, turnedDocument, extendedDocument],
        (parse text).isOk = true ∧ Unambiguous (readTree (Utf8.ofChars text)).1) ∧
      SayAlike (Genesis.shapeWith .whole) plainDocument turnedDocument ∧
        SayAlike Genesis.shape plainDocument extendedDocument := by decide +kernel
  simp only [List.forall_mem_cons] at hread
  obtain ⟨⟨⟨hok, hkeys⟩, ⟨hok', hkeys'⟩, ⟨hok'', hkeys''⟩, -⟩, hturned, hextended⟩ := hread
  obtain ⟨parsed, hparse⟩ := exists_ok_of_isOk hok
  obtain ⟨turned, hparse'⟩ := exists_ok_of_isOk hok'
  obtain ⟨extended, hparse''⟩ := exists_ok_of_isOk hok''
  obtain ⟨-, hsame⟩ := parse_alike hparse hparse' hkeys hkeys'
  obtain ⟨hblock, -⟩ := parse_alike hparse hparse'' hkeys hkeys''
  exact ⟨parsed, turned, extended, hparse, hparse', hparse'', ⟨hkeys, hkeys', hkeys''⟩, hturned,
    hextended, (hsame hturned).2.1, (hblock hextended).1⟩

end Provision
