import Provision.Genesis.Input
import Provision.Proofs.Faithful
import Provision.Proofs.Striking

/-! A document that is read twice.

The first reading knows all fields of a document, the second one only the configuration, which
it takes as it stands. They differ in what they pass over, in what they strike out of the text
and in what they take a configuration to be, but they find it in the same place:
`ParsedGenesis.agrees`. -/
namespace Provision

open Json Text

/-! ### The fields of a document -/

theorem Genesis.lawful : Genesis.record.Lawful where
  names := by decide
  get_set := by
    simp only [Genesis.record, List.forall_mem_cons]
    repeat' apply And.intro
    all_goals first | exact fun _ _ => rfl | exact fun _ h => (nomatch h)
  apart := by
    simp only [Genesis.record, List.pairwise_cons, List.forall_mem_cons]
    repeat' apply And.intro
    all_goals first | exact fun _ _ => rfl | exact fun _ h => (nomatch h) | exact .nil
  ext := by
    rintro ⟨⟩ ⟨⟩ h
    simp only [Genesis.record, List.forall_mem_cons, RecordField.defaulted,
      RecordField.optional, RecordField.withDefault] at h
    simp [h]

theorem RawConfig.lawful : RawConfig.record.Lawful where
  names := by decide
  get_set := by
    simp only [RawConfig.record, List.forall_mem_cons]
    exact ⟨fun _ _ => rfl, fun _ h => (nomatch h)⟩
  apart := List.pairwise_singleton _ _
  ext := by
    rintro ⟨⟩ ⟨⟩ h
    simp only [RawConfig.record, List.forall_mem_cons, RecordField.optional,
      RecordField.withDefault] at h
    simp [h]

theorem Genesis.cautious : Genesis.record.Cautious "config" where
  fields := by
    have hquantity : Quantity.codec.read.Calm fun _ => True := Quantity.codec_calm
    simp only [Genesis.record, List.forall_mem_cons]
    exact ⟨.inr (.inl ⟨rfl, Codec.optional_calm ChainConfig.calm_whole⟩), .inl hquantity,
      .inl hquantity, .inl Bytes.codec_calm, .inl hquantity,
      .inl (Codec.optional_calm UInt256.codec_calm), .inr (.inr ⟨32, by decide, Fixed.edgy⟩),
      .inr (.inr ⟨20, by decide, Fixed.edgy⟩), .inl (Alloc.calm hereditary_true), .inl hquantity,
      .inl hquantity, .inr (.inr ⟨32, by decide, Fixed.edgy⟩),
      .inl (Codec.optional_calm hquantity), fun _ h => (nomatch h)⟩
  names := by
    have hbare : ∀ name ∈ Genesis.record.fields.map RecordField.name, ¬ IsBareText name := by
      decide
    exact fun field hfield => hbare _ (List.mem_map_of_mem hfield)

/-! ### Where the configuration stands -/

/-- The configuration of a document, as far as the text goes: the last member of its name, or the
first item of a list. -/
def configTree? : Tree → Option Tree
  | .object members => members.last? "config"
  | .array (.more item _) => some item
  | _ => none

/-- Of a list that closes a record takes nothing any more. -/
theorem Json.Record.readItems_closed {σ : Type} {record : Record σ} {depth : Nat}
    {fields : List (RecordField σ)} {position : Nat} {value after : σ}
    (h : record.readItems depth fields position (.stop .closed) value = .ok after) :
    after = value := by
  induction fields generalizing position with
  | nil =>
    cases h
    rfl
  | cons field fields ih =>
    rw [Record.readItems] at h
    obtain ⟨_, -, h⟩ := bind_eq_ok_iff.mp h
    split at h
    · exact ih h
    · cases h

theorem Json.Items.finish_eq_ok {items : Items} (h : items.finish = .ok ()) :
    items = .stop .closed := by
  unfold Items.finish at h
  split at h
  · rfl
  · cases h
  · cases h
  · cases h
  · cases h

theorem RawConfig.calm : RawConfig.record.codec.read.Calm fun _ => True := by
  refine Record.calm hereditary_true ?_
  simp only [RawConfig.record, List.forall_mem_cons]
  refine ⟨Codec.optional_calm fun depth tree _ => ?_, fun _ h => (nomatch h)⟩
  rintro ⟨reach, h⟩
  cases tree with
  | object members =>
    cases depth with
    | zero => cases h
    | succ depth =>
      obtain ⟨f, hf⟩ := fault_of_fields members h
      cases hf
  | _ => exact Strikes.unexpected ⟨reach, h⟩

/-- What stands in the place of a configuration, when both readings take it: nothing, or an
object. -/
theorem found_cases {found : Tree} {depth : Nat} {config : Option ChainConfig}
    {kept : Option Fields} (hconfig : ChainConfig.codec.optional.read depth found = .ok config)
    (hkept : Codec.fields.optional.read depth found = .ok kept) :
    (found = .null ∧ config = none ∧ kept = none) ∨
      ∃ chain fields, found ≠ .null ∧ config = some chain ∧ kept = some fields ∧
        ChainConfig.codec.read depth found = .ok chain ∧
          Codec.fields.read depth found = .ok fields ∧
            found.value depth = .ok (.object fields) := by
  cases found with
  | null =>
    cases hconfig
    cases hkept
    exact .inl ⟨rfl, rfl, rfl⟩
  | object members =>
    obtain ⟨chain, hchain, rfl⟩ := map_eq_ok_iff.mp hconfig
    obtain ⟨fields, hfields, rfl⟩ := map_eq_ok_iff.mp hkept
    have hvalue : (Tree.object members).value depth = .ok (.object fields) :=
      bind_eq_ok_iff.mpr ⟨fields, hfields, rfl⟩
    exact .inr ⟨chain, fields, nofun, rfl, rfl, hchain, hfields, hvalue⟩
  | _ => cases hkept

/-- What the second reading takes for a configuration is whole. -/
theorem whole_of_kept {tree : Tree} {depth : Nat} {kept : Option Fields}
    (h : Codec.fields.optional.read depth tree = .ok kept) :
    ∃ value, tree.value depth = .ok value := by
  cases tree with
  | null => exact ⟨.null, rfl⟩
  | object members =>
    obtain ⟨fields, hfields, -⟩ := map_eq_ok_iff.mp h
    exact ⟨.object fields, bind_eq_ok_iff.mpr ⟨fields, hfields, rfl⟩⟩
  | _ => cases h

/-- Each configuration that the second reading comes upon is whole. -/
theorem RawConfig.wholeAt {depth : Nat} : (members : Members) → ∀ {seen seen' : List String}
    {raw after : RawConfig}, RawConfig.record.readMembers depth members seen raw =
      .ok (seen', after) → members.WholeAt "config"
  | .stop _, _, _, _, _, _ => trivial
  | .more (.error _) _ _, _, _, _, _, h => by cases h
  | .more (.ok name) tree rest, seen, seen', raw, after, h => by
    rw [Record.readMembers] at h
    split at h
    · next hnone =>
      obtain ⟨_, -, h⟩ := bind_eq_ok_iff.mp h
      refine ⟨fun he => ?_, wholeAt rest h⟩
      cases he
      cases hnone
    next field hfind =>
    split at h
    · cases h
    obtain ⟨_, hfield, h⟩ := bind_eq_ok_iff.mp h
    refine ⟨fun he => ?_, wholeAt rest h⟩
    cases he
    cases hfind
    obtain ⟨kept, hkept, -⟩ := bind_eq_ok_iff.mp hfield
    exact ⟨depth, whole_of_kept hkept⟩

/-! ### Both readings -/

/-- What both readings make of the place of the configuration. -/
structure Shares (genesis : Genesis) (raw : RawConfig) (found : Option Tree) : Prop where
  absent : found = none → genesis.config = none ∧ raw.config = none
  read : ∀ tree, found = some tree →
    ChainConfig.codec.optional.read (mostDepth - 1) tree = .ok genesis.config ∧
      Codec.fields.optional.read (mostDepth - 1) tree = .ok raw.config

/-- The first reading takes what is left of an object that the second one takes. -/
theorem Genesis.read_of_object {strikes : Nat} {text rest : Bytes} {members : Members}
    {genesis : Genesis} {raw : RawConfig} (hspans : (Tree.object members).Spans text rest)
    (hrest : skipBlank rest = [])
    (hgenesis : decodeStriking Genesis.codec.read strikes text = .ok genesis)
    (hraw : RawConfig.record.readObject (mostDepth - 1) members = .ok raw) :
    ∃ again, Genesis.record.readObject (mostDepth - 1) again = .ok genesis ∧
      again.last? "config" = members.last? "config" ∧ Genesis.record.AllLeft members again := by
  obtain ⟨⟨seen, after⟩, hmembers, -⟩ := bind_eq_ok_iff.mp hraw
  exact Genesis.cautious.left_of_decodeStriking strikes hspans hrest
    (RawConfig.wholeAt members hmembers) hgenesis

theorem shares_of_object {strikes : Nat} {text rest : Bytes} {members : Members}
    {genesis : Genesis} {raw : RawConfig} (hspans : (Tree.object members).Spans text rest)
    (hrest : skipBlank rest = [])
    (hgenesis : decodeStriking Genesis.codec.read strikes text = .ok genesis)
    (hraw : RawConfig.record.readObject (mostDepth - 1) members = .ok raw) :
    Shares genesis raw (members.last? "config") := by
  obtain ⟨again, hagain, hlast, -⟩ := Genesis.read_of_object hspans hrest hgenesis hraw
  have hholds := Record.holds_of_readObject Genesis.lawful hagain
  have hholds' := Record.holds_of_readObject RawConfig.lawful hraw
  refine ⟨fun habsent => ?_, fun tree hfound => ?_⟩
  · have hconfig := (hholds.absent _ (List.mem_cons_self ..) (hlast.trans habsent)).2
    have hkept := (hholds'.absent _ (List.mem_cons_self ..) habsent).2
    exact ⟨hconfig, hkept⟩
  · have hconfig := hholds.read _ (List.mem_cons_self ..) tree (hlast.trans hfound)
    have hkept := hholds'.read _ (List.mem_cons_self ..) tree hfound
    exact ⟨hconfig, hkept⟩

/-- The second reading takes a list with the configuration in it, or with nothing. -/
theorem RawConfig.read_array {items : Items} {raw : RawConfig}
    (h : RawConfig.record.read mostDepth (.array items) = .ok raw) :
    (items = .stop .closed ∧ raw.config = none) ∨ ∃ item, items = .more item (.stop .closed) ∧
      Codec.fields.optional.read (mostDepth - 1) item = .ok raw.config := by
  have hread : RawConfig.record.readItems (mostDepth - 1) RawConfig.record.fields 0 items
    RawConfig.record.blank = .ok raw := h
  cases items with
  | stop how =>
    obtain ⟨_, haccept, -⟩ := bind_eq_ok_iff.mp hread
    obtain rfl := accept_fault?_eq_ok haccept
    rw [Record.readItems_closed hread]
    exact .inl ⟨rfl, rfl⟩
  | more item rest =>
    obtain ⟨_, hfield, hread⟩ := bind_eq_ok_iff.mp hread
    obtain ⟨kept, hkept, ⟨⟩⟩ := bind_eq_ok_iff.mp hfield
    obtain ⟨_, hfinish, ⟨⟩⟩ := bind_eq_ok_iff.mp hread
    obtain rfl := Items.finish_eq_ok hfinish
    exact .inr ⟨item, rfl, hkept⟩

theorem Genesis.calm_whole : Genesis.codec.read.Calm Tree.Whole := by
  have hquantity : Quantity.codec.read.Calm Tree.Whole := Quantity.codec_calm
  refine Record.calm hereditary_whole ?_
  simp only [Genesis.record, List.forall_mem_cons]
  exact ⟨Codec.optional_calm ChainConfig.calm_whole, hquantity, hquantity, Bytes.codec_calm,
    hquantity, Codec.optional_calm UInt256.codec_calm, Fixed.calm_whole, Fixed.calm_whole,
    Alloc.calm hereditary_whole, hquantity, hquantity, Fixed.calm_whole,
    Codec.optional_calm hquantity, fun _ h => (nomatch h)⟩

/-- The first reading takes a list that the second one takes as it stands. -/
theorem Genesis.read_of_array {strikes : Nat} {text rest : Bytes} {items : Items}
    {genesis : Genesis} {raw : RawConfig} (hspans : (Tree.array items).Spans text rest)
    (hgenesis : decodeStriking Genesis.codec.read strikes text = .ok genesis)
    (hraw : RawConfig.record.read mostDepth (.array items) = .ok raw) :
    Genesis.record.readItems (mostDepth - 1) Genesis.record.fields 0 items
      Genesis.record.blank = .ok genesis := by
  have hwhole : (Tree.array items).Whole := by
    rcases RawConfig.read_array hraw with ⟨rfl, -⟩ | ⟨item, rfl, hkept⟩
    · exact ⟨1, .array [], rfl⟩
    · obtain ⟨value, hvalue⟩ := whole_of_kept hkept
      have hitems : (Items.more item (.stop .closed)).values (mostDepth - 1) = .ok [value] :=
        bind_eq_ok_iff.mpr ⟨value, hvalue, rfl⟩
      exact ⟨mostDepth, .array [value], bind_eq_ok_iff.mpr ⟨_, hitems, rfl⟩⟩
  have htree : readTree text = (.array items, some rest) := readTree_eq_some_iff.mpr hspans
  have hcalm : ¬ Strikes (Genesis.codec.read mostDepth (readTree text).1) := by
    rw [htree]
    exact Genesis.calm_whole mostDepth _ hwhole
  have hread := (decodeStriking_calm hcalm hgenesis).1
  rw [htree] at hread
  exact hread

theorem shares_of_array {strikes : Nat} {text rest : Bytes} {items : Items} {genesis : Genesis}
    {raw : RawConfig} (hspans : (Tree.array items).Spans text rest)
    (hgenesis : decodeStriking Genesis.codec.read strikes text = .ok genesis)
    (hraw : RawConfig.record.read mostDepth (.array items) = .ok raw) :
    Shares genesis raw (configTree? (.array items)) := by
  have hread := Genesis.read_of_array hspans hgenesis hraw
  rcases RawConfig.read_array hraw with ⟨rfl, hnone⟩ | ⟨item, rfl, hkept⟩
  · rw [Record.readItems_closed hread]
    exact ⟨fun _ => ⟨rfl, hnone⟩, fun _ h => (nomatch h)⟩
  · obtain ⟨_, hfield, hclosed⟩ := bind_eq_ok_iff.mp hread
    obtain ⟨config, hconfig, ⟨⟩⟩ := bind_eq_ok_iff.mp hfield
    rw [Record.readItems_closed hclosed]
    refine ⟨fun h => (nomatch h), fun tree hfound => ?_⟩
    cases hfound
    exact ⟨hconfig, hkept⟩

/-- A document that is read stands in its text to the end, and nothing is struck out of it for the
second reading. -/
theorem RawConfig.spans_of_parse {text : List Char} {raw : RawConfig}
    (h : RawConfig.record.codec.parse text = .ok raw) :
    ∃ rest, (readTree (Utf8.ofChars text)).1.Spans (Utf8.ofChars text) rest ∧
      skipBlank rest = [] ∧
        RawConfig.record.read mostDepth (readTree (Utf8.ofChars text)).1 = .ok raw := by
  obtain ⟨hread, rest, hsome, hrest⟩ := decodeStriking_calm (RawConfig.calm _ _ trivial) h
  exact ⟨rest, readTree_eq_some_iff.mp (Prod.ext rfl hsome), hrest, hread⟩

/-- Both readings of a document come upon its configuration in the same place. -/
theorem ParsedGenesis.shares {text : List Char} {parsed : ParsedGenesis}
    (h : ParsedGenesis.parse text = .ok parsed) :
    ∃ raw, RawConfig.record.codec.parse text = .ok raw ∧
      parsed.override = raw.config.getD [] ∧
        Shares parsed.genesis raw (configTree? (readTree (Utf8.ofChars text)).1) := by
  obtain ⟨genesis, hgenesis, h⟩ := bind_eq_ok_iff.mp h
  obtain ⟨raw, hraw, ⟨⟩⟩ := bind_eq_ok_iff.mp h
  refine ⟨raw, hraw, rfl, ?_⟩
  obtain ⟨rest, hspans, hrest, hread⟩ := RawConfig.spans_of_parse hraw
  cases htree : (readTree (Utf8.ofChars text)).1 with
  | object members =>
    rw [htree] at hread hspans
    exact shares_of_object hspans hrest hgenesis hread
  | array items =>
    rw [htree] at hread hspans
    exact shares_of_array hspans hgenesis hread
  | _ =>
    rw [htree] at hread
    cases hread

/-- Where the first reading finds what it makes of a document that both take. -/
theorem ParsedGenesis.genesis_cases {text : List Char} {parsed : ParsedGenesis}
    (h : ParsedGenesis.parse text = .ok parsed) :
    (∃ members again, (readTree (Utf8.ofChars text)).1 = .object members ∧
      Genesis.record.readObject (mostDepth - 1) again = .ok parsed.genesis ∧
        Genesis.record.AllLeft members again) ∨
    ∃ items, (readTree (Utf8.ofChars text)).1 = .array items ∧
      (items = .stop .closed ∨ ∃ item, items = .more item (.stop .closed)) ∧
        Genesis.record.readItems (mostDepth - 1) Genesis.record.fields 0 items
          Genesis.record.blank = .ok parsed.genesis := by
  obtain ⟨genesis, hgenesis, h⟩ := bind_eq_ok_iff.mp h
  obtain ⟨raw, hraw, ⟨⟩⟩ := bind_eq_ok_iff.mp h
  obtain ⟨rest, hspans, hrest, hread⟩ := RawConfig.spans_of_parse hraw
  cases htree : (readTree (Utf8.ofChars text)).1 with
  | object members =>
    rw [htree] at hread hspans
    obtain ⟨again, hagain, -, hleft⟩ := Genesis.read_of_object hspans hrest hgenesis hread
    exact .inl ⟨members, again, rfl, hagain, hleft⟩
  | array items =>
    rw [htree] at hread hspans
    refine .inr ⟨items, rfl, ?_, Genesis.read_of_array hspans hgenesis hread⟩
    rcases RawConfig.read_array hread with ⟨hitems, -⟩ | ⟨item, hitems, -⟩
    · exact .inl hitems
    · exact .inr ⟨item, hitems⟩
  | _ =>
    rw [htree] at hread
    cases hread

/-- The two readings of a document agree on its configuration, which is found at `found`. -/
structure ParsedGenesis.Agrees (parsed : ParsedGenesis) (raw : RawConfig) (found : Option Tree) :
    Prop where
  override_eq : parsed.override = raw.config.getD []
  /-- There is no configuration for both, or for neither. -/
  none_iff : parsed.genesis.config = none ↔ raw.config = none
  absent_iff : raw.config = none ↔ found = none ∨ found = some .null
  nil : parsed.genesis.config = none → parsed.override = []
  /-- Both are read from one place. -/
  place : ∀ config, parsed.genesis.config = some config → ∃ tree, found = some tree ∧
    ChainConfig.codec.read (mostDepth - 1) tree = .ok config ∧
      Codec.fields.read (mostDepth - 1) tree = .ok parsed.override
  /-- What is kept as it stands is the configuration again. -/
  decode : ∀ config, parsed.genesis.config = some config →
    ChainConfig.codec.read mostDepth (Json.object parsed.override).tree = .ok config

theorem Shares.agreement {parsed : ParsedGenesis} {raw : RawConfig} {found : Option Tree}
    (h : Shares parsed.genesis raw found) (hoverride : parsed.override = raw.config.getD []) :
    parsed.Agrees raw found := by
  obtain ⟨genesis, override⟩ := parsed
  dsimp only at h hoverride
  subst hoverride
  cases found with
  | none =>
    obtain ⟨hconfig, hkept⟩ := h.absent rfl
    refine ⟨rfl, ?_, ?_, fun _ => ?_, fun config hsome => ?_, fun config hsome => ?_⟩
    · simp [hconfig, hkept]
    · simp [hkept]
    · simp [hkept]
    · rw [hconfig] at hsome
      cases hsome
    · rw [hconfig] at hsome
      cases hsome
  | some tree =>
    obtain ⟨hconfig, hkept⟩ := h.read tree rfl
    rcases found_cases hconfig hkept with ⟨rfl, hconfig, hkept⟩ |
      ⟨chain, fields, hne, hconfig, hkept, hchain, hfields, hvalue⟩
    · refine ⟨rfl, ?_, ?_, fun _ => ?_, fun config hsome => ?_, fun config hsome => ?_⟩
      · simp [hconfig, hkept]
      · simp [hkept]
      · simp [hkept]
      · rw [hconfig] at hsome
        cases hsome
      · rw [hconfig] at hsome
        cases hsome
    · refine ⟨rfl, ?_, ?_, fun hnone => ?_, fun config hsome => ?_, fun config hsome => ?_⟩
      · simp [hconfig, hkept]
      · simp [hkept, hne]
      · rw [hconfig] at hnone
        cases hnone
      · obtain rfl := Option.some.inj (hconfig.symm.trans hsome)
        refine ⟨tree, rfl, hchain, ?_⟩
        rw [hkept]
        exact hfields
      · obtain rfl := Option.some.inj (hconfig.symm.trans hsome)
        rw [hkept]
        exact ChainConfig.faithful hvalue hchain (Nat.sub_le _ _)

/-- **The configuration and what is kept of it as it stands are the same for every document that
is read.** -/
theorem ParsedGenesis.agrees {text : List Char} {parsed : ParsedGenesis}
    (h : ParsedGenesis.parse text = .ok parsed) :
    ∃ raw, RawConfig.record.codec.parse text = .ok raw ∧
      parsed.Agrees raw (configTree? (readTree (Utf8.ofChars text)).1) := by
  obtain ⟨raw, hraw, hoverride, hshares⟩ := ParsedGenesis.shares h
  exact ⟨raw, hraw, hshares.agreement hoverride⟩

/-- A document with a section as a list, and with half a character as an item too many in the list
of a hash. -/
def struckDocument : List Char :=
  ("\x7b\"config\":\x7b\"chainId\":7,\"clique\":[5]\x7d,\"mixHash\":[" ++
    String.join (List.replicate 32 "0,") ++ "\"\\ud800\"]\x7d").toList

theorem ParsedGenesis.agrees_struckDocument :
    ∃ parsed, ParsedGenesis.parse struckDocument = .ok parsed ∧
      ∃ raw, RawConfig.record.codec.parse struckDocument = .ok raw ∧
        parsed.Agrees raw (configTree? (readTree (Utf8.ofChars struckDocument)).1) := by
  have hok : (ParsedGenesis.parse struckDocument).isOk = true := by decide +kernel
  obtain ⟨parsed, hparse⟩ := exists_ok_of_isOk hok
  exact ⟨parsed, hparse, ParsedGenesis.agrees hparse⟩

end Provision
