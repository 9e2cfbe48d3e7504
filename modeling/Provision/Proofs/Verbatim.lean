import Provision.Proofs.Recalling

/-! The record of a configuration, written again without an override.

Set-up writes the members of a configuration in the order of its fields. A merged record is
written from a map, which has its keys in order, even if nothing is merged into it. Both are texts
of one value, but a text says in which order the members stand, `print_injective`. So the two are
the same bytes exactly for the configurations whose members are in order from the start,
`ChainConfig.InOrder`, and `ChainConfig.rewritten_iff_inOrder` says the same of the record in a
store. The configuration of a document that has none is not among them. -/
namespace Provision

namespace Json

/-! ### What a text stands for -/

mutual

theorem tree_injective : (value other : Json) → value.tree = other.tree → value = other
  | .null, other, h | .bool _, other, h | .number _, other, h | .string _, other, h => by
    cases other <;> cases h; rfl
  | .array items, other, h => by
    cases other with
    | array others => rw [treeItems_injective items others (Tree.array.inj h)]
    | _ => cases h
  | .object members, other, h => by
    cases other with
    | object others => rw [treeMembers_injective members others (Tree.object.inj h)]
    | _ => cases h

theorem treeItems_injective : (items others : List Json) →
    treeItems items = treeItems others → items = others
  | [], others, h => by
    cases others with
    | nil => rfl
    | cons => cases h
  | item :: rest, others, h => by
    cases others with
    | nil => cases h
    | cons other others =>
      obtain ⟨hitem, hrest⟩ := Items.more.inj h
      rw [tree_injective item other hitem, treeItems_injective rest others hrest]

theorem treeMembers_injective : (members others : List (String × Json)) →
    treeMembers members = treeMembers others → members = others
  | [], others, h => by
    cases others with
    | nil => rfl
    | cons => cases h
  | (key, value) :: rest, others, h => by
    cases others with
    | nil => cases h
    | cons other others =>
      obtain ⟨hkey, hvalue, hrest⟩ := Members.more.inj h
      rw [tree_injective value other.2 hvalue, treeMembers_injective rest others hrest,
        Except.ok.inj hkey]

end

/-- Two values that are read back as they were have different texts. -/
theorem print_injective {value other : Json} (h : value.reread = some value)
    (hother : other.reread = some other) (same : value.print = other.print) : value = other := by
  have htree := readTree_print h
  rw [same, readTree_print hother] at htree
  exact tree_injective value other (Prod.mk.inj htree).1.symm

/-! ### Values whose keys are in order -/

theorem Written.fits_sorted {depth : Nat} {value : Json} (h : Written depth value) :
    Fits depth value.sorted :=
  fits_of_value value.tree h.value_tree

theorem Written.sorted {depth : Nat} {value : Json} (h : Written depth value) :
    Written depth value.sorted := by
  induction h with
  | object _ ih => exact .object (forall_sortedMembers (P := Written _) ih (List.forall_mem_nil _))
  | null => exact .null
  | bool value => exact .bool value
  | natural value => exact .natural value
  | string value => exact .string value

/-- The text is the one with the keys in order exactly if the keys are in order. -/
theorem Written.print_sorted_iff {depth : Nat} {value : Json} (h : Written depth value) :
    value.sorted.print = value.print ↔ Fits depth value := by
  constructor
  · intro hsame
    have hsorted := print_injective h.sorted.reread_eq h.reread_eq hsame
    rw [← hsorted]
    exact h.fits_sorted
  · intro hfits
    rw [hfits.sorted_eq]

theorem Codec.fits_optional {α : Type} {codec : Codec α} {value : Option α} {depth : Nat}
    (h : ∀ content, value = some content → Fits depth (codec.write content)) :
    Fits depth (codec.optional.write value) := by
  cases value with
  | none => exact .null
  | some content => exact h content rfl

theorem RecordField.fits_of_write {σ : Type} {field : RecordField σ} {value : σ} {depth : Nat}
    (h : Fits depth (field.codec.write (field.get value))) :
    ∀ member, field.member? value = some member → Fits depth member.2 := by
  intro member hmember
  simp only [member?] at hmember
  split at hmember
  · cases hmember
  · cases hmember
    exact h

/-- What a field that may be absent holds is written as it is. -/
theorem RecordField.fits_of_optional {σ α : Type} {name : String} {codec : Codec α}
    {get : σ → Option α} {set : Option α → σ → σ} {value : σ} {depth : Nat} {content : α}
    (h : ∀ member, (RecordField.optional name codec get set).member? value = some member →
      Fits depth member.2) (hcontent : get value = some content) :
    Fits depth (codec.write content) := by
  refine h (name, codec.write content) ?_
  show (if (get value).isNone then none else some (name, codec.optional.write (get value))) = _
  rw [hcontent]
  rfl

theorem Record.fits_members_iff {σ : Type} {record : Record σ} {value : σ} {depth : Nat} :
    (∀ member ∈ record.members value, Fits depth member.2) ↔
      ∀ field ∈ record.fields, ∀ member, field.member? value = some member →
        Fits depth member.2 := by
  constructor
  · intro h field hfield member hmember
    exact h member (mem_members_iff.mpr ⟨field, hfield, hmember⟩)
  · intro h member hmember
    obtain ⟨field, hfield, hmember⟩ := mem_members_iff.mp hmember
    exact h field hfield member hmember

end Json

/-! ### Configurations whose members are in order -/

open Json

/-- The members of a clique section are never in order: the period is written before the epoch. -/
theorem CliqueConfig.not_fits (settings : CliqueConfig) : ¬ Fits 1 (codec.write settings) := by
  intro h
  have hkeys : ["period", "epoch"].Pairwise (· < ·) :=
    List.pairwise_map.mpr (fits_object_iff.mp h).ascending
  exact absurd hkeys (by decide)

/-- Those of an istanbul section are in order if it leaves the last one out. -/
theorem IstanbulConfig.fits_iff (settings : IstanbulConfig) :
    Fits 1 (codec.write settings) ↔ settings.ceil2Nby3Block = none := by
  have hnumber : ∀ (name : String) (value : UInt64), ∀ member ∈ [(name, Json.natural value)],
      Fits 0 member.2 := fun name value => List.forall_mem_singleton.mpr (.number _)
  obtain ⟨epoch, policy, ceil2Nby3Block⟩ := settings
  cases ceil2Nby3Block with
  | none =>
    have hkeys : ["epoch", "policy"].Pairwise (· < ·) := by decide
    have hfit : Fields.Fit 0 [("epoch", .natural epoch), ("policy", .natural policy)] :=
      ⟨List.pairwise_map.mp hkeys, List.forall_mem_cons.mpr ⟨.number _, hnumber _ _⟩⟩
    exact iff_of_true hfit.object rfl
  | some block =>
    refine iff_of_false (fun h => ?_) (fun h => nomatch h)
    have hkeys : ["epoch", "policy", "ceil2Nby3Block"].Pairwise (· < ·) :=
      List.pairwise_map.mpr (fits_object_iff.mp h).ascending
    exact absurd hkeys (by decide)

namespace ChainConfig

/-- The members that are written for a configuration have their keys in order, at every depth. -/
structure InOrder (config : ChainConfig) : Prop where
  members : Dictionary.Ascending config.members
  clique : config.clique = none
  istanbul : ∀ settings, config.istanbul = some settings → settings.ceil2Nby3Block = none

variable (config : ChainConfig)

/-- A member is in order unless it is a section. -/
theorem fits_member (hclique : config.clique = none)
    (histanbul : ∀ settings, config.istanbul = some settings → settings.ceil2Nby3Block = none) :
    ∀ field ∈ record.fields, Fits 1 (field.codec.write (field.get config)) := by
  have hnumber : ∀ value : Option UInt64, Fits 1 (Codec.uint64.optional.write value) :=
    fun _ => Codec.fits_optional fun _ _ => .number _
  have hhash : Fits 1 ((Fixed.codec : Codec Hash).optional.write config.eip150Hash) :=
    Codec.fits_optional fun _ _ => .string _
  have hethash : Fits 1 (EthashConfig.codec.optional.write config.ethash) :=
    Codec.fits_optional fun _ _ => Fields.Fit.nil.object
  have hnoClique : Fits 1 (CliqueConfig.codec.optional.write config.clique) := by
    rw [hclique]
    exact .null
  have hshort : Fits 1 (IstanbulConfig.codec.optional.write config.istanbul) :=
    Codec.fits_optional fun settings hsome => settings.fits_iff.mpr (histanbul settings hsome)
  simp only [record, List.forall_mem_cons]
  exact ⟨hnumber _, hnumber _, hnumber _, .bool _, hnumber _, hhash, hnumber _, hnumber _,
    hnumber _, hnumber _, hnumber _, hnumber _, hnumber _, hnumber _, hnumber _, hethash,
    hnoClique, hshort, .bool _, hnumber _, List.forall_mem_nil _⟩

theorem fits_write_iff : Fits 2 (codec.write config) ↔ config.InOrder := by
  have hclique : RecordField.optional "clique" CliqueConfig.codec (·.clique)
      (fun v c => { c with clique := v }) ∈ record.fields := by
    simp [record]
  have histanbul : RecordField.optional "istanbul" IstanbulConfig.codec (·.istanbul)
      (fun v c => { c with istanbul := v }) ∈ record.fields := by
    simp [record]
  show Fits 2 (.object config.members) ↔ _
  rw [fits_object_iff]
  constructor
  · intro h
    have hfields := Record.fits_members_iff.mp h.values
    refine ⟨h.ascending, ?_, fun settings hsome => ?_⟩
    · apply Option.eq_none_iff_forall_ne_some.mpr
      intro settings hsome
      exact settings.not_fits (RecordField.fits_of_optional (hfields _ hclique) hsome)
    · exact settings.fits_iff.mp (RecordField.fits_of_optional (hfields _ histanbul) hsome)
  · intro h
    refine ⟨h.members, Record.fits_members_iff.mpr fun field hfield => ?_⟩
    exact RecordField.fits_of_write (config.fits_member h.clique h.istanbul field hfield)

/-- A configuration that is merged with nothing is written with its keys in order. -/
theorem mergedText_nil : config.mergedText [] = (codec.write config).sorted.print := by
  rw [mergedText, merged, mergeFields]
  rfl

/-- The record without an override is the text of the configuration exactly if its members are in
order. -/
theorem mergedBytes_nil_iff : config.mergedBytes [] = config.bytes ↔ config.InOrder := by
  have hreturns : codec.Returns 2 config := returns config
  have hprint : config.print = (codec.write config).print := rfl
  unfold mergedBytes bytes
  rw [Text.Utf8.ofChars_inj, mergedText_nil, hprint, hreturns.written.print_sorted_iff,
    config.fits_write_iff]

/-- Both are texts of the same value. -/
theorem parseBytes_mergedBytes_nil :
    parseBytes (config.mergedBytes []) = .ok (.object config.fields) ∧
      parseBytes config.bytes = .ok (.object config.fields) := by
  have hreturns : codec.Returns mostDepth config := returns config
  refine ⟨?_, config.parse_print_fields⟩
  unfold mergedBytes
  rw [mergedText_nil]
  exact (parse_print_iff_reread hreturns.written.fits_sorted).mpr hreturns.written.sorted.reread_eq

end ChainConfig

/-! ### The record in a store -/

namespace Store

/-- The record of a configuration has just been written for a hash, with the block or alone. -/
inductive Recorded (hash : Hash) (config : ChainConfig) (store : Store) : Prop
  | setup {before : Store} {genesis : Genesis}
    (done : before.setup genesis = (.ok (config, hash), store)) : Recorded hash config store
  | alone {before : Store} (done : before.writeConfig hash config = (.ok (), store)) :
    Recorded hash config store

variable {store after : Store} {hash : Hash} {config : ChainConfig}

/-- The transaction was that of the block, or that of the record alone. -/
theorem Recorded.written_cases (h : store.Recorded hash config) : ∃ before left,
    (∃ genesis : Genesis, config = genesis.chainConfig ∧ hash = genesis.hash ∧
        store = written before left (.batch genesis.entries)) ∨
      store = written before left (.put (Key.config hash).encode config.bytes) := by
  cases h with
  | @setup before genesis done =>
    obtain ⟨hresult, left, ⟨-, rfl⟩ | ⟨-, rfl⟩⟩ := setup_ok genesis done
    · cases hresult
      exact ⟨before, left, .inl ⟨genesis, rfl, rfl, rfl⟩⟩
    · cases hresult
      exact ⟨before, left, .inr rfl⟩
  | @alone before done =>
    unfold writeConfig at done
    split at done
    · next hput =>
      cases done
      obtain ⟨left, rfl⟩ := commit_eq_ok hput
      exact ⟨before, left, .inr rfl⟩
    · cases done

/-- The record is the text of the configuration. -/
theorem Recorded.found (h : store.Recorded hash config) :
    store.table.find? (Key.config hash).encode = some config.bytes := by
  obtain ⟨before, left, ⟨genesis, rfl, rfl, rfl⟩ | rfl⟩ := h.written_cases
  · rw [find?_written_batch]
    simp [Genesis.recordsWith, Dictionary.find?_cons, Genesis.hash]
  · rw [find?_written_put, if_pos rfl]

/-- What has just been written has a table. -/
theorem Recorded.hasTable (h : store.Recorded hash config) : store.hasTable = true := by
  obtain ⟨before, left, ⟨genesis, -, -, rfl⟩ | rfl⟩ := h.written_cases
  · rfl
  · rfl

/-- A transaction on a store that has its table makes no difference to what can be read. -/
theorem readError?_written_of_hasTable (h : store.hasTable = true) (left : Allowance)
    (transaction : Transaction) :
    (store.written left transaction).readError? = store.readError? := by
  rw [readError?, readError?, h]
  rfl

theorem persistMerged_nil (recorded : store.Recorded hash config)
    (done : store.persistMerged hash config [] = (.ok (), after)) :
    ((∀ key, after.table.find? key = store.table.find? key) ↔ config.InOrder) ∧
      after.readConfig hash = store.readConfig hash := by
  obtain ⟨left, rfl⟩ := commit_eq_ok done
  obtain ⟨hmerged, hplain⟩ := config.parseBytes_mergedBytes_nil
  constructor
  · rw [← config.mergedBytes_nil_iff]
    constructor
    · intro h
      have hkey := h (Key.config hash).encode
      rw [find?_written_put, if_pos rfl, recorded.found] at hkey
      exact Option.some.inj hkey
    · intro hsame key
      rw [written_put_table, Dictionary.find?_insert, hsame]
      split
      · next hkey =>
        rw [← hkey, recorded.found]
      · rfl
  · have hkey := find?_written_put store left (.config hash) (.config hash) (config.mergedBytes [])
    rw [if_pos rfl] at hkey
    unfold readConfig get
    rw [readError?_written_of_hasTable recorded.hasTable, hkey, recorded.found]
    cases store.readError? with
    | none => simp only [hmerged, hplain]
    | some e => rfl

end Store

namespace ChainConfig

/-- **Written again without an override, the record of a configuration stays the same bytes exactly
if the members of the configuration are in order.** It is read as the same value in any case. -/
theorem rewritten_iff_inOrder (config : ChainConfig) :
    (config.mergedBytes [] = config.bytes ↔ config.InOrder) ∧
      parseBytes (config.mergedBytes []) = parseBytes config.bytes ∧
      ∀ hash store after, Store.Recorded hash config store →
        store.persistMerged hash config [] = (.ok (), after) →
        ((∀ key, after.table.find? key = store.table.find? key) ↔ config.InOrder) ∧
          after.readConfig hash = store.readConfig hash := by
  obtain ⟨hmerged, hplain⟩ := config.parseBytes_mergedBytes_nil
  refine ⟨config.mergedBytes_nil_iff, hmerged.trans hplain.symm, ?_⟩
  intro hash store after recorded done
  exact Store.persistMerged_nil recorded done

/-- Two members in order, and the configuration of a document that has none. -/
theorem rewritten_iff_inOrder_two :
    mergedBytes { chainId := some 10, homesteadBlock := some 0 } [] =
        bytes { chainId := some 10, homesteadBlock := some 0 } ∧
      ∃ store after, Store.Recorded Fixed.zero dev store ∧
        store.persistMerged Fixed.zero dev [] = (.ok (), after) ∧
        ¬ (∀ key, after.table.find? key = store.table.find? key) ∧
        after.readConfig Fixed.zero = store.readConfig Fixed.zero := by
  have htwo : InOrder { chainId := some 10, homesteadBlock := some 0 } := by
    refine ⟨?_, rfl, fun _ h => nomatch h⟩
    unfold Dictionary.Ascending
    decide +kernel
  have hdev : ¬ dev.InOrder := by
    intro h
    have hmembers := h.members
    unfold Dictionary.Ascending at hmembers
    revert hmembers
    decide +kernel
  have hrecorded : Store.Recorded Fixed.zero dev (Store.writeConfig {} Fixed.zero dev).2 :=
    @Store.Recorded.alone _ _ _ {} rfl
  obtain ⟨hsame, hread⟩ := (rewritten_iff_inOrder dev).2.2 _ _ _ hrecorded rfl
  exact ⟨(rewritten_iff_inOrder _).1.mpr htwo, _, _, hrecorded, rfl,
    fun hall => hdev (hsame.mp hall), hread⟩

/-- The configuration of a document that has none is written from the chain on, and with its keys
in order from the Berlin block on. -/
theorem dev_mergedBytes_ne : dev.mergedBytes [] ≠ dev.bytes := by
  decide +kernel

end ChainConfig

end Provision
