import Mathlib.Data.Nat.Log
import Provision.Genesis.Block

/-! What the genesis block shows of the chain configuration.

The header takes one bit from the configuration: whether London is active at the block. It decides
over the base fee and over nothing else, so documents that differ in their configuration have the
same block if London is active in both or in neither. The bit can be seen, too: a header with a
base fee has one item more than a header without, and a list that goes on has a longer encoding,
`Rlp.length_encode_append`. All this is said of two configurations in `Genesis.showsLondon`, and
either of them may be left out of the document. -/
namespace Provision

/-! ### Longer lists have longer encodings -/

theorem Bytes.width_mono {value other : Nat} (h : value ≤ other) :
    width value ≤ width other := by
  unfold width
  by_cases hvalue : value = 0
  · simp [hvalue]
  · have hother : other ≠ 0 := by omega
    have hlog : value.log2 ≤ other.log2 := by
      rw [Nat.log2_eq_log_two, Nat.log2_eq_log_two]
      exact Nat.log_mono_right h
    rw [if_neg hvalue, if_neg hother]
    omega

namespace Rlp

theorem length_mark (first length : Nat) :
    (mark first length).length = if length ≤ 55 then 1 else Bytes.width length + 1 := by
  unfold mark
  split
  · rfl
  · simp [Bytes.minimal]

theorem length_mark_mono (first : Nat) {length other : Nat} (h : length ≤ other) :
    (mark first length).length ≤ (mark first other).length := by
  have hwidth := Bytes.width_mono h
  rw [length_mark, length_mark]
  split <;> split <;> omega

theorem mark_ne_nil (first length : Nat) : mark first length ≠ [] := by
  unfold mark
  split <;> exact List.cons_ne_nil _ _

theorem encode_ne_nil (item : Rlp) : item.encode ≠ [] := by
  cases item with
  | bytes content =>
    rw [encode, encodeBytes.eq_def]
    split
    · split <;> simp
    · simp [mark_ne_nil]
  | list items => simp [encode, mark_ne_nil]

theorem encodeItems_append (items more : List Rlp) :
    encodeItems (items ++ more) = encodeItems items ++ encodeItems more := by
  induction items with
  | nil => rfl
  | cons item rest ih => rw [List.cons_append, encodeItems, encodeItems, ih, List.append_assoc]

/-- A list with further items has a longer encoding. -/
theorem length_encode_append (items : List Rlp) (item : Rlp) (more : List Rlp) :
    (encode (.list items)).length < (encode (.list (items ++ item :: more))).length := by
  have hitem : 0 < item.encode.length := List.length_pos_iff.mpr item.encode_ne_nil
  have hpayload : (encodeItems (items ++ item :: more)).length =
      (encodeItems items).length + item.encode.length + (encodeItems more).length := by
    rw [encodeItems_append, encodeItems, List.length_append, List.length_append, Nat.add_assoc]
  have hmark := length_mark_mono 0xc0
    (show (encodeItems items).length ≤ (encodeItems (items ++ item :: more)).length by omega)
  rw [encode, encode, List.length_append, List.length_append]
  omega

end Rlp

/-- A base fee makes the encoding of a header longer. -/
theorem Header.length_encode_fee {header : Header} (h : header.withdrawalsRoot = none)
    (fee : UInt64) : (encode { header with baseFeePerGas := none }).length <
      (encode { header with baseFeePerGas := some fee }).length := by
  obtain ⟨items, hnone, hsome⟩ : ∃ items,
      toRlp { header with baseFeePerGas := none } = .list items ∧
        toRlp { header with baseFeePerGas := some fee } =
          .list (items ++ [Rlp.number fee.toNat]) := by
    rw [toRlp, toRlp, h]
    exact ⟨_, rfl, rfl⟩
  rw [encode, encode, hnone, hsome]
  exact Rlp.length_encode_append items _ []

/-! ### One document under two configurations -/

namespace Genesis

/-- The document with another configuration, or with none. -/
def withConfig (genesis : Genesis) (config : Option ChainConfig) : Genesis :=
  { genesis with config }

/-- Is London active at the block under this configuration? Without one, the configuration is
`ChainConfig.dev`. -/
def londonUnder (genesis : Genesis) (config : Option ChainConfig) : Bool :=
  (config.getD .dev).isLondon genesis.number

variable (genesis : Genesis) (config first second : Option ChainConfig)

theorem baseFeePerGas_header : (genesis.withConfig config).header.baseFeePerGas =
    if genesis.londonUnder config then some (genesis.baseFeePerGas.getD initialBaseFee)
    else none :=
  rfl

/-- The header under another configuration is the same one with that configuration's base fee. -/
theorem header_withConfig : (genesis.withConfig second).header =
    { (genesis.withConfig first).header with
      baseFeePerGas := (genesis.withConfig second).header.baseFeePerGas } :=
  rfl

variable {genesis config first second}

theorem header_eq_of_london (h : genesis.londonUnder first = genesis.londonUnder second) :
    (genesis.withConfig first).header = (genesis.withConfig second).header := by
  have hfee : (genesis.withConfig second).header.baseFeePerGas =
      (genesis.withConfig first).header.baseFeePerGas := by
    rw [baseFeePerGas_header, baseFeePerGas_header, h]
  rw [header_withConfig genesis first second, hfee]

/-- Under a configuration without London the encoding is shorter than under one with it. -/
theorem length_encode_header (hfirst : genesis.londonUnder first = false)
    (hsecond : genesis.londonUnder second = true) :
    (genesis.withConfig first).header.encode.length <
      (genesis.withConfig second).header.encode.length := by
  have hnone := baseFeePerGas_header genesis first
  have hsome := baseFeePerGas_header genesis second
  rw [hfirst, if_neg Bool.false_ne_true] at hnone
  rw [hsecond, if_pos rfl] at hsome
  rw [header_withConfig genesis first second, header_withConfig genesis first first, hnone, hsome]
  exact Header.length_encode_fee rfl _

theorem encode_header_eq_iff :
    (genesis.withConfig first).header.encode = (genesis.withConfig second).header.encode ↔
      genesis.londonUnder first = genesis.londonUnder second := by
  refine ⟨fun h => ?_, fun h => by rw [header_eq_of_london h]⟩
  have hlength := congrArg List.length h
  cases hfirst : genesis.londonUnder first <;> cases hsecond : genesis.londonUnder second
  · rfl
  · exact absurd hlength (length_encode_header hfirst hsecond).ne
  · exact absurd hlength (length_encode_header hsecond hfirst).ne'
  · rfl

/-- Where London is not active, the base fee that a document sets is not read. -/
theorem header_eq_of_fee (h : genesis.chainConfig.isLondon genesis.number = false)
    (fee : Option UInt64) : header { genesis with baseFeePerGas := fee } = genesis.header := by
  have hnone : genesis.blockBaseFee = none := by
    rw [blockBaseFee, h, if_neg Bool.false_ne_true]
  have hset : blockBaseFee { genesis with baseFeePerGas := fee } = none := by
    rw [blockBaseFee, show chainConfig { genesis with baseFeePerGas := fee } =
      genesis.chainConfig from rfl, h, if_neg Bool.false_ne_true]
  rw [header, header, hset, hnone]
  rfl

/-- What the block of a document shows of its configuration, by two of them. -/
structure ShowsLondon (genesis : Genesis) (first second : Option ChainConfig) : Prop where
  /-- Every field but the base fee is the same. -/
  others : { (genesis.withConfig first).header with baseFeePerGas := none } =
    { (genesis.withConfig second).header with baseFeePerGas := none }
  /-- If London is active under both or under neither, the headers are the same, and the hashes. -/
  same : genesis.londonUnder first = genesis.londonUnder second →
    (genesis.withConfig first).header = (genesis.withConfig second).header ∧
      (genesis.withConfig first).hash = (genesis.withConfig second).hash
  /-- Otherwise the bytes that are hashed are not the same. -/
  encode : (genesis.withConfig first).header.encode = (genesis.withConfig second).header.encode ↔
    genesis.londonUnder first = genesis.londonUnder second
  /-- There is a base fee exactly if London is active. -/
  isSome : (genesis.withConfig first).header.baseFeePerGas.isSome ↔
    genesis.londonUnder first = true
  /-- It is the one that the document sets, or the initial one. -/
  fee : ∀ fee, (genesis.withConfig first).header.baseFeePerGas = some fee →
    fee = genesis.baseFeePerGas.getD initialBaseFee
  /-- Where London is not active, what the document sets does not show. -/
  unread : genesis.londonUnder first = false → ∀ fee,
    header { genesis.withConfig first with baseFeePerGas := fee } =
        (genesis.withConfig first).header ∧
      hash { genesis.withConfig first with baseFeePerGas := fee } =
        (genesis.withConfig first).hash

/-- **The configuration decides over the block of a document only through London, and the document
may leave the configuration out.** -/
theorem showsLondon (genesis : Genesis) (first second : Option ChainConfig) :
    genesis.ShowsLondon first second where
  others := rfl
  same := fun h => by
    have hheader := header_eq_of_london h
    exact ⟨hheader, congrArg Header.hash hheader⟩
  encode := encode_header_eq_iff
  isSome := by
    rw [baseFeePerGas_header]
    cases genesis.londonUnder first <;> simp
  fee := fun fee h => by
    rw [baseFeePerGas_header] at h
    split at h
    · exact (Option.some.inj h).symm
    · cases h
  unread := fun h fee => by
    have hheader := @header_eq_of_fee (genesis.withConfig first) h fee
    exact ⟨hheader, congrArg Header.hash hheader⟩

/-- A document without a configuration is past London, like one that has it from block 4 on. -/
example : londonUnder { number := 4 } none = true ∧
    londonUnder { number := 4 } (some { londonBlock := some 4 }) = true ∧
    londonUnder { number := 4 } (some { londonBlock := some 5 }) = false ∧
    londonUnder { number := 4 } (some {}) = false := by
  decide

end Genesis

end Provision
