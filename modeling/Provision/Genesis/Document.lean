import Provision.Genesis.ChainConfig
import Provision.Genesis.Quantity
import Provision.Genesis.Storage

/-! The genesis document: the first block of a chain, the accounts that exist in it, and the
chain configuration. -/
namespace Provision

open Json

structure Account where
  code : Option Bytes := none
  storage : Storage := []
  balance : UInt256 := 0
  nonce : UInt64 := 0
deriving DecidableEq

/-- Accounts by address. -/
abbrev Alloc := Dictionary Address Account

structure Genesis where
  config : Option ChainConfig := none
  nonce : UInt64 := 0
  timestamp : UInt64 := 0
  extraData : Bytes := []
  gasLimit : UInt64 := 0
  difficulty : Option UInt256 := none
  mixHash : Hash := Fixed.zero
  coinbase : Address := Fixed.zero
  alloc : Alloc := []
  number : UInt64 := 0
  gasUsed : UInt64 := 0
  parentHash : Hash := Fixed.zero
  baseFeePerGas : Option UInt64 := none
deriving DecidableEq

namespace Account

/-- Only the balance has to be there. -/
def record : Record Account where
  name := "GenesisAccount"
  fields :=
    [(RecordField.optional "code" Bytes.codec (·.code) fun v a => { a with code := v }).withDefault,
      (RecordField.defaulted "storage" Storage.codec (·.storage)
        fun v a => { a with storage := v }).omitting List.isEmpty,
      { name := "balance", presence := .required, codec := UInt256.codec,
        get := (·.balance), set := fun v a => { a with balance := v } },
      .defaulted "nonce" Quantity.codec (·.nonce) fun v a => { a with nonce := v }]
  blank := {}

def codec : Codec Account := record.codec

end Account

namespace Alloc

def codec : Codec Alloc := Codec.dictionary Fixed.ofText Fixed.toText Account.codec

end Alloc

namespace Genesis

def record : Record Genesis where
  name := "Genesis"
  fields :=
    [(RecordField.optional "config" ChainConfig.codec (·.config)
        fun v g => { g with config := v }).withDefault,
      .defaulted "nonce" Quantity.codec (·.nonce) fun v g => { g with nonce := v },
      .defaulted "timestamp" Quantity.codec (·.timestamp) fun v g => { g with timestamp := v },
      .defaulted "extraData" Bytes.codec (·.extraData) fun v g => { g with extraData := v },
      .defaulted "gasLimit" Quantity.codec (·.gasLimit) fun v g => { g with gasLimit := v },
      (RecordField.optional "difficulty" UInt256.codec (·.difficulty)
        fun v g => { g with difficulty := v }).withDefault,
      .defaulted "mixHash" Fixed.codec (·.mixHash) fun v g => { g with mixHash := v },
      .defaulted "coinbase" Fixed.codec (·.coinbase) fun v g => { g with coinbase := v },
      .defaulted "alloc" Alloc.codec (·.alloc) fun v g => { g with alloc := v },
      .defaulted "number" Quantity.codec (·.number) fun v g => { g with number := v },
      .defaulted "gasUsed" Quantity.codec (·.gasUsed) fun v g => { g with gasUsed := v },
      .defaulted "parentHash" Fixed.codec (·.parentHash) fun v g => { g with parentHash := v },
      (RecordField.optional "baseFeePerGas" Quantity.codec (·.baseFeePerGas)
        fun v g => { g with baseFeePerGas := v }).withDefault]
  blank := {}

def codec : Codec Genesis := record.codec

/-- The text of a document. -/
def print (genesis : Genesis) : List Char :=
  codec.print genesis

/-- The configuration of the chain. -/
def chainConfig (genesis : Genesis) : ChainConfig :=
  genesis.config.getD .dev

end Genesis
end Provision
