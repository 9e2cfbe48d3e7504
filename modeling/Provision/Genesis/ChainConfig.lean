import Provision.Genesis.Hexadecimal
import Provision.Json.Record

/-! The chain configuration: from which block on each change of the protocol is active, and how
blocks are agreed on.

Members of a document that are not listed here are passed over. -/
namespace Provision

open Json

/-- Proof of work, without any settings. -/
structure EthashConfig where
deriving DecidableEq, Repr

/-- Proof of authority by signers in turn. -/
structure CliqueConfig where
  period : UInt64 := 0
  epoch : UInt64 := 0
deriving DecidableEq, Repr

/-- Proof of authority by a vote of validators. -/
structure IstanbulConfig where
  epoch : UInt64 := 0
  policy : UInt64 := 0
  ceil2Nby3Block : Option UInt64 := none
deriving DecidableEq, Repr

structure ChainConfig where
  chainId : Option UInt64 := none
  homesteadBlock : Option UInt64 := none
  daoForkBlock : Option UInt64 := none
  daoForkSupport : Bool := false
  eip150Block : Option UInt64 := none
  eip150Hash : Option Hash := none
  eip155Block : Option UInt64 := none
  eip158Block : Option UInt64 := none
  byzantiumBlock : Option UInt64 := none
  constantinopleBlock : Option UInt64 := none
  petersburgBlock : Option UInt64 := none
  istanbulBlock : Option UInt64 := none
  muirGlacierBlock : Option UInt64 := none
  berlinBlock : Option UInt64 := none
  londonBlock : Option UInt64 := none
  ethash : Option EthashConfig := none
  clique : Option CliqueConfig := none
  istanbul : Option IstanbulConfig := none
  isQuorum : Bool := false
  maxCodeSize : Option UInt64 := none
deriving DecidableEq

/-! ### The JSON form -/

namespace EthashConfig

def record : Record EthashConfig where
  name := "EthashConfig"
  fields := []
  blank := {}

def codec : Codec EthashConfig := record.codec

end EthashConfig

namespace CliqueConfig

def record : Record CliqueConfig where
  name := "CliqueConfig"
  fields :=
    [.defaulted "period" .uint64 (·.period) fun v c => { c with period := v },
      .defaulted "epoch" .uint64 (·.epoch) fun v c => { c with epoch := v }]
  blank := {}

def codec : Codec CliqueConfig := record.codec

end CliqueConfig

namespace IstanbulConfig

def record : Record IstanbulConfig where
  name := "IstanbulConfig"
  fields :=
    [.defaulted "epoch" .uint64 (·.epoch) fun v c => { c with epoch := v },
      .defaulted "policy" .uint64 (·.policy) fun v c => { c with policy := v },
      .optional "ceil2Nby3Block" .uint64 (·.ceil2Nby3Block)
        fun v c => { c with ceil2Nby3Block := v }]
  blank := {}

def codec : Codec IstanbulConfig := record.codec

end IstanbulConfig

namespace ChainConfig

/-- A block from which on a change is active. -/
def block (name : String) (get : ChainConfig → Option UInt64)
    (set : Option UInt64 → ChainConfig → ChainConfig) : RecordField ChainConfig :=
  .optional name .uint64 get set

/-- A switch that is off unless it is written. -/
def switch (name : String) (get : ChainConfig → Bool)
    (set : Bool → ChainConfig → ChainConfig) : RecordField ChainConfig :=
  (RecordField.defaulted name .bool get set).omitting (!·)

def record : Record ChainConfig where
  name := "ChainConfig"
  fields :=
    [block "chainId" (·.chainId) fun v c => { c with chainId := v },
      block "homesteadBlock" (·.homesteadBlock) fun v c => { c with homesteadBlock := v },
      block "daoForkBlock" (·.daoForkBlock) fun v c => { c with daoForkBlock := v },
      switch "daoForkSupport" (·.daoForkSupport) fun v c => { c with daoForkSupport := v },
      block "eip150Block" (·.eip150Block) fun v c => { c with eip150Block := v },
      .optional "eip150Hash" Fixed.codec (·.eip150Hash) fun v c => { c with eip150Hash := v },
      block "eip155Block" (·.eip155Block) fun v c => { c with eip155Block := v },
      block "eip158Block" (·.eip158Block) fun v c => { c with eip158Block := v },
      block "byzantiumBlock" (·.byzantiumBlock) fun v c => { c with byzantiumBlock := v },
      block "constantinopleBlock" (·.constantinopleBlock)
        fun v c => { c with constantinopleBlock := v },
      block "petersburgBlock" (·.petersburgBlock) fun v c => { c with petersburgBlock := v },
      block "istanbulBlock" (·.istanbulBlock) fun v c => { c with istanbulBlock := v },
      block "muirGlacierBlock" (·.muirGlacierBlock) fun v c => { c with muirGlacierBlock := v },
      block "berlinBlock" (·.berlinBlock) fun v c => { c with berlinBlock := v },
      block "londonBlock" (·.londonBlock) fun v c => { c with londonBlock := v },
      .optional "ethash" EthashConfig.codec (·.ethash) fun v c => { c with ethash := v },
      .optional "clique" CliqueConfig.codec (·.clique) fun v c => { c with clique := v },
      .optional "istanbul" IstanbulConfig.codec (·.istanbul) fun v c => { c with istanbul := v },
      switch "isQuorum" (·.isQuorum) fun v c => { c with isQuorum := v },
      block "maxCodeSize" (·.maxCodeSize) fun v c => { c with maxCodeSize := v }]
  blank := {}

def codec : Codec ChainConfig := record.codec

/-- The members that a configuration is written with, in the order of the fields. -/
def members (config : ChainConfig) : List (String × Json) :=
  record.members config

/-- The text of a configuration. -/
def print (config : ChainConfig) : List Char :=
  codec.print config

/-! ### Its meaning -/

/-- The chain of a document without a configuration. -/
def devChainId : UInt64 := 1337

/-- Every change active from block 0 on, with proof of work. -/
def dev : ChainConfig where
  chainId := some devChainId
  homesteadBlock := some 0
  eip150Block := some 0
  eip155Block := some 0
  eip158Block := some 0
  byzantiumBlock := some 0
  constantinopleBlock := some 0
  petersburgBlock := some 0
  istanbulBlock := some 0
  muirGlacierBlock := some 0
  berlinBlock := some 0
  londonBlock := some 0
  ethash := some {}

/-- Is the London change active at a block? -/
def isLondon (config : ChainConfig) (number : UInt64) : Bool :=
  config.londonBlock.any (· ≤ number)

end ChainConfig
end Provision
