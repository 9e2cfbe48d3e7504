import Provision.Genesis.Block
import Provision.Genesis.Input
import Provision.Store.Basic

/-! Writing the genesis block into a store, or checking it against the one that is there.

The block that is there is the one whose hash stands under number zero. The block is written
in one transaction of ten records; a store that has the same block already only gets its
configuration record anew. -/
namespace Provision

inductive SetupError
  | mismatch (stored new : Hash)
  | malformedHash (block : UInt64)
  | config (error : Json.Error)
  | store (error : StoreError)
deriving DecidableEq

namespace SetupError

def message : SetupError → String
  | .mismatch stored new =>
    "database contains incompatible genesis (have " ++ stored.toText ++ ", new " ++ new.toText ++
      ")"
  | .malformedHash block =>
    "Malformed canonical hash record for block " ++ String.ofList (Numeral.decimal block.toNat)
  | .config e => "Failed to encode chain config: " ++ e.message
  | .store e => "Store error: " ++ e.message

/-- The message of the error and those of its causes. -/
def chain (error : SetupError) : List String :=
  error.message ::
    match error with
    | .config e => [e.message]
    | .store e => e.chain
    | _ => []

end SetupError

namespace ChainConfig

/-- The configuration record of a configuration alone. -/
def bytes (config : ChainConfig) : Bytes := Text.Utf8.ofChars config.print

/-- The configuration record with the members of a document merged over it. -/
def mergedBytes (config : ChainConfig) (override : Json.Fields) : Bytes :=
  Text.Utf8.ofChars (config.mergedText override)

end ChainConfig

namespace Genesis

/-- A body with no transactions and no uncles. -/
def emptyBody : Bytes := [0xc2, 0xc0, 0xc0]

/-- The ten records of the genesis block. -/
def records (genesis : Genesis) : List (Key × Bytes) :=
  let header := genesis.header
  let hash := header.hash
  let block := header.number
  [(.header block hash, header.encode),
    (.totalDifficulty block hash, (Rlp.number header.difficulty.toNat).encode),
    (.numberOf hash, Key.blockNumber block),
    (.body block hash, emptyBody),
    (.receipts block hash, Rlp.emptyList),
    (.canonicalHash block, hash.bytes),
    (.headBlock, hash.bytes),
    (.headFast, hash.bytes),
    (.headHeader, hash.bytes),
    (.config hash, genesis.chainConfig.bytes)]

/-- The records as entries of a store. -/
def entries (genesis : Genesis) : List (Bytes × Bytes) :=
  genesis.records.map fun (key, value) => (key.encode, value)

end Genesis

namespace Store

/-- The hash of the block with a number. -/
def canonicalHash (store : Store) (block : UInt64) : Except SetupError (Option Hash) :=
  match store.get (Key.canonicalHash block).encode with
  | .error e => .error (.store e)
  | .ok none => .ok none
  | .ok (some bytes) =>
    match Fixed.ofBytes? bytes with
    | some hash => .ok (some hash)
    | none => .error (.malformedHash block)

/-- Writes a configuration alone as the record for a hash. -/
def writeConfig (store : Store) (hash : Hash) (config : ChainConfig) :
    Except SetupError Unit × Store :=
  match store.put (Key.config hash).encode config.bytes with
  | (.ok (), store) => (.ok (), store)
  | (.error e, store) => (.error (.store e), store)

/-- The configuration record for a hash, whatever its shape. -/
def readConfig (store : Store) (hash : Hash) : Except SetupError (Option Json) :=
  match store.get (Key.config hash).encode with
  | .error e => .error (.store e)
  | .ok none => .ok none
  | .ok (some bytes) =>
    match Json.parseBytes bytes with
    | .ok value => .ok (some value)
    | .error e => .error (.config e)

/-- Writes the genesis block. -/
def commitGenesis (store : Store) (genesis : Genesis) : Except SetupError Unit × Store :=
  match store.writeBatch genesis.entries with
  | (.ok (), store) => (.ok (), store)
  | (.error e, store) => (.error (.store e), store)

/-- Writes the genesis block of a document into a store, or checks it against the one that is
there. Returns the configuration of the chain and the hash of the block. -/
def setup (store : Store) (genesis : Genesis) : Except SetupError (ChainConfig × Hash) × Store :=
  let config := genesis.chainConfig
  match store.canonicalHash 0 with
  | .error e => (.error e, store)
  | .ok none =>
    let (result, store) := store.commitGenesis genesis
    (result.map fun _ => (config, genesis.hash), store)
  | .ok (some stored) =>
    if genesis.hash = stored then
      let (result, store) := store.writeConfig stored config
      (result.map fun _ => (config, stored), store)
    else (.error (.mismatch stored genesis.hash), store)

/-- Overwrites the configuration record for a hash with a configuration and the members of a
document merged over it. -/
def persistMerged (store : Store) (hash : Hash) (config : ChainConfig) (override : Json.Fields) :
    Except StoreError Unit × Store :=
  store.put (Key.config hash).encode (config.mergedBytes override)

end Store
end Provision
