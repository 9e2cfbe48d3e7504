import Provision.Bytes.Fixed

/-! The keys of a chain store.

A client finds its records under exactly these bytes, so they are fixed: a mark that tells
what the record is, the number of a block in eight bytes, and its hash. -/
namespace Provision

/-- What a record of a store is about. -/
inductive Key
  | header (block : UInt64) (hash : Hash)
  | totalDifficulty (block : UInt64) (hash : Hash)
  | canonicalHash (block : UInt64)
  | numberOf (hash : Hash)
  | body (block : UInt64) (hash : Hash)
  | receipts (block : UInt64) (hash : Hash)
  | config (hash : Hash)
  | headHeader
  | headBlock
  | headFast
deriving DecidableEq

namespace Key

/-- The characters of an ASCII text as bytes. -/
def ascii (text : List Char) : Bytes :=
  text.map fun c => UInt8.ofNat c.toNat

/-- The number of a block in eight bytes. -/
def blockNumber (block : UInt64) : Bytes :=
  Bytes.bigEndian 8 block.toNat

def configMark : Bytes :=
  ascii ['e', 't', 'h', 'e', 'r', 'e', 'u', 'm', '-', 'c', 'o', 'n', 'f', 'i', 'g', '-']

def encode : Key → Bytes
  | .header block hash => ascii ['h'] ++ blockNumber block ++ hash.bytes
  | .totalDifficulty block hash => ascii ['h'] ++ blockNumber block ++ hash.bytes ++ ascii ['t']
  | .canonicalHash block => ascii ['h'] ++ blockNumber block ++ ascii ['n']
  | .numberOf hash => ascii ['H'] ++ hash.bytes
  | .body block hash => ascii ['b'] ++ blockNumber block ++ hash.bytes
  | .receipts block hash => ascii ['r'] ++ blockNumber block ++ hash.bytes
  | .config hash => configMark ++ hash.bytes
  | .headHeader => ascii ['L', 'a', 's', 't', 'H', 'e', 'a', 'd', 'e', 'r']
  | .headBlock => ascii ['L', 'a', 's', 't', 'B', 'l', 'o', 'c', 'k']
  | .headFast => ascii ['L', 'a', 's', 't', 'F', 'a', 's', 't']

end Key
end Provision
