import Provision.Genesis.Document
import Provision.Trie

/-! The genesis block of a document: the state it starts from and its header.

The hash of the header names the block, and everything that a store holds about the chain
hangs off it. -/
namespace Provision

/-- The root of the trie without entries. -/
def emptyRoot : Hash :=
  .ofNat 0x56e81f171bcc55a6ff8345e692c0f86e5b48e01b996cadc001622fb5e363b421

/-- The hash of no bytes. -/
def emptyHash : Hash :=
  .ofNat 0xc5d2460186f7233c927e7db2dcc703c0e500b653ca82273b7bfad8045d85a470

/-- The hash of the empty list of uncles. -/
def emptyOmmers : Hash :=
  .ofNat 0x1dcc4de8dec75d7aab85b567b6ccd41ad312451b948a7413f0a142fd40d49347

/-! ### The state -/

/-- An account as the state trie holds it. -/
structure StateAccount where
  nonce : UInt64
  balance : UInt256
  storageRoot : Hash
  codeHash : Hash
deriving DecidableEq

def StateAccount.encode (account : StateAccount) : Bytes :=
  (Rlp.list [.number account.nonce.toNat, .number account.balance.toNat,
    .fixed account.storageRoot, .fixed account.codeHash]).encode

/-- The root of a storage trie. Words are held as numbers. -/
def Storage.root (storage : Storage) : Hash :=
  Trie.root (storage.nonzero.map fun (slot, word) =>
    (slot.bytes, (Rlp.number word.toNat).encode))

namespace Account

/-- Empty code counts as no code. -/
def codeHash (account : Account) : Hash :=
  match account.code with
  | none | some [] => emptyHash
  | some code => Hash.keccak code

def storageRoot (account : Account) : Hash := account.storage.root

def state (account : Account) : StateAccount where
  nonce := account.nonce
  balance := account.balance
  storageRoot := account.storageRoot
  codeHash := account.codeHash

end Account

/-- The root of the state trie. -/
def Alloc.root (alloc : Alloc) : Hash :=
  match alloc with
  | [] => emptyRoot
  | alloc => Trie.root (alloc.map fun (address, account) => (address.bytes, account.state.encode))

/-! ### The header -/

structure Header where
  parentHash : Hash
  ommersHash : Hash
  beneficiary : Address
  stateRoot : Hash
  transactionsRoot : Hash
  receiptsRoot : Hash
  logsBloom : Fixed 256
  difficulty : UInt256
  number : UInt64
  gasLimit : UInt64
  gasUsed : UInt64
  timestamp : UInt64
  extraData : Bytes
  mixHash : Hash
  nonce : Fixed 8
  baseFeePerGas : Option UInt64
  withdrawalsRoot : Option Hash
deriving DecidableEq

namespace Header

/-- A header as a list. What is absent at the end is left out. -/
def toRlp (header : Header) : Rlp :=
  .list ([.fixed header.parentHash, .fixed header.ommersHash, .fixed header.beneficiary,
    .fixed header.stateRoot, .fixed header.transactionsRoot, .fixed header.receiptsRoot,
    .fixed header.logsBloom, .number header.difficulty.toNat, .number header.number.toNat,
    .number header.gasLimit.toNat, .number header.gasUsed.toNat, .number header.timestamp.toNat,
    .bytes header.extraData, .fixed header.mixHash, .fixed header.nonce] ++
    (header.baseFeePerGas.map fun fee => Rlp.number fee.toNat).toList ++
    (header.withdrawalsRoot.map Rlp.fixed).toList)

def encode (header : Header) : Bytes := header.toRlp.encode

def hash (header : Header) : Hash := Hash.keccak header.encode

end Header

namespace Genesis

/-- The gas limit of a document that leaves it at zero. -/
def defaultGasLimit : UInt64 := 4712388

/-- The difficulty of a document that sets neither it nor the mix hash. -/
def defaultDifficulty : UInt256 := 131072

/-- The base fee of a document that is past London and sets none. -/
def initialBaseFee : UInt64 := 1000000000

def stateRoot (genesis : Genesis) : Hash := genesis.alloc.root

/-- The difficulty of the block. -/
def blockDifficulty (genesis : Genesis) : UInt256 :=
  match genesis.difficulty with
  | some difficulty => difficulty
  | none => if genesis.mixHash.isZero then defaultDifficulty else 0

/-- The gas limit of the block. -/
def blockGasLimit (genesis : Genesis) : UInt64 :=
  if genesis.gasLimit = 0 then defaultGasLimit else genesis.gasLimit

/-- The base fee of the block, from London on. -/
def blockBaseFee (genesis : Genesis) : Option UInt64 :=
  if genesis.chainConfig.isLondon genesis.number then
    some (genesis.baseFeePerGas.getD initialBaseFee)
  else none

def header (genesis : Genesis) : Header where
  parentHash := genesis.parentHash
  ommersHash := emptyOmmers
  beneficiary := genesis.coinbase
  stateRoot := genesis.stateRoot
  transactionsRoot := emptyRoot
  receiptsRoot := emptyRoot
  logsBloom := Fixed.zero
  difficulty := genesis.blockDifficulty
  number := genesis.number
  gasLimit := genesis.blockGasLimit
  gasUsed := genesis.gasUsed
  timestamp := genesis.timestamp
  extraData := genesis.extraData
  mixHash := genesis.mixHash
  nonce := .ofNat genesis.nonce.toNat
  baseFeePerGas := genesis.blockBaseFee
  withdrawalsRoot := none

/-- The hash of the genesis block. -/
def hash (genesis : Genesis) : Hash := genesis.header.hash

end Genesis
end Provision
