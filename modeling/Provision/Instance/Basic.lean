import Provision.Disk.Database
import Provision.Instance.Error
import Provision.Instance.Identifier

/-! Instances: directories with the stores of one node.

`create` makes the directory of an instance, which must not have anything in it, and sets up
its stores one after the other. The first failure ends it and leaves what has been written as
it is. `delete` removes a data directory with all its instances. -/
namespace Provision

/-- A disk, and the last identifier that was given out. -/
structure Host where
  disk : Disk
  lastId : UInt64 := 0

namespace Instance

def defaultName : Name := ['g', 'e', 't', 'h']

/-- The store of a full node. -/
def fullStore : Name := ['c', 'h', 'a', 'i', 'n', 'd', 'a', 't', 'a']

/-- The store of a light client. -/
def lightStore : Name := ['l', 'i', 'g', 'h', 't'] ++ fullStore

/-- The stores of an instance, in the order in which they are set up. -/
def storeNames : List Name := [fullStore, lightStore]

structure Request where
  dataDirectory : Path
  name : Name := defaultName
  /-- The text of the genesis document. -/
  genesis : List Char
  /-- The cache of each store, in units of 1024 * 1024 bytes. -/
  cache : UInt64 := 0

/-- What whoever has made an instance gets to know. -/
structure Receipt where
  /-- The absolute path of the data directory. -/
  dataDirectory : Path
  id : List Char
deriving DecidableEq

/-! ### Directories -/

/-- Makes sure that a directory is there. Returns its absolute path. -/
def resolveDirectory (disk : Disk) (path : Path) : Except InstanceError Path × Disk :=
  match disk.makeDirectories path with
  | (.error e, disk) => (.error (.directory path e), disk)
  | (.ok (), disk) => ((Path.absolute disk.workingDirectory path).mapError (.directory path), disk)

/-- A directory that is not there counts as empty. -/
def isVacant (disk : Disk) (path : Path) : Except InstanceError Bool :=
  (disk.isEmptyOrMissing path).mapError (.directory path)

/-! ### Stores -/

/-- An open store that holds a genesis block. -/
structure InitializedStore where
  handle : Handle
  config : ChainConfig
  hash : Hash

/-- Opens a store and sets up its genesis block. The store is closed again if that fails. -/
def initStore (disk : Disk) (directory : Path) (store : Name) (genesis : Genesis)
    (cache : UInt64) : Except (Halt InstanceError) InitializedStore × Disk :=
  match disk.openStore directory store cache with
  | (.error e, disk) => (.error (e.map (.storeOpen store)), disk)
  | (.ok handle, disk) =>
    match disk.withStore handle.file fun s => s.setup genesis with
    | (.error e, disk) => (.error (.failed (.genesisSetup store e)), disk.close handle)
    | (.ok (config, hash), disk) => (.ok ⟨handle, config, hash⟩, disk)

/-- Overwrites the configuration record of a store. The name of the store is for the error. -/
def persistMerged (store : Store) (name : Name) (hash : Hash) (config : ChainConfig)
    (override : Json.Fields) : Except InstanceError Unit × Store :=
  match store.persistMerged hash config override with
  | (.error e, store) => (.error (.storeWrite name e), store)
  | (.ok (), store) => (.ok (), store)

/-- Sets up one store of an instance: its genesis block, and then its configuration record. -/
def setupStore (disk : Disk) (directory : Path) (parsed : ParsedGenesis) (cache : UInt64)
    (store : Name) : Except (Halt InstanceError) Unit × Disk :=
  match initStore disk directory store parsed.genesis cache with
  | (.error e, disk) => (.error e, disk)
  | (.ok opened, disk) =>
    let (result, disk) := disk.withStore opened.handle.file fun s =>
      persistMerged s store opened.hash opened.config parsed.override
    (result.mapError .failed, disk.close opened.handle)

/-- Sets up stores one after the other, until one of them fails. -/
def setupStores (disk : Disk) (directory : Path) (parsed : ParsedGenesis) (cache : UInt64) :
    List Name → Except (Halt InstanceError) Unit × Disk
  | [] => (.ok (), disk)
  | store :: rest =>
    match setupStore disk directory parsed cache store with
    | (.error e, disk) => (.error e, disk)
    | (.ok (), disk) => setupStores disk directory parsed cache rest

/-! ### Making and removing -/

/-- Makes an instance on a disk. Returns the absolute path of the data directory. -/
def provision (disk : Disk) (request : Request) : Except (Halt InstanceError) Path × Disk :=
  match resolveDirectory disk request.dataDirectory with
  | (.error e, disk) => (.error (.failed e), disk)
  | (.ok dataDirectory, disk) =>
    let directory := Path.join dataDirectory request.name
    match isVacant disk directory with
    | .error e => (.error (.failed e), disk)
    | .ok false => (.error (.failed (.notEmpty directory)), disk)
    | .ok true =>
      match ParsedGenesis.parse request.genesis with
      | .error e => (.error (.failed (.invalidGenesis e)), disk)
      | .ok parsed =>
        let (result, disk) := setupStores disk directory parsed request.cache storeNames
        (result.map fun _ => dataDirectory, disk)

/-- Makes an instance. The clock is read at the end. -/
def create (host : Host) (clock : Int) (request : Request) :
    Except (Halt InstanceError) Receipt × Host :=
  match provision host.disk request with
  | (.error e, disk) => (.error e, { host with disk })
  | (.ok dataDirectory, disk) =>
    let id := Identifier.next (Identifier.ofClock clock) host.lastId
    (.ok ⟨dataDirectory, Numeral.decimal id.toNat⟩, ⟨disk, id⟩)

/-- There is nothing to bring up to date in an instance that has been made. -/
def read (disk : Disk) (_receipt : Receipt) : Disk :=
  disk

/-- Removes a data directory. It is no error if it is not there. -/
def delete (disk : Disk) (receipt : Receipt) : Except InstanceError Unit × Disk :=
  match disk.removeTree receipt.dataDirectory with
  | (.error .notFound, disk) => (.ok (), disk)
  | (.error e, disk) => (.error (.teardown receipt.dataDirectory e), disk)
  | (.ok (), disk) => (.ok (), disk)

end Instance
end Provision
