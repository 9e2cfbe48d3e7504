import Provision.Disk.Basic

/-! Stores on a disk.

A store is a directory with a database file in it. A database is held by whoever has opened
it, and nobody else can open it until it is released. Opening a store makes it if it is not
there; finding one leaves everything as it is. -/
namespace Provision

/-- How an operation stops short: by an error of its own, or because a number it computes has
no room. -/
inductive Halt (ε : Type)
  | failed (error : ε)
  | overflow
deriving DecidableEq, Repr

namespace Halt

variable {ε φ : Type}

def map (f : ε → φ) : Halt ε → Halt φ
  | .failed e => .failed (f e)
  | .overflow => .overflow

end Halt

/-! ### The cache of a database -/

namespace Cache

/-- No database gets less than this, in units of 1024 * 1024 bytes. -/
def leastUnits : UInt64 := 16

def unitBytes : Nat := 1024 * 1024

/-- The bytes of a cache, if they can be counted in 64 bits. -/
def bytes? (units : UInt64) : Option UInt64 :=
  let bytes := (max units leastUnits).toNat * unitBytes
  if bytes < UInt64.size then some (UInt64.ofNat bytes) else none

end Cache

/-! ### Databases -/

/-- The name of the database file of a store. -/
def databaseName : Name := ['c', 'h', 'a', 'i', 'n', '.', 'r', 'e', 'd', 'b']

/-- The path of the database of a store. -/
def databasePath (root : Path) (name : Name) : Path :=
  Path.join (Path.join root name) databaseName

/-- An open store. -/
structure Handle where
  name : Name
  path : Path
  file : Nat
deriving DecidableEq

/-- What the file of a store holds. -/
def Store.content (store : Store) : Content :=
  if store.hasTable then .database store.table else .shell

namespace Disk

def hold (disk : Disk) (id : Nat) : Disk :=
  { disk with held := id :: disk.held }

def release (disk : Disk) (id : Nat) : Disk :=
  { disk with held := disk.held.erase id }

def close (disk : Disk) (handle : Handle) : Disk :=
  disk.release handle.file

/-- What a database holds. -/
def table (disk : Disk) (id : Nat) : Table :=
  match disk.contents.find? id with
  | some (.database table) => table
  | _ => []

/-- The store that an open database is. -/
def store (disk : Disk) (id : Nat) : Store where
  table := disk.table id
  allowance := disk.allowance
  hasTable := disk.contents.find? id != some .shell

/-- Acts on an open database as on a store. -/
def withStore {α : Type} (disk : Disk) (id : Nat) (action : Store → α × Store) : α × Disk :=
  let (result, store) := action (disk.store id)
  (result, { disk.setContent id store.content with allowance := store.allowance })

/-- The transaction that makes a file a database, or makes sure that it is one. -/
def openTable (disk : Disk) (id : Nat) (table : Table) : Except StoreError Nat × Disk :=
  match disk.allowance.spend? with
  | none => (.error (.file .writeRefused), disk)
  | some left =>
    (.ok id, { (disk.setContent id (.database table)).hold id with allowance := left })

/-- Opens a file as a database. An empty file becomes an empty one, and so does a database
without a table. -/
def openFile (disk : Disk) (file : Path) (id : Nat) : Except StoreError Nat × Disk :=
  if id ∈ disk.held then (.error (.alreadyOpen (String.ofList file)), disk)
  else
    match disk.contents.find? id with
    | some (.database table) => disk.openTable id table
    | some (.text []) | some .shell => disk.openTable id []
    | _ => (.error .notDatabase, disk)

/-- Where the database at a path is or would be made, and its file if there is one. -/
def databaseSpot (disk : Disk) (file : Path) : Except FileError (Location × Option Nat) :=
  disk.place file (fun location => .ok (location, none))
    (fun location entry =>
      match entry with
      | .directory => .error .isDirectory
      | .file id => .ok (location, some id))
    .isDirectory

/-- Opens the database at a path, which is made if it is not there. -/
def openDatabase (disk : Disk) (file : Path) : Except StoreError Nat × Disk :=
  match disk.databaseSpot file with
  | .error _ => (.error .notDatabase, disk)
  | .ok (_, some id) => disk.openFile file id
  | .ok (location, none) =>
    let id := disk.nextFile
    (disk.addFile location (.text [])).openTable id []

/-- Opens a store, which is made if it is not there. -/
def openStore (disk : Disk) (root : Path) (name : Name) (cache : UInt64) :
    Except (Halt StoreError) Handle × Disk :=
  let path := Path.join root name
  match disk.makeDirectories path with
  | (.error e, disk) => (.error (.failed (.file e)), disk)
  | (.ok (), disk) =>
    match Cache.bytes? cache with
    | none => (.error .overflow, disk)
    | some _ =>
      match disk.openDatabase (databasePath root name) with
      | (.error e, disk) => (.error (.failed e), disk)
      | (.ok id, disk) => (.ok ⟨name, path, id⟩, disk)

/-- The database file of a store that is there. -/
def findStore (disk : Disk) (root : Path) (name : Name) : Except StoreError Nat :=
  match disk.file? (databasePath root name) with
  | some id => .ok id
  | none => .error (.missing (String.ofList (databasePath root name)))

/-- Opens a database that is there, with a table or without one, and writes nothing. -/
def reopen (disk : Disk) (root : Path) (name : Name) (id : Nat) :
    Except StoreError Handle × Disk :=
  if id ∈ disk.held then
    (.error (.alreadyOpen (String.ofList (databasePath root name))), disk)
  else
    match disk.contents.find? id with
    | some (.database _) | some .shell => (.ok ⟨name, Path.join root name, id⟩, disk.hold id)
    | _ => (.error .notDatabase, disk)

/-- Opens a store that is there. -/
def openExisting (disk : Disk) (root : Path) (name : Name) (cache : UInt64) :
    Except (Halt StoreError) Handle × Disk :=
  match disk.findStore root name with
  | .error e => (.error (.failed e), disk)
  | .ok id =>
    match Cache.bytes? cache with
    | none => (.error .overflow, disk)
    | some _ =>
      match disk.reopen root name id with
      | (.error e, disk) => (.error (.failed e), disk)
      | (.ok handle, disk) => (.ok handle, disk)

end Disk
end Provision
