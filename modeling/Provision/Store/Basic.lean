import Provision.Disk.Error
import Provision.Dictionary
import Provision.Store.Key

/-! Chain stores: maps from keys to values, written in transactions.

A store may have an allowance of write transactions, after which it refuses to write, and it
may refuse to be read. A transaction that is refused changes nothing. One that is run makes the
table first if there is none yet; until then there is nothing that could be read. -/
namespace Provision

/-- What a store holds. -/
abbrev Table := Dictionary Bytes Bytes

/-- A write transaction. -/
inductive Transaction
  | put (key value : Bytes)
  | batch (entries : List (Bytes × Bytes))
deriving DecidableEq

namespace Transaction

/-- The entries that a transaction writes, in order. -/
def entries : Transaction → List (Bytes × Bytes)
  | .put key value => [(key, value)]
  | .batch entries => entries

end Transaction

inductive StoreError
  /-- The file is no database, or one without a table. -/
  | notDatabase
  | file (error : FileError)
  | alreadyOpen (path : String)
  | missing (path : String)
deriving DecidableEq, Repr

namespace StoreError

def message : StoreError → String
  | .notDatabase => "Redb error: not a database"
  | .file e => "Io error in creating store directory: " ++ e.message
  | .alreadyOpen path => "Database at " ++ path ++ " is already open by another handle"
  | .missing path => "No database at " ++ path

/-- The message of the error and those of its causes. -/
def chain (error : StoreError) : List String :=
  error.message ::
    match error with
    | .file e => [e.message]
    | _ => []

end StoreError

/-- How many more write transactions succeed. None is no limit. -/
abbrev Allowance := Option Nat

namespace Allowance

/-- What is left after one transaction, unless nothing was left before. -/
def spend? : Allowance → Option Allowance
  | none => some none
  | some 0 => none
  | some (left + 1) => some (some left)

end Allowance

structure Store where
  table : Table := []
  allowance : Allowance := none
  readable : Bool := true
  /-- Has the table been made? -/
  hasTable : Bool := true
  /-- The transactions that succeeded, the last one first. -/
  journal : List Transaction := []
deriving DecidableEq

namespace Store

/-- Why nothing can be read, if that is so. -/
def readError? (store : Store) : Option StoreError :=
  if !store.readable then some (.file .readRefused)
  else if !store.hasTable then some .notDatabase
  else none

def get (store : Store) (key : Bytes) : Except StoreError (Option Bytes) :=
  match store.readError? with
  | some e => .error e
  | none => .ok (store.table.find? key)

def has (store : Store) (key : Bytes) : Except StoreError Bool :=
  (store.get key).map Option.isSome

/-- Runs a write transaction, wholly or not at all. -/
def commit (store : Store) (transaction : Transaction) : Except StoreError Unit × Store :=
  match store.allowance.spend? with
  | none => (.error (.file .writeRefused), store)
  | some left =>
    (.ok (), { store with
      table := store.table.insertAll transaction.entries
      allowance := left
      hasTable := true
      journal := transaction :: store.journal })

def put (store : Store) (key value : Bytes) : Except StoreError Unit × Store :=
  store.commit (.put key value)

def writeBatch (store : Store) (entries : List (Bytes × Bytes)) : Except StoreError Unit × Store :=
  store.commit (.batch entries)

/-- The entries written since the journal was last taken, each with its transaction, in order. -/
def takeJournal (store : Store) : List (Transaction × Bytes × Bytes) × Store :=
  (store.journal.reverse.flatMap fun transaction =>
      transaction.entries.map fun entry => (transaction, entry),
    { store with journal := [] })

end Store
end Provision
