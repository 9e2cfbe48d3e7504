import Provision.Instance.Basic

/-! What the stores of an instance hold: the hash of the genesis block and the configuration
record under it. Looking at a store makes nothing and writes nothing. -/
namespace Provision.Instance

/-- What a store holds. There is no configuration without a genesis block. -/
structure StoreReport where
  genesis : Option Hash
  config : Option Json
deriving DecidableEq

inductive InspectError
  | storeOpen (store : Name) (error : StoreError)
  | record (error : SetupError)
deriving DecidableEq

/-- The message of the error and those of its causes. -/
def InspectError.chain : InspectError → List String
  | .storeOpen store e => ("Failed to open store " ++ String.ofList store) :: e.chain
  | .record e => e.chain

/-- What has been found in the stores that were looked at, in order, and what ended it before
the last one. A store that is not there has no report. -/
structure Inspection where
  stores : List (Name × Option StoreReport) := []
  failure : Option InspectError := none
deriving DecidableEq

/-- What an open store holds. -/
def reportStore (store : Store) : Except SetupError StoreReport :=
  match store.canonicalHash 0 with
  | .error e => .error e
  | .ok none => .ok ⟨none, none⟩
  | .ok (some hash) => (store.readConfig hash).map fun config => ⟨some hash, config⟩

/-- Looks at one store, and closes it again. -/
def inspectStore (disk : Disk) (directory : Path) (store : Name) :
    Except InspectError (Option StoreReport) × Disk :=
  match disk.findStore directory store with
  | .error _ => (.ok none, disk)
  | .ok id =>
    match disk.reopen directory store id with
    | (.error e, disk) => (.error (.storeOpen store e), disk)
    | (.ok handle, disk) =>
      (((reportStore (disk.store handle.file)).map some).mapError .record, disk.close handle)

/-- Looks at stores one after the other, until one of them fails. -/
def inspectStores (disk : Disk) (directory : Path) : List Name → Inspection × Disk
  | [] => ({}, disk)
  | store :: rest =>
    match inspectStore disk directory store with
    | (.error e, disk) => ({ failure := some e }, disk)
    | (.ok report, disk) =>
      let (others, disk) := inspectStores disk directory rest
      ({ others with stores := (store, report) :: others.stores }, disk)

/-- Looks at the stores of an instance. -/
def inspect (disk : Disk) (dataDirectory : Path) (name : Name) : Inspection × Disk :=
  inspectStores disk (Path.join dataDirectory name) storeNames

/-! ### As a document -/

def StoreReport.json (report : StoreReport) : Json :=
  .object [("config", report.config.getD .null),
    ("genesis", (report.genesis.map fun hash => Json.string hash.toText).getD .null)]

def Inspection.json (inspection : Inspection) : Json :=
  .object (inspection.stores.map fun (store, report) =>
    (String.ofList store, (report.map StoreReport.json).getD .null))

end Provision.Instance
