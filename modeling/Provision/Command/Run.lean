import Provision.Command.Line
import Provision.Instance.Report
import Provision.Text.Terminal

/-! Running a command on a disk.

A run prints a document or nothing, tells of warnings and errors, and ends with a code: zero
for success, one behind an error, two for a command line that cannot be understood, and
another one if a number has no room. -/
namespace Provision

/-- What a run shows. -/
structure Outcome where
  exitCode : UInt32 := 0
  output : List Char := []
  log : List (Verbosity × String) := []
deriving DecidableEq

namespace Outcome

/-- An error with its causes, on one line. -/
def failure (chain : List String) : Outcome where
  exitCode := 1
  log := [(.error, ": ".intercalate chain)]

def overflow : Outcome where
  exitCode := 101

/-- A document, and the end of its last line. -/
def document (value : Json) : Outcome where
  output := value.pretty 0 ++ ['\n']

/-- Keeps the lines of the log that a verbosity shows, with nothing in them that steers a
terminal. -/
def shownAt (outcome : Outcome) (verbosity : Verbosity) : Outcome :=
  let lines := outcome.log.filter fun line => verbosity.shows line.1
  { outcome with
    log := lines.map fun (level, text) => (level, String.ofList (Text.Terminal.text text.toList)) }

end Outcome

/-- A request for help is answered, and anything else refused. -/
def UsageError.exitCode : UsageError → UInt32
  | .help | .version => 0
  | _ => 2

namespace Instance

def Receipt.json (receipt : Receipt) : Json :=
  .object [("data_dir_abs", .string (String.ofList receipt.dataDirectory)),
    ("id", .string (String.ofList receipt.id))]

/-- The warnings about stores that are not there. -/
def Inspection.log (inspection : Inspection) (directory : Path) : List (Verbosity × String) :=
  inspection.stores.filterMap fun (store, report) =>
    match report with
    | some _ => none
    | none =>
      some (.warn, "Store " ++ String.ofList store ++ " not found at " ++
        String.ofList (databasePath directory store))

end Instance

namespace Command

def runInit (disk : Disk) (clock : Int) (options : InitOptions) : Outcome × Disk :=
  match disk.readText options.genesis with
  | .error e =>
    (.failure ["Failed to read genesis file " ++ String.ofList options.genesis, e.message], disk)
  | .ok genesis =>
    if options.dryRun then
      match ParsedGenesis.validate genesis with
      | .ok () => ({}, disk)
      | .error e => (.failure (InstanceError.invalidGenesis e).chain, disk)
    else
      let request : Instance.Request :=
        { dataDirectory := options.dataDir, name := options.instanceName, genesis,
          cache := options.cache }
      match Instance.create { disk } clock request with
      | (.ok receipt, host) => (.document receipt.json, host.disk)
      | (.error (.failed e), host) => (.failure e.chain, host.disk)
      | (.error .overflow, host) => (.overflow, host.disk)

def runRemove (disk : Disk) (options : RemoveOptions) : Outcome × Disk :=
  match Instance.delete disk ⟨options.dataDirAbs, options.id⟩ with
  | (.ok (), disk) => ({}, disk)
  | (.error e, disk) => (.failure e.chain, disk)

def runInspect (disk : Disk) (options : InspectOptions) : Outcome × Disk :=
  let (inspection, disk) := Instance.inspect disk options.dataDir options.instanceName
  let warnings := inspection.log (Path.join options.dataDir options.instanceName)
  let outcome :=
    match inspection.failure with
    | none => Outcome.document inspection.json
    | some e => .failure e.chain
  ({ outcome with log := warnings ++ outcome.log }, disk)

/-- Runs a command. The clock is read for the identifier of a new instance. -/
def run (disk : Disk) (clock : Int) : Command → Outcome × Disk
  | .init options => runInit disk clock options
  | .remove options => runRemove disk options
  | .inspect options => runInspect disk options

end Command

namespace CommandLine

/-- Runs the command of a command line. -/
def run (line : CommandLine) (disk : Disk) (clock : Int) : Outcome × Disk :=
  let (outcome, disk) := line.command.run disk clock
  (outcome.shownAt line.verbosity, disk)

/-- Reads a command line and runs its command, if it has one. -/
def runWords (environment : List Char → Option (List Char)) (words : List CommandWord)
    (disk : Disk) (clock : Int) : Outcome × Disk :=
  match parse environment words with
  | .error e => ({ exitCode := e.exitCode }, disk)
  | .ok line => line.run disk clock

end CommandLine
end Provision
