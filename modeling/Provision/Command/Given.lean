import Provision.Command.Switch
import Provision.Instance.Basic

/-! The values of switches, and the commands they make. -/
namespace Provision

/-- What is wrong with a command line, or what it asks for in place of a command. -/
inductive UsageError
  | help
  | version
  /-- Nothing at all is asked for. -/
  | nothing
  | noVerb
  | unknownVerb (word : CommandWord)
  | unknownSwitch (word : CommandWord)
  /-- No value, or an empty path. -/
  | noValue (switch : Switch)
  | invalidValue (switch : Switch) (value : List Char) (reason : String)
  | unexpectedValue (switch : Switch) (value : List Char)
  | repeated (switch : Switch)
  | missing (switches : List Switch)
deriving DecidableEq, Repr

/-! ### Commands -/

structure InitOptions where
  dataDir : Path
  instanceName : Name := Instance.defaultName
  genesis : Path
  cache : UInt64 := 16
  dryRun : Bool := false
deriving DecidableEq, Repr

structure RemoveOptions where
  dataDirAbs : Path
  id : List Char := []
deriving DecidableEq, Repr

structure InspectOptions where
  dataDir : Path
  instanceName : Name := Instance.defaultName
deriving DecidableEq, Repr

inductive Command
  | init (options : InitOptions)
  | remove (options : RemoveOptions)
  | inspect (options : InspectOptions)
deriving DecidableEq, Repr

structure CommandLine where
  verbosity : Verbosity := .info
  command : Command
deriving DecidableEq, Repr

/-! ### Values -/

/-- The values that have been given. -/
structure GivenValues where
  dataDir : Option Path := none
  instanceName : Option Name := none
  genesis : Option Path := none
  cache : Option UInt64 := none
  dryRun : Bool := false
  dataDirAbs : Option Path := none
  id : Option (List Char) := none
  verbosity : Option Verbosity := none
deriving DecidableEq, Repr

namespace GivenValues

/-- Has a switch been given? -/
def has (given : GivenValues) : Switch → Bool
  | .dataDir => given.dataDir.isSome
  | .instanceName => given.instanceName.isSome
  | .genesis => given.genesis.isSome
  | .cache => given.cache.isSome
  | .dryRun => given.dryRun
  | .dataDirAbs => given.dataDirAbs.isSome
  | .id => given.id.isSome
  | .verbosity => given.verbosity.isSome
  | .help | .version => false

/-- A path must not be empty. -/
def readPath (switch : Switch) (value : List Char) : Except UsageError Path :=
  if value.isEmpty then .error (.noValue switch) else .ok value

def readCache (value : List Char) : Except UsageError UInt64 :=
  (Numeral.readUInt64 value).mapError fun problem => .invalidValue .cache value problem.message

def readVerbosity (value : List Char) : Except UsageError Verbosity :=
  (Verbosity.parse value).mapError fun problem =>
    .invalidValue .verbosity value (problem.message value)

/-- Sets the value of a switch. One that takes no value is set by any. -/
def set (given : GivenValues) (switch : Switch) (value : List Char) :
    Except UsageError GivenValues :=
  match switch with
  | .dataDir => (readPath .dataDir value).map fun v => { given with dataDir := some v }
  | .instanceName => .ok { given with instanceName := some value }
  | .genesis => (readPath .genesis value).map fun v => { given with genesis := some v }
  | .cache => (readCache value).map fun v => { given with cache := some v }
  | .dryRun => .ok { given with dryRun := true }
  | .dataDirAbs => (readPath .dataDirAbs value).map fun v => { given with dataDirAbs := some v }
  | .id => .ok { given with id := some value }
  | .verbosity => (readVerbosity value).map fun v => { given with verbosity := some v }
  | .help => .error .help
  | .version => .error .version

/-- Sets the value of a switch that has not been given before. -/
def enter (given : GivenValues) (switch : Switch) (value : List Char) :
    Except UsageError GivenValues :=
  if given.has switch then .error (.repeated switch) else given.set switch value

/-- Takes the switches that are not given from the environment, as far as it has them. -/
def complete (environment : List Char → Option (List Char)) :
    List Switch → GivenValues → Except UsageError GivenValues
  | [], given => .ok given
  | switch :: rest, given =>
    if given.has switch then complete environment rest given
    else
      match switch.environmentName?.bind environment with
      | none => complete environment rest given
      | some value => do complete environment rest (← given.set switch value)

/-- The switches of a verb that are still missing. -/
def missing (given : GivenValues) (verb : Verb) : List Switch :=
  (CommandLevel.required (some verb)).filter fun switch => !given.has switch

/-- The command that a verb and the values behind it make. -/
def command (given : GivenValues) (verb : Verb) : Except UsageError Command :=
  let instanceName := given.instanceName.getD Instance.defaultName
  match verb, given.dataDir, given.genesis, given.dataDirAbs with
  | .init, some dataDir, some genesis, _ =>
    let options : InitOptions :=
      { dataDir, instanceName, genesis, dryRun := given.dryRun }
    .ok (.init { options with cache := given.cache.getD options.cache })
  | .remove, _, _, some dataDirAbs => .ok (.remove ⟨dataDirAbs, given.id.getD []⟩)
  | .inspect, some dataDir, _, _ => .ok (.inspect ⟨dataDir, instanceName⟩)
  | verb, _, _, _ => .error (.missing (given.missing verb))

end GivenValues
end Provision
