import Provision.Command.Verbosity
import Provision.Disk.Path

/-! What can be said on a command line: a verb, and switches before and after it. -/
namespace Provision

/-- A word of a command line. -/
abbrev CommandWord := List Char

/-! ### Verbs -/

/-- What the program is asked to do. -/
inductive Verb
  | init
  | remove
  | inspect
deriving DecidableEq, Repr

namespace Verb

def name : Verb → CommandWord
  | .init => ['i', 'n', 'i', 't']
  | .remove => ['r', 'e', 'm', 'o', 'v', 'e']
  | .inspect => ['i', 'n', 's', 'p', 'e', 'c', 't']

def all : List Verb := [.init, .remove, .inspect]

def named? (word : CommandWord) : Option Verb :=
  all.find? fun verb => verb.name == word

end Verb

/-- The word that asks for help as a verb does. -/
def helpWord : CommandWord := ['h', 'e', 'l', 'p']

/-! ### Switches -/

inductive Switch
  | dataDir
  | instanceName
  | genesis
  | cache
  | dryRun
  | dataDirAbs
  | id
  | verbosity
  | help
  | version
deriving DecidableEq, Repr

namespace Switch

/-- The name, which stands behind two dashes. -/
def name : Switch → List Char
  | .dataDir => ['d', 'a', 't', 'a', '-', 'd', 'i', 'r']
  | .instanceName => ['i', 'n', 's', 't', 'a', 'n', 'c', 'e', '-', 'n', 'a', 'm', 'e']
  | .genesis => ['g', 'e', 'n', 'e', 's', 'i', 's']
  | .cache => ['c', 'a', 'c', 'h', 'e']
  | .dryRun => ['d', 'r', 'y', '-', 'r', 'u', 'n']
  | .dataDirAbs => ['d', 'a', 't', 'a', '-', 'd', 'i', 'r', '-', 'a', 'b', 's']
  | .id => ['i', 'd']
  | .verbosity => ['v', 'e', 'r', 'b', 'o', 's', 'i', 't', 'y']
  | .help => ['h', 'e', 'l', 'p']
  | .version => ['v', 'e', 'r', 's', 'i', 'o', 'n']

/-- The letter, which stands behind one dash. -/
def letter? : Switch → Option Char
  | .verbosity => some 'v'
  | .help => some 'h'
  | .version => some 'V'
  | _ => none

def takesValue : Switch → Bool
  | .dryRun | .help | .version => false
  | _ => true

/-- The environment variable that stands in for a switch which is not given. -/
def environmentName? : Switch → Option (List Char)
  | .dataDir => some "GENINIT_DATA_DIR".toList
  | .instanceName => some "GENINIT_INSTANCE_NAME".toList
  | .genesis => some "GENINIT_GENESIS".toList
  | _ => none

/-- The name of the value, in capital letters. -/
def valueName (switch : Switch) : List Char :=
  switch.name.map fun c => if c = '-' then '_' else c.toUpper

/-- How a switch is shown to the user. -/
def display (switch : Switch) : String :=
  "--" ++ String.ofList switch.name ++
    if switch.takesValue then " <" ++ String.ofList switch.valueName ++ ">" else ""

end Switch

/-! ### Levels -/

/-- Where a switch is given: behind a verb, or before any. -/
abbrev CommandLevel := Option Verb

namespace CommandLevel

/-- The switches of a level. Values that are missing are reported in this order. -/
def switches : CommandLevel → List Switch
  | none => [.verbosity, .help, .version]
  | some .init => [.dataDir, .instanceName, .genesis, .cache, .dryRun, .verbosity, .help]
  | some .remove => [.dataDirAbs, .id, .verbosity, .help]
  | some .inspect => [.dataDir, .instanceName, .verbosity, .help]

/-- The switches that have no default. -/
def required : CommandLevel → List Switch
  | none => []
  | some .init => [.dataDir, .genesis]
  | some .remove => [.dataDirAbs]
  | some .inspect => [.dataDir]

def named? (level : CommandLevel) (name : List Char) : Option Switch :=
  (switches level).find? fun switch => switch.name == name

def lettered? (level : CommandLevel) (letter : Char) : Option Switch :=
  (switches level).find? fun switch => switch.letter? == some letter

end CommandLevel
end Provision
