import Provision.Command.Run
import Provision.Disk.Image
import Std.Time.DateTime.Timestamp

/-! The program.

A command runs on a `Disk`. The program first enters into one what is at the paths that the
command can reach, runs the command on it, and then makes the same changes where they came
from. -/
namespace Provision.Program

/-! ### The paths of a command -/

/-- The paths whose files a command may read or write. -/
def files : Command → List Path
  | .init options =>
    options.genesis :: Instance.storeNames.map
      (databasePath (Path.join options.dataDir options.instanceName))
  | .remove _ => []
  | .inspect options =>
    Instance.storeNames.map (databasePath (Path.join options.dataDir options.instanceName))

/-- The directory whose entries a command counts. -/
def counted? : Command → Option Path
  | .init options => some (Path.join options.dataDir options.instanceName)
  | .remove _ => none
  | .inspect _ => none

/-- The directory that a command removes. -/
def removed? : Command → Option Path
  | .remove options => some options.dataDirAbs
  | _ => none

/-- Where a path leads if every name on it is a directory. -/
def follow (location : Location) : List Name → List Location
  | [] => [location]
  | name :: rest =>
    let next :=
      if name = Path.here then location
      else if name = Path.above then location.dropLast
      else location ++ [name]
    location :: follow next rest

/-- The locations that a path goes through. There is none in a working directory that has been
removed. -/
def stops (disk : Disk) (path : Path) : List Location :=
  if Path.isAbsolute path then follow [] (Path.names path)
  else if disk.workingDirectory.isDetached then []
  else follow [] (disk.workingDirectory ++ Path.names path)

/-! ### Entering -/

def textOf (location : Location) : String :=
  String.ofList (Path.ofLocation location)

/-- What kind of thing is at a location, if anything is there. -/
def kindAt? (location : Location) : IO (Option IO.FS.FileType) := do
  try
    let real ← IO.FS.realPath (textOf location)
    return some (← real.metadata).type
  catch _ => return none

/-- A file whose content does not matter. -/
def addBlank (disk : Disk) (location : Location) : Disk :=
  { disk.put location (.file disk.nextFile) with nextFile := disk.nextFile + 1 }

/-- An action that locks databases, and keeps the locks. -/
abbrev Locking := StateT (List IO.FS.Handle) IO

/-- Enters a file with its content. A database that someone else has locked is held. -/
def addFile (disk : Disk) (location : Location) : Locking Disk := do
  let bytes ← IO.FS.readBinFile (textOf location)
  match Text.Utf8.decode? bytes.toList with
  | none => return addBlank disk location
  | some text =>
    match Content.ofImage text.toList with
    | .text chars => return disk.addFile location (.text chars)
    | content =>
      let handle ← IO.FS.Handle.mk (textOf location) .read
      let id := disk.nextFile
      let disk := disk.addFile location content
      if ← handle.tryLock then
        modify (handle :: ·)
        return disk
      else return disk.hold id

/-- Enters what is at a location. -/
def enter (readsFiles : Bool) (disk : Disk) (location : Location) : Locking Disk := do
  if location.isEmpty || (disk.entry? location).isSome then return disk
  match ← kindAt? location with
  | none => return disk
  | some .dir => return disk.put location .directory
  | some .file => if readsFiles then addFile disk location else return addBlank disk location
  | some _ => return addBlank disk location

/-- Enters what a directory holds, and what is below that if wanted, but no content of a file.
A link in it counts as a file. -/
partial def enterEntries (deep : Bool) (disk : Disk) (location : Location) : IO Disk := do
  let real ← IO.FS.realPath (textOf location)
  (← real.readDir).foldlM
    (fun disk entry => do
      let place := location ++ [entry.fileName.toList]
      let isDirectory := (← entry.path.symlinkMetadata).type == .dir
      let disk :=
        if (disk.entry? place).isSome then disk
        else if isDirectory then disk.put place .directory
        else addBlank disk place
      if deep && isDirectory then enterEntries deep disk place else return disk)
    disk

/-- Does a location hold a link? -/
def isLink (location : Location) : IO Bool := do
  match location.getLast? with
  | none => return false
  | some name =>
    let parent ← IO.FS.realPath (textOf location.dropLast)
    return (← (parent / String.ofList name).symlinkMetadata).type == .symlink

/-- Enters what the directory at a path holds. Nothing is removed behind a link, so nothing
behind one is entered for that. -/
def enterDirectory (removes : Bool) (disk : Disk) (path : Path) : Locking Disk := do
  let disk ← (stops disk path).foldlM (enter false) disk
  match disk.locate path with
  | .error _ => return disk
  | .ok location =>
    if !disk.isDirectoryAt location || (removes && (← isLink location)) then return disk
    enterEntries removes disk location

/-- The part of the disk that a command can reach. -/
def survey (command : Command) : Locking Disk := do
  let workingDirectory ←
    try pure (Path.names (← IO.currentDir).toString.toList)
    catch _ => pure (Location.detached [])
  let empty : Disk := { workingDirectory }
  let disk ← (stops empty Path.here).foldlM (enter false) empty
  let disk ← (files command).foldlM
    (fun disk path => (stops disk path).foldlM (enter true) disk) disk
  let disk ← (counted? command).toList.foldlM (enterDirectory false) disk
  (removed? command).toList.foldlM (enterDirectory true) disk

/-! ### Making the changes -/

/-- Writes the content of a file. -/
def writeContent (location : Location) (content : Option Content) : IO Unit :=
  match content with
  | some content => IO.FS.writeFile (textOf location) (String.ofList content.image)
  | none => return

/-- Removes what is gone, makes what is new and writes what is different. -/
def apply (before after : Disk) : IO Unit := do
  for (location, entry) in before.tree.reverse do
    if (after.entry? location).isNone then
      match entry with
      | .directory => IO.FS.removeDir (textOf location)
      | .file _ => IO.FS.removeFile (textOf location)
  for (location, entry) in after.tree do
    match entry with
    | .directory =>
      if (before.entry? location).isNone then IO.FS.createDir (textOf location)
    | .file id =>
      let content := after.contents.find? id
      if before.entry? location != some entry || before.contents.find? id != content then
        writeContent location content

/-! ### Running -/

def usage : String :=
  "Usage: [--verbosity N] init --data-dir DIR --genesis FILE [--instance-name NAME] [--cache N] " ++
    "[--dry-run]\n       [--verbosity N] remove --data-dir-abs DIR [--id ID]\n" ++
    "       [--verbosity N] inspect --data-dir DIR [--instance-name NAME]"

/-- The environment variables that stand in for switches. -/
def readEnvironment : IO (List (List Char × List Char)) :=
  [Switch.dataDir, .instanceName, .genesis].filterMapM fun switch => do
    match switch.environmentName? with
    | none => return none
    | some name => return (← IO.getEnv (String.ofList name)).map fun value => (name, value.toList)

def levelText : Verbosity → String
  | .error => "ERROR"
  | .warn => "WARN"
  | .info => "INFO"
  | .debug => "DEBUG"
  | .trace => "TRACE"

/-- Runs a command line on the real disk. -/
def runLine (line : CommandLine) : IO UInt32 := do
  let (before, locks) ← (survey line.command).run []
  let now ← Std.Time.Timestamp.now
  let (outcome, after) := line.run before now.toNanosecondsSinceUnixEpoch.val
  apply before after
  locks.forM fun lock => lock.unlock
  for (level, message) in outcome.log do
    IO.println (levelText level ++ " " ++ message)
  IO.print (String.ofList outcome.output)
  return outcome.exitCode

end Provision.Program

def main (args : List String) : IO UInt32 := do
  let environment ← Provision.Program.readEnvironment
  let words := args.map String.toList
  match Provision.CommandLine.parse (fun name => environment.lookup name) words with
  | .ok line => Provision.Program.runLine line
  | .error e =>
    if e.exitCode = 0 then IO.println Provision.Program.usage
    else IO.eprintln Provision.Program.usage
    return e.exitCode
