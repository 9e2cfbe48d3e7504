import Provision.Disk.Path
import Provision.Store.Basic

/-! A disk: directories, and files in them.

The tree maps the location of everything below the root directory to what is there. What a
file holds is kept apart from where it is, so that a file which has been removed while it was
in use goes on to exist for its user. So does the working directory: removed, it is an empty
directory in which nothing can be made, even if there is a new one at its old location.

`locate` follows a path as the operating system does. -/
namespace Provision

inductive Entry
  | directory
  | file (id : Nat)
deriving DecidableEq, Repr

inductive Content
  | text (chars : List Char)
  | database (table : Table)
  /-- A database in which no table has been made yet. -/
  | shell
deriving DecidableEq

structure Disk where
  tree : Dictionary Location Entry := []
  contents : Dictionary Nat Content := []
  /-- The files that someone has open as databases. -/
  held : List Nat := []
  /-- No file has this number or a higher one. -/
  nextFile : Nat := 0
  /-- How many write transactions on databases succeed. -/
  allowance : Allowance := none
  workingDirectory : Location := []
deriving DecidableEq

namespace Disk

/-- What is at a location. -/
def entry? (disk : Disk) (location : Location) : Option Entry :=
  if location = [] ∨ location.isDetached then some .directory else disk.tree.find? location

def isDirectoryAt (disk : Disk) (location : Location) : Bool :=
  disk.entry? location == some .directory

/-- Is anything in the directory at a location? -/
def hasEntries (disk : Disk) (location : Location) : Bool :=
  disk.tree.any fun (place, _) => place.length == location.length + 1 && location.isPrefixOf place

/-- Puts an entry at a location. -/
def put (disk : Disk) (location : Location) (entry : Entry) : Disk :=
  { disk with tree := disk.tree.insert location entry }

/-- Removes what is at the places that are meant. -/
def removeWhere (disk : Disk) (isMeant : Location → Bool) : Disk :=
  { disk with
    tree := disk.tree.filter fun (place, _) => !isMeant place
    workingDirectory :=
      if isMeant disk.workingDirectory then disk.workingDirectory.detached
      else disk.workingDirectory }

/-- Removes everything below a location. -/
def clear (disk : Disk) (location : Location) : Disk :=
  disk.removeWhere fun place => location.isPrefixOf place && place != location

/-- Removes a location and everything below it. -/
def remove (disk : Disk) (location : Location) : Disk :=
  disk.removeWhere location.isPrefixOf

/-! ### Following a path -/

/-- A name may have this many bytes. -/
def mostNameBytes : Nat := 255

/-- A path must have fewer bytes than this. -/
def pathBound : Nat := 4096

/-- Follows one name from a location, which must be a directory. -/
def enter (disk : Disk) (location : Location) (name : Name) : Except FileError Location :=
  match disk.entry? location with
  | none => .error .notFound
  | some (.file _) => .error .notDirectory
  | some .directory =>
    if name = Path.here then .ok location
    else if name = Path.above then .ok location.dropLast
    else if location.isDetached then .error .notFound
    else if mostNameBytes < Text.Utf8.length name then .error .nameTooLong
    else
      match disk.entry? (location ++ [name]) with
      | none => .error .notFound
      | some _ => .ok (location ++ [name])

/-- Follows names from a location. -/
def walk (disk : Disk) : Location → List Name → Except FileError Location
  | location, [] => .ok location
  | location, name :: rest => do
    let next ← disk.enter location name
    disk.walk next rest

/-- Refuses what can be no path at all. -/
def checkPath (path : Path) : Except FileError Unit :=
  if '\x00' ∈ path then .error .zeroInPath
  else if path.isEmpty then .error .notFound
  else if pathBound ≤ Text.Utf8.length path then .error .nameTooLong
  else .ok ()

/-- Where the names of a path lead on from. -/
def start (disk : Disk) (path : Path) : Location :=
  if Path.isAbsolute path then [] else disk.workingDirectory

/-- Where a path leads. A path that ends in a slash must lead to a directory. -/
def locate (disk : Disk) (path : Path) : Except FileError Location := do
  checkPath path
  let location ← disk.walk (disk.start path) (Path.names path)
  match disk.entry? location with
  | none => .error .notFound
  | some .directory => return location
  | some (.file _) => if Path.endsInSlash path then .error .notDirectory else return location

/-- Does a path lead to a directory? -/
def isDirectory (disk : Disk) (path : Path) : Bool :=
  match disk.locate path with
  | .ok location => disk.isDirectoryAt location
  | .error _ => false

/-- The file that a path leads to. -/
def file? (disk : Disk) (path : Path) : Option Nat :=
  match disk.locate path with
  | .ok location =>
    match disk.entry? location with
    | some (.file id) => some id
    | _ => none
  | .error _ => none

/-! ### Making directories and files -/

/-- The directory in which the last name of a path is looked up. -/
def directoryOf (disk : Disk) (path : Path) : Except FileError Location := do
  checkPath path
  let directory ← disk.walk (disk.start path) (Path.names path).dropLast
  match disk.entry? directory with
  | none => .error .notFound
  | some (.file _) => .error .notDirectory
  | some .directory => return directory

/-- The location of something new that a path names, whose directory is there. `existing` is
what to do with something that is there already. -/
def place {α : Type} (disk : Disk) (path : Path) (new : Location → Except FileError α)
    (existing : Location → Entry → Except FileError α) (special : FileError) :
    Except FileError α := do
  let directory ← disk.directoryOf path
  match (Path.names path).getLast? with
  | none => .error special
  | some name =>
    if name = Path.here ∨ name = Path.above then .error special
    else if directory.isDetached then .error .notFound
    else if mostNameBytes < Text.Utf8.length name then .error .nameTooLong
    else
      match disk.entry? (directory ++ [name]) with
      | none => new (directory ++ [name])
      | some entry => existing (directory ++ [name]) entry

/-- Makes one directory, in a directory that is there. -/
def makeDirectory (disk : Disk) (path : Path) : Except FileError Disk :=
  disk.place path (fun location => .ok (disk.put location .directory))
    (fun _ _ => .error .exists) .exists

/-- Makes the first of a row of paths, each the parent of the one before it, and before that
those of its parents that are missing. A directory that is there already will do. What has
been made stays, even if something later fails. -/
def makeAll (disk : Disk) : List Path → Except FileError Unit × Disk
  | [] => (.error .noParent, disk)
  | path :: parents =>
    if path.isEmpty then (.ok (), disk)
    else
      match disk.makeDirectory path with
      | .ok disk => (.ok (), disk)
      | .error .notFound =>
        match disk.makeAll parents with
        | (.error e, disk) => (.error e, disk)
        | (.ok (), disk) =>
          match disk.makeDirectory path with
          | .ok disk => (.ok (), disk)
          | .error e => if disk.isDirectory path then (.ok (), disk) else (.error e, disk)
      | .error e => if disk.isDirectory path then (.ok (), disk) else (.error e, disk)

/-- Makes a directory and those of its parents that are missing. -/
def makeDirectories (disk : Disk) (path : Path) : Except FileError Unit × Disk :=
  disk.makeAll (Path.ancestors path)

/-- Puts a new file at a location. -/
def addFile (disk : Disk) (location : Location) (content : Content) : Disk :=
  { disk.put location (.file disk.nextFile) with
    contents := disk.contents.insert disk.nextFile content
    nextFile := disk.nextFile + 1 }

/-- Gives a file new content. -/
def setContent (disk : Disk) (id : Nat) (content : Content) : Disk :=
  { disk with contents := disk.contents.insert id content }

/-- Writes a text into a file, which is made if it is not there. A path that ends in a slash
names no file. -/
def writeText (disk : Disk) (path : Path) (text : List Char) : Except FileError Disk :=
  if Path.endsInSlash path then do
    let _ ← disk.directoryOf path
    .error .isDirectory
  else
    disk.place path (fun location => .ok (disk.addFile location (.text text)))
      (fun _ entry =>
        match entry with
        | .directory => .error .isDirectory
        | .file id => .ok (disk.setContent id (.text text)))
      .isDirectory

/-- The text of a file. -/
def readText (disk : Disk) (path : Path) : Except FileError (List Char) := do
  let location ← disk.locate path
  match disk.entry? location with
  | none => .error .notFound
  | some .directory => .error .isDirectory
  | some (.file id) =>
    match disk.contents.find? id with
    | some (.text text) => return text
    | _ => .error .notText

/-! ### Removing -/

/-- A directory that is not there counts as empty. -/
def isEmptyOrMissing (disk : Disk) (path : Path) : Except FileError Bool :=
  match disk.locate path with
  | .error .notFound => .ok true
  | .error e => .error e
  | .ok location =>
    if disk.isDirectoryAt location then .ok (!disk.hasEntries location)
    else .error .notDirectory

/-- Removes an empty directory by its name. A path that ends in a dot or two names none. -/
def removeEmpty (disk : Disk) (path : Path) (location : Location) : Except FileError Disk :=
  match (Path.names path).getLast? with
  | none => .error .busy
  | some name => do
    let _ ← disk.walk (disk.start path) (Path.names path).dropLast
    if name = Path.here then .error .invalidArgument
    else if name = Path.above then .error .notEmpty
    else return disk.remove location

/-- Removes a directory with everything in it: first what is in it, and then the directory
itself. A path that went through something in it leads nowhere any more by then, and that is
no error. -/
def removeTree (disk : Disk) (path : Path) : Except FileError Unit × Disk :=
  match disk.locate path with
  | .error e => (.error e, disk)
  | .ok location =>
    if disk.isDirectoryAt location then
      match (disk.clear location).removeEmpty path location with
      | .ok disk => (.ok (), disk)
      | .error .notFound => (.ok (), disk.clear location)
      | .error e => (.error e, disk.clear location)
    else (.error .notDirectory, disk)

/-- Removes a file, or a directory with everything in it. -/
def removeAny (disk : Disk) (path : Path) : Except FileError Unit × Disk :=
  match disk.locate path with
  | .error e => (.error e, disk)
  | .ok location =>
    if disk.isDirectoryAt location then disk.removeTree path else (.ok (), disk.remove location)

/-! ### Listing -/

/-- Everything below a location, by its path from there. A directory has a slash behind it. -/
def listing (disk : Disk) (location : Location) : List Path :=
  disk.tree.filterMap fun (place, entry) =>
    if location.isPrefixOf place && place != location then
      let path := Path.ofPieces (place.drop location.length)
      some (match entry with
        | .directory => path ++ ['/']
        | .file _ => path)
    else none

end Disk
end Provision
