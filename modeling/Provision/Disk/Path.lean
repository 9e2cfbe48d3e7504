import Provision.Disk.Error
import Provision.Text.Utf8

/-! Paths as text.

A path is cut into pieces at its slashes. Empty pieces, which come from repeated slashes,
count for nothing; a dot names the directory that has been reached and two dots the one above
it. The text of a path is kept as it is as far as possible, because messages show it. -/
namespace Provision

abbrev Path := List Char

/-- A name in a directory. -/
abbrev Name := List Char

/-- The names that lead from the root directory to a file or directory. -/
abbrev Location := List Name

namespace Location

/-- Where a directory is that has been removed from its location while it was in use: no path has
an empty name on it, so none leads there any more. The directory above it is the same as
before. -/
def detached (location : Location) : Location :=
  location.dropLast ++ [[]]

/-- Is the directory there in no other directory any more? -/
def isDetached (location : Location) : Bool :=
  location.getLast? == some []

end Location

namespace Path

def here : Name := ['.']

def above : Name := ['.', '.']

/-- The text between slashes, empty pieces included. -/
def pieces : Path → List Name
  | [] => [[]]
  | c :: rest =>
    if c = '/' then [] :: pieces rest
    else
      match pieces rest with
      | [] => [[c]]
      | first :: others => (c :: first) :: others

/-- The inverse of `pieces`. -/
def ofPieces : List Name → Path
  | [] => []
  | [piece] => piece
  | piece :: rest => piece ++ '/' :: ofPieces rest

def isAbsolute (path : Path) : Bool :=
  path.head? == some '/'

def endsInSlash (path : Path) : Bool :=
  path.getLast? == some '/'

/-- The pieces that are not empty. -/
def names (path : Path) : List Name :=
  (pieces path).filter fun piece => !piece.isEmpty

/-- Appends a path to another, with a slash between them if there is none. An absolute path
takes the place of the other. -/
def join (base path : Path) : Path :=
  if isAbsolute path then path
  else if base.isEmpty || endsInSlash base then base ++ path
  else base ++ '/' :: path

/-! ### Parents -/

/-- A piece that leads nowhere. -/
def isIdle (piece : Name) : Bool :=
  piece.isEmpty || piece == here

/-- Drops the idle pieces at the end. The first piece of all is kept. -/
def trimEnd : List Name → List Name
  | [] => []
  | first :: rest => first :: (rest.reverse.dropWhile isIdle).reverse

/-- The path without its last name, if it has one. Idle pieces at the end do not count. -/
def parent? (path : Path) : Option Path :=
  match trimEnd (pieces path) with
  | [] => none
  | [only] => if only.isEmpty then none else some []
  | trimmed =>
    match trimEnd trimmed.dropLast with
    | [[]] => some ['/']
    | rest => some (ofPieces rest)

/-- The first of a row of parents and the ones after it, `count` in all at most. -/
def ancestorsUpTo : (count : Nat) → Path → List Path
  | 0, _ => []
  | count + 1, path =>
    path ::
      match parent? path with
      | none => []
      | some parent => ancestorsUpTo count parent

/-- A path, its parent, the parent of that, and so on. -/
def ancestors (path : Path) : List Path :=
  ancestorsUpTo (path.length + 2) path

/-! ### Absolute paths -/

/-- The absolute path of a location. -/
def ofLocation (location : Location) : Path :=
  match location with
  | [] => ['/']
  | names => names.flatMap fun name => '/' :: name

/-- Does a path begin with exactly two slashes? -/
def hasDoubleSlash : Path → Bool
  | '/' :: '/' :: rest => rest.head? != some '/'
  | _ => false

/-- Joins names to a path one after the other. -/
def joinAll (base : Path) (names : List Name) : Path :=
  names.foldl join base

/-- The path from the root directory: a relative path goes on from the given directory, which must
have a path itself. Dots and repeated slashes disappear; two dots stay, and so does a slash at
the end. -/
def absolute (directory : Location) (path : Path) : Except FileError Path :=
  if path.isEmpty then .error .emptyPath
  else if !isAbsolute path && directory.isDetached then .error .notFound
  else
    let start :=
      if hasDoubleSlash path then ['/', '/']
      else if isAbsolute path then ['/']
      else ofLocation directory
    let whole := joinAll start ((names path).filter (· ≠ here))
    .ok (if endsInSlash path then join whole [] else whole)

end Path
end Provision
