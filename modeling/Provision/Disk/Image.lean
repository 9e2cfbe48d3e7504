import Provision.Bytes.Hex
import Provision.Disk.Basic
import Provision.Json.Reader

/-! Databases as text.

The image of a database is a line that marks it, and behind it a document with the entries in
hexadecimal, if it has a table. -/
namespace Provision

namespace Table

def imageMark : List Char := ['#', ' ', 'c', 'h', 'a', 'i', 'n', ' ', 's', 't', 'o', 'r', 'e', '\n']

def image (table : Table) : List Char :=
  let members := table.map fun (key, value) =>
    (String.ofList (Bytes.Hex.encode key), Json.string (String.ofList (Bytes.Hex.encode value)))
  imageMark ++ (Json.object members).print

/-- Reads the value of an entry. -/
def entry? (member : String × Json) : Option (Bytes × Bytes) :=
  match member with
  | (key, .string value) => do
    return (← Bytes.Hex.decode? key.toList, ← Bytes.Hex.decode? value.toList)
  | _ => none

/-- Reads an image. -/
def ofImage? (text : List Char) : Option Table :=
  if imageMark.isPrefixOf text then
    match Json.parse (text.drop imageMark.length) with
    | .ok (.object members) => (members.mapM entry?).map Dictionary.ofList
    | _ => none
  else none

end Table

namespace Content

def image : Content → List Char
  | .text chars => chars
  | .database table => table.image
  | .shell => Table.imageMark

/-- The content that a text is the image of. -/
def ofImage (chars : List Char) : Content :=
  if chars = Table.imageMark then .shell
  else
    match Table.ofImage? chars with
    | some table => .database table
    | none => .text chars

end Content
end Provision
