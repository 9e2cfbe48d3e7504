import Provision.Genesis.Hexadecimal

/-! The storage of an account: a map from slots to words.

A document may write slots and words with fewer digits than they have; what is missing is
filled up with zeros on the left. Several spellings can then name one slot. They are taken
in the order of the spellings, so that the last of them counts. -/
namespace Provision

namespace Word

inductive Problem
  | tooLong
  | malformed (problem : Bytes.Hex.Problem)
deriving DecidableEq, Repr

/-- What is wrong with a text. -/
def Problem.message (text : List Char) (problem : Problem) : String :=
  String.ofList (Text.Quoted.text text) ++ ": " ++
    match problem with
    | .tooLong => "longer than 32 bytes"
    | .malformed problem => problem.message

/-- Fills a text up to 64 characters with zeros on the left. -/
def pad (digits : List Char) : List Char :=
  List.replicate (64 - digits.length) '0' ++ digits

/-- Reads a word of at most 64 digits. The length that is limited is in bytes, the length that
is filled up is in characters. -/
def parse (text : List Char) : Except Problem Word :=
  let digits := Bytes.Hex.stripMark text
  if 64 < Text.Utf8.length digits then .error .tooLong
  else
    match Bytes.Hex.decodeFixed 32 (pad digits) with
    | .ok word => .ok word
    | .error problem => .error (.malformed problem)

end Word

abbrev Storage := Dictionary Word Word

namespace Storage

open Json

/-- Reads one slot or word. -/
def readWord (text : String) : Except Refusal Word :=
  match Word.parse text.toList with
  | .ok word => .ok word
  | .error problem => .error (.mismatch (.refused (problem.message text.toList)))

/-- Reads spelled entries in their order and enters them into a map. -/
def enter (storage : Storage) : List (String × String) → Except Refusal Storage
  | [] => .ok storage
  | (slot, word) :: rest => do
    let slot ← readWord slot
    let word ← readWord word
    enter (storage.insert slot word) rest

/-- The map that spelled entries, ascending by spelling, stand for. -/
def ofSpelled (spelled : Dictionary String String) : Except Refusal Storage :=
  enter [] spelled

def codec : Codec Storage where
  read depth tree := do
    ofSpelled (← tree.dictionary .ok Codec.string.read depth)
  write storage := .object (storage.map fun (slot, word) => (slot.toText, .string word.toText))

/-- Words that are zero are absent from the storage. -/
def nonzero (storage : Storage) : Storage :=
  storage.filter fun entry => !entry.2.isZero

end Storage
end Provision
