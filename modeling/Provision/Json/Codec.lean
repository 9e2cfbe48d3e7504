import Provision.Json.Reader

/-! Types with a JSON form.

A `Codec` reads a type from a tree and writes it as a value. Reading goes through the tree in
the order of the text and stops at the first problem. -/
namespace Provision.Json

structure Codec (α : Type) where
  read : Decoder α
  write : α → Json

namespace Codec

variable {α : Type}

/-- Reads a text that holds one value of the type. -/
def parse (codec : Codec α) (text : List Char) : Except Error α :=
  decode codec.read (Text.Utf8.ofChars text)

/-- The compact text of a value of the type. -/
def print (codec : Codec α) (value : α) : List Char :=
  (codec.write value).print

/-- Null stands for no value. -/
def optional (codec : Codec α) : Codec (Option α) where
  read depth
    | .null => .ok none
    | tree => (codec.read depth tree).map some
  write
    | none => .null
    | some value => codec.write value

end Codec

/-! ### Plain types -/

/-- Reads a natural number below a limit. -/
def Tree.natural (limit : Nat) (expected : String) : Tree → Except Refusal Nat
  | .number (.natural value) =>
    if value.toNat < limit then .ok value.toNat
    else .error (.mismatch (.invalidValue (.number (.natural value)) expected))
  | .number (.negative below) =>
    .error (.mismatch (.invalidValue (.number (.negative below)) expected))
  | tree => .error (tree.unexpected expected)

/-- A natural number of 64 bits, as a number. -/
def Codec.uint64 : Codec UInt64 where
  read _ tree := (tree.natural UInt64.size "u64").map UInt64.ofNat
  write value := .natural value

def Codec.bool : Codec Bool where
  read _
    | .bool value => .ok value
    | tree => .error (tree.unexpected "a boolean")
  write value := .bool value

def Codec.string : Codec String where
  read _
    | .string value => .ok value
    | tree => .error (tree.unexpected "a string")
  write value := .string value

/-! ### Lists of bytes -/

/-- Reads a byte from its number. -/
def Tree.byte (tree : Tree) : Except Refusal UInt8 :=
  (tree.natural 256 "u8").map UInt8.ofNat

/-- Reads the items of a list as bytes, as many as there are. -/
def Items.bytes : Items → Except Refusal Bytes
  | .stop how => do accept how.fault?; return []
  | .more item rest => do
    let byte ← item.byte
    let bytes ← rest.bytes
    return byte :: bytes

/-- Lets a list close where a reader has given up one of its items. The list goes on from there
in the text, and no longer in the tree. -/
def Reach.close (reach : Reach) : Except Refusal Unit :=
  match skipBlank reach.rest with
  | [] => .error (.fault .endOfList)
  | b :: rest =>
    if b = ']'.toUInt8 then .error (.strike reach)
    else if b = ','.toUInt8 ∧ (skipBlank rest).head? = some ']'.toUInt8 then
      .error (.fault .trailingComma)
    else .error (.fault .trailingCharacters)

/-- What follows the last byte that is wanted. One more byte is too much. Any other number,
string or word in its place is passed over, as far as it can be read, and so is a comma that
nothing follows. After that the list has to close. -/
def Items.afterBytes (tooLong : Refusal) : Items → Except Refusal Unit
  | .stop .danglingComma => .ok ()
  | .stop .textEndsAfterComma => .error (.fault .endOfList)
  | .stop how => Items.finish (.stop how)
  | .more (.broken _ _ reach) _ => reach.close
  | .more (.array _) _ | .more (.object _) _ => .error (.fault .trailingCharacters)
  | .more item rest =>
    match item.byte with
    | .ok _ => .error tooLong
    | .error _ => rest.finish

/-- Reads exactly the bytes that are missing, when `found` of them have been read. -/
def Items.exactly (tooShort : Nat → Refusal) (tooLong : Refusal) (found : Nat) :
    (missing : Nat) → Items → Except Refusal Bytes
  | 0, items => do items.afterBytes tooLong; return []
  | missing + 1, .more item rest => do
    let byte ← item.byte
    let bytes ← rest.exactly tooShort tooLong (found + 1) missing
    return byte :: bytes
  | _ + 1, .stop how => do accept how.fault?; .error (tooShort found)

/-! ### Maps -/

/-- Reads the members of an object, each key by `key` and each value by `value`. -/
def Members.pairs {κ υ : Type} (key : String → Except Refusal κ) (value : Tree → Except Refusal υ) :
    Members → Except Refusal (List (κ × υ))
  | .stop how => do accept how.fault?; return []
  | .more (.error f) _ _ => .error (.fault f)
  | .more (.ok name) tree rest => do
    let name ← key name
    let content ← value tree
    let pairs ← rest.pairs key value
    return (name, content) :: pairs

/-- Reads an object as a map. Of members with equal keys the last one counts. -/
def Tree.dictionary {κ υ : Type} [LT κ] [DecidableLT κ] [DecidableEq κ]
    (key : String → Except Refusal κ) (value : Decoder υ) (depth : Nat) :
    Tree → Except Refusal (Dictionary κ υ)
  | .object members => do
    let pairs ← deeper depth fun depth => members.pairs key (value depth)
    return Dictionary.ofList pairs
  | tree => .error (tree.unexpected "a map")

def Codec.dictionary {κ υ : Type} [LT κ] [DecidableLT κ] [DecidableEq κ]
    (readKey : String → Except Refusal κ) (writeKey : κ → String) (codec : Codec υ) :
    Codec (Dictionary κ υ) where
  read := Tree.dictionary readKey codec.read
  write map := .object (map.map fun entry => (writeKey entry.1, codec.write entry.2))

/-- An object with values of any shape, as a map. -/
def Codec.fields : Codec Fields where
  read depth
    | .object members => deeper depth fun depth => members.fields depth []
    | tree => .error (tree.unexpected "a map")
  write fields := .object fields

end Provision.Json
