import Provision.Bytes.Fixed

/-! Recursive length prefixes.

An item is a byte string or a list of items. It is encoded as its payload behind the length
of the payload; a single byte below 128 stands for itself. -/
namespace Provision

inductive Rlp
  | bytes (content : Bytes)
  | list (items : List Rlp)

namespace Rlp

/-- A number, in as few bytes as it needs. -/
def number (value : Nat) : Rlp := .bytes (Bytes.minimal value)

def fixed {size : Nat} (word : Fixed size) : Rlp := .bytes word.bytes

/-- The length of a payload, counted from a first byte. -/
def mark (first : Nat) (length : Nat) : Bytes :=
  if length ≤ 55 then [UInt8.ofNat (first + length)]
  else
    let size := Bytes.minimal length
    UInt8.ofNat (first + 55 + size.length) :: size

def encodeBytes : Bytes → Bytes
  | [byte] => if byte < 0x80 then [byte] else mark 0x80 1 ++ [byte]
  | content => mark 0x80 content.length ++ content

mutual

def encode : Rlp → Bytes
  | .bytes content => encodeBytes content
  | .list items =>
    let payload := encodeItems items
    mark 0xc0 payload.length ++ payload

def encodeItems : List Rlp → Bytes
  | [] => []
  | item :: rest => encode item ++ encodeItems rest

end

/-- The encoding of the empty list. -/
def emptyList : Bytes := [0xc0]

end Rlp
end Provision
