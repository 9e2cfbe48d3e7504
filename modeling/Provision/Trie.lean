import Provision.Hash.Keccak
import Provision.Rlp

/-! Roots of Merkle Patricia tries.

A trie is built from pairs of a path and a value, where a path is a list of half bytes and
all paths have the same length. A node with one pair is a leaf; paths with a common front
share an extension; otherwise a branch sorts the pairs by the next half byte. A node whose
encoding is shorter than a hash stands in its parent itself, any other by its hash. -/
namespace Provision.Trie

/-- A number below sixteen. -/
abbrev Nibble := UInt8

abbrev Entries := List (List Nibble × Bytes)

def nibbles (bytes : Bytes) : List Nibble :=
  bytes.flatMap fun byte => [byte / 16, byte % 16]

/-- Packs pairs of half bytes into bytes. -/
def pack : List Nibble → Bytes
  | high :: low :: rest => (high * 16 + low) :: pack rest
  | _ => []

/-- A piece of a path behind a flag that tells a leaf from an extension and an odd length from
an even one. -/
def compact (leaf : Bool) (path : List Nibble) : Bytes :=
  let flag : Nibble := if leaf then 2 else 0
  if path.length % 2 = 1 then pack ((flag + 1) :: path) else pack (flag :: 0 :: path)

/-- The longest common front of two paths. -/
def common : List Nibble → List Nibble → List Nibble
  | a :: as, b :: bs => if a = b then a :: common as bs else []
  | _, _ => []

/-- The longest common front of a path and all others. -/
def commonAll (path : List Nibble) (entries : Entries) : List Nibble :=
  entries.foldl (fun front entry => common front entry.1) path

/-- The entries whose path begins with a half byte, without it. -/
def below (nibble : Nibble) (entries : Entries) : Entries :=
  entries.filterMap fun
    | (first :: path, value) => if first = nibble then some (path, value) else none
    | _ => none

/-- How a node is referred to. -/
def reference (node : Rlp) : Rlp :=
  let encoded := node.encode
  if encoded.length < 32 then node else .fixed (Hash.keccak encoded)

/-- The sixteen half bytes. -/
def allNibbles : List Nibble := [0, 1, 2, 3, 4, 5, 6, 7, 8, 9, 10, 11, 12, 13, 14, 15]

/-- The node for some entries. `levels` bounds how many branches lie below it. -/
def node : (levels : Nat) → Entries → Rlp
  | 0, _ => .bytes []
  | _ + 1, [] => .bytes []
  | _ + 1, [(path, value)] => .list [.bytes (compact true path), .bytes value]
  | levels + 1, (path, value) :: rest =>
    let front := commonAll path rest
    let entries := ((path, value) :: rest).map fun entry => (entry.1.drop front.length, entry.2)
    let child (nibble : Nibble) : Rlp :=
      match below nibble entries with
      | [] => .bytes []
      | inside => reference (node levels inside)
    let branch : Rlp := .list (allNibbles.map child ++ [.bytes []])
    if front.isEmpty then branch
    else .list [.bytes (compact false front), reference branch]

/-- The root of the trie in which each value lies under the hash of its key. -/
def root (entries : List (Bytes × Bytes)) : Hash :=
  let paths := entries.map fun (key, value) => (nibbles (Hash.keccak key).bytes, value)
  Hash.keccak (node 65 paths).encode

end Provision.Trie
