import Provision.Bytes.Hex
import Provision.Json.Codec

/-! The JSON forms of byte strings, of hashes and addresses, and of numbers of 256 bits.

All are written in hexadecimal. Byte strings are also read from arrays of numbers. -/
namespace Provision

open Json

/-- What is wrong with a text of fixed length. -/
def Bytes.Hex.Problem.message : Bytes.Hex.Problem → String
  | .oddLength => "odd number of digits"
  | .wrongLength => "invalid string length"
  | .badCharacter c position =>
    "invalid character " ++ String.ofList (Text.Quoted.char c) ++ " at position " ++
      String.ofList (Numeral.decimal position)

namespace Bytes

def expectation : String :=
  "a variable number of bytes represented as a hex string, an array of u8, or raw bytes"

def codec : Codec Bytes where
  read depth
    | .string text =>
      match Hex.decode? text.toList with
      | some bytes => .ok bytes
      | none => .error (.mismatch (.invalidValue (.string text) "a valid hex string"))
    | .array items => deeper depth fun _ => items.bytes
    | tree => .error (tree.unexpected expectation)
  write bytes := .string (String.ofList (Hex.encode bytes))

end Bytes

namespace Fixed

variable {size : Nat}

def expectation (size : Nat) : String :=
  String.ofList (Numeral.decimal size) ++ " bytes, represented as a hex string of length " ++
    String.ofList (Numeral.decimal (2 * size)) ++ ", an array of u8, or raw bytes"

/-- The report that there are not exactly as many bytes as wanted. -/
def lengthError (size found : Nat) : Refusal :=
  .mismatch (.invalidLength found
    ("exactly " ++ String.ofList (Numeral.decimal size) ++ " bytes"))

/-- Reads the hexadecimal text. -/
def ofText (text : String) : Except Refusal (Fixed size) :=
  match Bytes.Hex.decodeFixed size text.toList with
  | .ok word => .ok word
  | .error problem => .error (.mismatch (.refused problem.message))

def toText (word : Fixed size) : String :=
  String.ofList (Bytes.Hex.encode word.bytes)

/-- Reads an array of exactly `size` numbers. -/
def ofItems (items : Items) : Except Refusal (Fixed size) := do
  return front (← items.exactly (lengthError size) (lengthError size (size + 1)) 0 size)

def codec : Codec (Fixed size) where
  read depth
    | .string text => ofText text
    | .array items => deeper depth fun _ => ofItems items
    | tree => .error (tree.unexpected (expectation size))
  write word := .string word.toText

end Fixed

/-- Numbers of 256 bits. -/
abbrev UInt256 := BitVec 256

namespace UInt256

def expectation : String := "a 32 byte hex string"

/-- The base that the front of a text names, and the digits behind it. -/
def base : List Char → Nat × List Char
  | '0' :: 'x' :: digits | '0' :: 'X' :: digits => (16, digits)
  | '0' :: 'o' :: digits | '0' :: 'O' :: digits => (8, digits)
  | '0' :: 'b' :: digits | '0' :: 'B' :: digits => (2, digits)
  | digits => (10, digits)

/-- Reads a number. Underscores may stand anywhere among the digits, and no digits at all are
zero. -/
def parse? (text : List Char) : Option UInt256 :=
  let (base, digits) := base text
  match Numeral.readDigits base (1 <<< 256) 0 (digits.filter (· ≠ '_')) with
  | .ok value => some (BitVec.ofNat 256 value)
  | .error _ => none

def print (value : UInt256) : List Char :=
  Bytes.Hex.number value.toNat

def codec : Codec UInt256 where
  read _
    | .number (.natural value) => .ok (BitVec.ofNat 256 value.toNat)
    | .string text =>
      match parse? text.toList with
      | some value => .ok value
      | none => .error (.mismatch (.invalidValue (.string text) expectation))
    | tree => .error (tree.unexpected expectation)
  write value := .string (String.ofList (print value))

end UInt256
end Provision
