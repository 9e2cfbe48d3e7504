import Provision.Bytes.Hex
import Provision.Json.Codec

/-! Quantities: numbers of 64 bits that a document writes in hexadecimal, in decimal, or as a
JSON number. They are always written back in hexadecimal. -/
namespace Provision.Quantity

inductive Problem
  /-- Nothing follows the mark of a hexadecimal number. -/
  | noDigits
  | malformed (problem : Numeral.Problem)
deriving DecidableEq, Repr

/-- What is wrong with a text. -/
def Problem.message (text : List Char) : Problem → String
  | .noDigits => "empty hex quantity: " ++ String.ofList (Text.Quoted.text text)
  | .malformed problem => String.ofList (Text.Quoted.text text) ++ ": " ++ problem.message

/-- The digits behind the mark of a hexadecimal number. -/
def markedDigits? : List Char → Option (List Char)
  | '0' :: 'x' :: digits => some digits
  | '0' :: 'X' :: digits => some digits
  | _ => none

/-- Reads digits of a base. -/
def readDigits (base : Nat) (digits : List Char) : Except Problem UInt64 :=
  match Numeral.read base UInt64.size digits with
  | .ok value => .ok (UInt64.ofNat value)
  | .error problem => .error (.malformed problem)

def parse (text : List Char) : Except Problem UInt64 :=
  match markedDigits? text with
  | some [] => .error .noDigits
  | some digits => readDigits 16 digits
  | none => readDigits 10 text

def print (value : UInt64) : List Char :=
  Bytes.Hex.number value.toNat

open Json in
/-- Reads a quantity in any of its forms. -/
def read : Tree → Except Refusal UInt64
  | .number (.natural value) => .ok value
  | .number (.negative _) =>
    .error (.mismatch (.refused "number too small to fit in target type"))
  | .string text =>
    match parse text.toList with
    | .ok value => .ok value
    | .error problem => .error (.mismatch (.refused (problem.message text.toList)))
  | tree => .error (tree.unexpected "a hex or decimal encoded u64")

def codec : Json.Codec UInt64 where
  read _ tree := read tree
  write value := .string (String.ofList (print value))

end Provision.Quantity
