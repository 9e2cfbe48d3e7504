import Provision.Json.Printer
import Provision.Text.Quoted

/-! What can be wrong with a JSON text.

A `Fault` makes the text no JSON at all. A `Mismatch` is a JSON value that is not of the
wanted type. Neither says where it was found. -/
namespace Provision.Json

inductive Fault
  | endOfValue
  | endOfList
  | endOfObject
  | endOfString
  | expectedValue
  | expectedIdent
  | expectedColon
  | expectedListComma
  | expectedObjectComma
  | keyMustBeString
  | trailingComma
  | trailingCharacters
  | invalidNumber
  | numberOutOfRange
  | invalidEscape
  | unexpectedEndOfEscape
  | loneSurrogate
  | controlCharacter
  | illFormedText
  | recursionLimit
deriving DecidableEq, Repr

/-- What a value is, for a message about it. -/
inductive Found
  | null
  | bool (value : Bool)
  | number (value : Num)
  | string (value : String)
  | sequence
  | map
deriving DecidableEq, Repr

inductive Mismatch
  | invalidType (found : Found) (expected : String)
  | invalidValue (found : Found) (expected : String)
  | missingField (name : String)
  | duplicateField (name : String)
  | invalidLength (length : Nat) (expected : String)
  /-- A string or a number that the wanted type refuses in its own words. -/
  | refused (reason : String)
deriving DecidableEq, Repr

inductive Error
  | fault (fault : Fault)
  | mismatch (mismatch : Mismatch)
deriving DecidableEq, Repr

/-- The text ended too early, it is no JSON, or it is JSON of another shape. -/
inductive Category
  | endOfText
  | syntactic
  | data
deriving DecidableEq, Repr

def Fault.message : Fault → String
  | .endOfValue => "EOF while parsing a value"
  | .endOfList => "EOF while parsing a list"
  | .endOfObject => "EOF while parsing an object"
  | .endOfString => "EOF while parsing a string"
  | .expectedValue => "expected value"
  | .expectedIdent => "expected ident"
  | .expectedColon => "expected `:`"
  | .expectedListComma => "expected `,` or `]`"
  | .expectedObjectComma => "expected `,` or `\x7d`"
  | .keyMustBeString => "key must be a string"
  | .trailingComma => "trailing comma"
  | .trailingCharacters => "trailing characters"
  | .invalidNumber => "invalid number"
  | .numberOutOfRange => "number out of range"
  | .invalidEscape => "invalid escape"
  | .unexpectedEndOfEscape => "unexpected end of hex escape"
  | .loneSurrogate => "lone leading surrogate in hex escape"
  | .controlCharacter => "control character (\\u0000-\\u001F) found while parsing a string"
  | .illFormedText => "invalid unicode code point"
  | .recursionLimit => "recursion limit exceeded"

def Fault.category : Fault → Category
  | .endOfValue | .endOfList | .endOfObject | .endOfString => .endOfText
  | _ => .syntactic

def Found.message : Found → String
  | .null => "null"
  | .bool value => "boolean `" ++ toString value ++ "`"
  | .number (.float value) => "floating point `" ++ String.ofList value.write ++ "`"
  | .number value => "integer `" ++ String.ofList value.print ++ "`"
  | .string value => "string " ++ String.ofList (Text.Quoted.text value.toList)
  | .sequence => "sequence"
  | .map => "map"

def Mismatch.message : Mismatch → String
  | .invalidType found expected => "invalid type: " ++ found.message ++ ", expected " ++ expected
  | .invalidValue found expected => "invalid value: " ++ found.message ++ ", expected " ++ expected
  | .missingField name => "missing field `" ++ name ++ "`"
  | .duplicateField name => "duplicate field `" ++ name ++ "`"
  | .invalidLength length expected =>
    "invalid length " ++ String.ofList (Numeral.decimal length) ++ ", expected " ++ expected
  | .refused reason => reason

namespace Error

def message : Error → String
  | .fault f => f.message
  | .mismatch m => m.message

def category : Error → Category
  | .fault f => f.category
  | .mismatch _ => .data

end Error
end Provision.Json
