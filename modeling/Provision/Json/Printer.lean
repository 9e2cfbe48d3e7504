import Provision.Json.Basic
import Provision.Numeral.Shortest

/-! JSON values as text.

`print` leaves out every space. `pretty` puts each item and each member on a line of its own,
two spaces further in than what holds it. -/
namespace Provision.Json

/-- A character inside a string. Only the quote, the backslash and control characters are
escaped. -/
def escape (c : Char) : List Char :=
  if c = '"' then ['\\', '"']
  else if c = '\\' then ['\\', '\\']
  else if c = '\x08' then ['\\', 'b']
  else if c = '\x09' then ['\\', 't']
  else if c = '\x0a' then ['\\', 'n']
  else if c = '\x0c' then ['\\', 'f']
  else if c = '\x0d' then ['\\', 'r']
  else if c.toNat < 0x20 then
    ['\\', 'u', '0', '0', Numeral.digitChar (c.toNat / 16), Numeral.digitChar (c.toNat % 16)]
  else [c]

def printString (value : String) : List Char :=
  '"' :: value.toList.flatMap escape ++ ['"']

def Num.print : Num → List Char
  | .natural value => Numeral.decimal value.toNat
  | .negative below => '-' :: Numeral.decimal (below.val + 1)
  | .float value => value.write

mutual

def print : Json → List Char
  | .null => ['n', 'u', 'l', 'l']
  | .bool true => ['t', 'r', 'u', 'e']
  | .bool false => ['f', 'a', 'l', 's', 'e']
  | .number value => value.print
  | .string value => printString value
  | .array [] => ['[', ']']
  | .array (item :: rest) => '[' :: (print item ++ printItems rest)
  | .object [] => ['{', '}']
  | .object ((key, value) :: rest) =>
    '{' :: (printString key ++ ':' :: (print value ++ printMembers rest))

/-- The items after the first one, and the closing bracket. -/
def printItems : List Json → List Char
  | [] => [']']
  | item :: rest => ',' :: (print item ++ printItems rest)

/-- The members after the first one, and the closing brace. -/
def printMembers : List (String × Json) → List Char
  | [] => ['}']
  | (key, value) :: rest =>
    ',' :: (printString key ++ ':' :: (print value ++ printMembers rest))

end

/-- A new line at a depth. -/
def newLine (depth : Nat) : List Char :=
  '\n' :: List.replicate (2 * depth) ' '

mutual

/-- The value at a depth, without the indentation of its first line. -/
def pretty (depth : Nat) : Json → List Char
  | .array [] => ['[', ']']
  | .array (item :: rest) =>
    '[' :: newLine (depth + 1) ++ pretty (depth + 1) item ++ prettyItems depth rest
  | .object [] => ['{', '}']
  | .object ((key, value) :: rest) =>
    '{' :: newLine (depth + 1) ++ printString key ++ [':', ' '] ++ pretty (depth + 1) value ++
      prettyMembers depth rest
  | .null => print .null
  | .bool value => print (.bool value)
  | .number value => print (.number value)
  | .string value => print (.string value)

def prettyItems (depth : Nat) : List Json → List Char
  | [] => newLine depth ++ [']']
  | item :: rest =>
    ',' :: newLine (depth + 1) ++ pretty (depth + 1) item ++ prettyItems depth rest

def prettyMembers (depth : Nat) : List (String × Json) → List Char
  | [] => newLine depth ++ ['}']
  | (key, value) :: rest =>
    ',' :: newLine (depth + 1) ++ printString key ++ [':', ' '] ++ pretty (depth + 1) value ++
      prettyMembers depth rest

end

/-- The compact text of a value. -/
def text (value : Json) : String := String.ofList value.print

end Provision.Json
