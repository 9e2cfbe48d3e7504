import Provision.Numeral.Digits
import Provision.Text.Unprintable

/-! Text in quotes for a message.

The quote and the backslash are escaped, the common control characters have short escapes,
and any other unprintable character is spelled by its number. -/
namespace Provision.Text.Quoted

/-- One character between quotes of the given kind. -/
def escape (quote c : Char) : List Char :=
  if c = quote ∨ c = '\\' then ['\\', c]
  else if c = '\n' then ['\\', 'n']
  else if c = '\r' then ['\\', 'r']
  else if c = '\t' then ['\\', 't']
  else if c = '\x00' then ['\\', '0']
  else if isUnprintable c then
    ['\\', 'u', '{'] ++ Numeral.write 16 c.toNat ++ ['}']
  else [c]

/-- A text in double quotes. -/
def text (chars : List Char) : List Char :=
  '"' :: chars.flatMap (escape '"') ++ ['"']

/-- A character in single quotes. -/
def char (c : Char) : List Char :=
  '\x27' :: escape '\x27' c ++ ['\x27']

end Provision.Text.Quoted
