import Provision.Numeral.Digits

/-! Text that a terminal may be shown.

The control characters with which a text could steer a terminal are spelled by their number.
The other ones, tabs and line ends among them, stay as they are. -/
namespace Provision.Text.Terminal

/-- The bell, the backspace, the form feed, the escape, the delete character, and all controls
beyond the ASCII ones. -/
def isSteering (c : Char) : Bool :=
  c = '\x07' || c = '\x08' || c = '\x0c' || c = '\x1b' || (0x7f ≤ c.toNat && c.toNat ≤ 0x9f)

/-- One character. An ASCII one is spelled with two digits. -/
def spell (c : Char) : List Char :=
  if !isSteering c then [c]
  else if c.toNat < 0x80 then
    ['\\', 'x', Numeral.digitChar (c.toNat / 16), Numeral.digitChar (c.toNat % 16)]
  else ['\\', 'u', '{'] ++ Numeral.write 16 c.toNat ++ ['}']

def text (chars : List Char) : List Char :=
  chars.flatMap spell

end Provision.Text.Terminal
