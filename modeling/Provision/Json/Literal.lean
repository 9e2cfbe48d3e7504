import Provision.Json.Error
import Provision.Text.Utf8

/-! Strings and numbers in a JSON text.

The text comes in bytes. Both kinds of literal are split first and looked into afterwards: a
string into bytes and escaped code units, a number into runs of digits. Splitting settles
where the literal ends and whether the grammar allows it; looking into it settles what it
stands for. Whatever goes wrong, a reader has got to some place in the text by then, and what
follows that place is returned with the fault. -/
namespace Provision.Json

open Numeral (digitValue?)

/-! ### Strings -/

/-- A byte, or the number in a `\u` escape. -/
inductive Piece
  | byte (byte : UInt8)
  | unit (code : Nat)
deriving DecidableEq, Repr

/-- Why a string is over. -/
inductive StringEnd
  | closed
  | textEnds
  | control
  | badEscape
  | badUnit
deriving DecidableEq, Repr

namespace StringEnd

def fault? : StringEnd → Option Fault
  | .closed => none
  | .textEnds => some .endOfString
  | .control => some .controlCharacter
  | .badEscape | .badUnit => some .invalidEscape

/-- What is reported where the second half of a character should have begun. -/
def faultAfterHalf : StringEnd → Fault
  | .textEnds => .endOfString
  | .badUnit => .invalidEscape
  | .closed | .control | .badEscape => .unexpectedEndOfEscape

end StringEnd

/-- The byte that a short escape stands for. -/
def shortEscape? (b : UInt8) : Option UInt8 :=
  if b = '"'.toUInt8 ∨ b = '\\'.toUInt8 ∨ b = '/'.toUInt8 then some b
  else if b = 'b'.toUInt8 then some 0x08
  else if b = 'f'.toUInt8 then some 0x0c
  else if b = 'n'.toUInt8 then some 0x0a
  else if b = 'r'.toUInt8 then some 0x0d
  else if b = 't'.toUInt8 then some 0x09
  else none

/-- The value of a hexadecimal digit. -/
def hexValue? (b : UInt8) : Option Nat :=
  digitValue? 16 (Char.ofUInt8 b)

/-- The number of four hexadecimal digits. -/
def codeUnit? (a b c d : UInt8) : Option Nat := do
  return (((← hexValue? a) * 16 + (← hexValue? b)) * 16 + (← hexValue? c)) * 16 + (← hexValue? d)

/-- A string taken apart. -/
structure StringText where
  /-- Every piece with the text after it. -/
  pieces : List (Piece × Bytes)
  how : StringEnd
  /-- The text after whatever ends the string. -/
  rest : Bytes
deriving DecidableEq, Repr

namespace StringText

/-- The string with one more piece in front. -/
def cons (piece : Piece) (after : Bytes) (string : StringText) : StringText :=
  { string with pieces := (piece, after) :: string.pieces }

/-- Splits the text after an opening quote. Four bytes go to an escaped code unit, whatever they
are, unless the text is shorter than that. -/
def split : Bytes → StringText
  | [] => ⟨[], .textEnds, []⟩
  | b :: rest =>
    if b = '"'.toUInt8 then ⟨[], .closed, rest⟩
    else if b = '\\'.toUInt8 then
      match rest with
      | [] => ⟨[], .textEnds, []⟩
      | e :: rest =>
        if e = 'u'.toUInt8 then
          match rest with
          | w :: x :: y :: z :: rest =>
            match codeUnit? w x y z with
            | some code => (split rest).cons (.unit code) rest
            | none => ⟨[], .badUnit, rest⟩
          | _ => ⟨[], .textEnds, []⟩
        else
          match shortEscape? e with
          | some b => (split rest).cons (.byte b) rest
          | none => ⟨[], .badEscape, rest⟩
    else if b < 0x20 then ⟨[], .control, rest⟩
    else (split rest).cons (.byte b) rest

end StringText

/-- The first half of a character beyond the basic plane. -/
def isLeading (code : Nat) : Bool := 0xd800 ≤ code && code ≤ 0xdbff

/-- The second half of a character beyond the basic plane. -/
def isTrailing (code : Nat) : Bool := 0xdc00 ≤ code && code ≤ 0xdfff

/-- The character of two halves. -/
def joined (leading trailing : Nat) : Char :=
  Char.ofNat (0x10000 + (leading - 0xd800) * 0x400 + (trailing - 0xdc00))

namespace StringText

/-- The bytes that the pieces of a string stand for, if it ends in this way with this text after
it. A fault comes with the text after the place where it is noticed. -/
def contentOf (how : StringEnd) (rest : Bytes) :
    List (Piece × Bytes) → Except (Fault × Bytes) Bytes
  | [] =>
    match how.fault? with
    | none => .ok []
    | some f => .error (f, rest)
  | (.byte b, _) :: more => (contentOf how rest more).map (b :: ·)
  | (.unit code, after) :: more =>
    if isTrailing code then .error (.loneSurrogate, after)
    else if isLeading code then
      match more with
      | (.unit second, after) :: more =>
        if isTrailing second then
          (contentOf how rest more).map (String.utf8EncodeChar (joined code second) ++ ·)
        else .error (.loneSurrogate, after)
      | (.byte _, after) :: _ => .error (.unexpectedEndOfEscape, after)
      | [] => .error (how.faultAfterHalf, rest)
    else (contentOf how rest more).map (String.utf8EncodeChar (Char.ofNat code) ++ ·)

/-- What the string stands for. -/
def content (string : StringText) : Except (Fault × Bytes) String := do
  let bytes ← contentOf string.how string.rest string.pieces
  match Text.Utf8.decode? bytes with
  | some text => return text
  | none => .error (.illFormedText, string.rest)

end StringText

/-! ### Numbers -/

def isDigit (b : UInt8) : Bool := '0'.toUInt8 ≤ b && b ≤ '9'.toUInt8

def digitOf (b : UInt8) : Nat := b.toNat - '0'.toNat

/-- A number taken apart. -/
structure NumberText where
  negative : Bool
  whole : Bytes
  /-- Empty if there is no decimal point. -/
  fraction : Bytes
  /-- The sign is true for a negative exponent. -/
  exponent : Option (Bool × Bytes)
deriving DecidableEq, Repr

/-- The digits at the front of a text, at least one, and the rest of the text. Where there is
none, a reader stops before the text `stop`. -/
def someDigits (stop text : Bytes) : Except (Fault × Bytes) (Bytes × Bytes) :=
  match text, text.takeWhile isDigit with
  | [], _ => .error (.endOfValue, stop)
  | _, [] => .error (.invalidNumber, stop)
  | _, digits => .ok (digits, text.dropWhile isDigit)

/-- The digits before the decimal point. A zero stands alone. -/
def splitWhole (text : Bytes) : Except (Fault × Bytes) (Bytes × Bytes) := do
  let (digits, rest) ← someDigits text.tail text
  if digits.head? = some '0'.toUInt8 ∧ digits.length ≠ 1 then
    .error (.invalidNumber, text.tail)
  return (digits, rest)

def splitFraction (text : Bytes) : Except (Fault × Bytes) (Bytes × Bytes) :=
  match text with
  | b :: rest => if b = '.'.toUInt8 then someDigits rest rest else .ok ([], text)
  | [] => .ok ([], [])

/-- The sign of an exponent, and the text after it. -/
def splitSign (text : Bytes) : Bool × Bytes :=
  match text with
  | b :: rest =>
    if b = '-'.toUInt8 then (true, rest) else if b = '+'.toUInt8 then (false, rest)
    else (false, text)
  | [] => (false, [])

def splitExponent (text : Bytes) : Except (Fault × Bytes) (Option (Bool × Bytes) × Bytes) :=
  match text with
  | b :: rest =>
    if b = 'e'.toUInt8 ∨ b = 'E'.toUInt8 then do
      let (negative, text) := splitSign rest
      let (digits, rest) ← someDigits text.tail text
      return (some (negative, digits), rest)
    else .ok (none, text)
  | [] => .ok (none, [])

namespace NumberText

/-- Splits a text that starts with a number. -/
def split (text : Bytes) : Except (Fault × Bytes) (NumberText × Bytes) := do
  let negative := text.head? = some '-'.toUInt8
  let (whole, text) ← splitWhole (if negative then text.tail else text)
  let (fraction, text) ← splitFraction text
  let (exponent, text) ← splitExponent text
  return (⟨negative, whole, fraction, exponent⟩, text)

end NumberText

/-- A significand has 64 bits. -/
def significandBound : Nat := 0x10000000000000000

/-- The digits before the decimal point: a significand, and how many digits found no room in it
any more. -/
def takeWhole : (significand dropped : Nat) → Bytes → Nat × Nat
  | significand, dropped, [] => (significand, dropped)
  | significand, dropped, b :: rest =>
    let next := significand * 10 + digitOf b
    if dropped = 0 ∧ next < significandBound then takeWhole next 0 rest
    else takeWhole significand (dropped + 1) rest

/-- The digits after the decimal point: the significand, and how many of them are in it. From
the first one without room on, none is taken. -/
def takeFraction : (significand taken : Nat) → Bytes → Nat × Nat
  | significand, taken, [] => (significand, taken)
  | significand, taken, b :: rest =>
    let next := significand * 10 + digitOf b
    if next < significandBound then takeFraction next (taken + 1) rest else (significand, taken)

/-- No exponent may reach this size. -/
def exponentBound : Nat := 0x80000000

/-- The digits of an exponent after the one with which it reaches the bound, when `size` is the
number of the digits before. -/
def digitsBeyond (size : Nat) : Bytes → Bytes
  | [] => []
  | b :: rest =>
    let next := size * 10 + digitOf b
    if next < exponentBound then digitsBeyond next rest else rest

namespace NumberText

def decimalExponent (number : NumberText) : Int :=
  match number.exponent with
  | none => 0
  | some (negative, digits) =>
    let size : Int := digits.foldl (fun value b => value * 10 + digitOf b) 0
    if negative then -size else size

/-- The number of double precision that is made from a significand and a power of ten. -/
def float (negative : Bool) (significand : Nat) (exponent : Int) : Except Fault Num :=
  match Magnitude.ofDecimal significand exponent with
  | some magnitude => .ok (.float ⟨negative, magnitude⟩)
  | none => .error .numberOutOfRange

/-- What the number stands for. Without a decimal point and an exponent it is an integer if it
is one of 64 bits; minus zero is not. -/
def value (number : NumberText) : Except Fault Num :=
  let (whole, dropped) := takeWhole 0 0 number.whole
  if number.fraction.isEmpty ∧ number.exponent.isNone ∧ dropped = 0 then
    if number.negative then
      if h : 0 < whole ∧ whole ≤ 0x8000000000000000 then
        .ok (.negative ⟨whole - 1, Nat.sub_one_lt_of_le h.1 h.2⟩)
      else float true whole 0
    else .ok (.natural (UInt64.ofNat whole))
  else
    let (significand, taken) := takeFraction whole 0 number.fraction
    float number.negative significand (number.decimalExponent + dropped - taken)

/-- The digits at its end that a reader has not looked at when it finds the number out of range. -/
def unread (number : NumberText) : Bytes :=
  match number.exponent with
  | none => []
  | some (_, digits) => digitsBeyond 0 digits

end NumberText
end Provision.Json
