import Provision.Bytes.Fixed
import Provision.Numeral.Digits
import Provision.Text.Utf8

/-! Bytes in hexadecimal.

`encode` writes two lowercase digits a byte behind `0x`. Reading takes either case and does
without the prefix; a text of fixed length reports what is wrong with it. -/
namespace Provision.Bytes.Hex

open Numeral (digitChar digitValue?)

/-- The two digits of a byte. -/
def pair (byte : UInt8) : List Char :=
  [digitChar (byte.toNat / 16), digitChar (byte.toNat % 16)]

/-- Bytes as hexadecimal digits, without a prefix. -/
def digits (bytes : Bytes) : List Char :=
  bytes.flatMap pair

def encode (bytes : Bytes) : List Char :=
  '0' :: 'x' :: digits bytes

/-- A number in as few hexadecimal digits as it needs. -/
def number (value : Nat) : List Char :=
  '0' :: 'x' :: Numeral.write 16 value

/-- The text without one leading `0x` or `0X`, if it has one. -/
def stripMark : List Char → List Char
  | '0' :: 'x' :: rest => rest
  | '0' :: 'X' :: rest => rest
  | text => text

inductive Problem
  | oddLength
  | wrongLength
  | badCharacter (c : Char) (position : Nat)
deriving DecidableEq, Repr

/-- Reads pairs of digits; the first of them stands at `position`. -/
def readPairs (position : Nat) : List Char → Except Problem Bytes
  | a :: b :: rest =>
    match digitValue? 16 a, digitValue? 16 b with
    | some high, some low =>
      (readPairs (position + 2) rest).map (UInt8.ofNat (high * 16 + low) :: ·)
    | none, _ => .error (.badCharacter a position)
    | some _, none => .error (.badCharacter b (position + 1))
  | _ => .ok []

/-- Reads any number of bytes. -/
def decode? (text : List Char) : Option Bytes :=
  let digits := stripMark (Text.Utf8.latin text)
  if digits.length % 2 = 0 then (readPairs 0 digits).toOption else none

/-- Reads exactly `size` bytes. Lengths count the bytes of the text, the odd one with the
prefix and the exact one without it. -/
def decodeFixed (size : Nat) (text : List Char) : Except Problem (Fixed size) :=
  let whole := Text.Utf8.latin text
  if whole.length % 2 = 1 then .error .oddLength
  else
    let digits := stripMark whole
    if digits.length = 2 * size then
      match readPairs 0 digits with
      | .error problem => .error problem
      | .ok bytes =>
        match Fixed.ofBytes? bytes with
        | some word => .ok word
        | none => .error .wrongLength
    else .error .wrongLength

end Provision.Bytes.Hex
