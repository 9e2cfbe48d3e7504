import Provision.Json.Literal
import Provision.Json.Tree

/-! Reading a JSON text into its tree.

The text comes in bytes. Each function returns the tree and the text after it, or no text if
the tree is broken and nothing can be read any more. The amount of fuel is an upper bound on
the steps that a text can take: of every three steps one uses up a byte. -/
namespace Provision.Json

def isBlank (b : UInt8) : Bool :=
  b = ' '.toUInt8 || b = 0x09 || b = 0x0a || b = 0x0d

def skipBlank (text : Bytes) : Bytes :=
  text.dropWhile isBlank

abbrev Reading (α : Type) := α × Option Bytes

/-- No value at the front of a text, for any reader. -/
def broken (f : Fault) (text : Bytes) : Reading Tree :=
  (.broken f (some f) ⟨text.length, text⟩, none)

/-- Reads the letters that are left of a word; `whole` is the text from its first one on. A wrong
letter is read, too. -/
def readWord (tree : Tree) (whole : Bytes) : (letters : List Char) → Bytes → Reading Tree
  | [], text => (tree, some text)
  | _ :: _, [] => (.broken .endOfValue (some .endOfValue) ⟨whole.length, []⟩, none)
  | letter :: letters, b :: text =>
    if b = letter.toUInt8 then readWord tree whole letters text
    else (.broken .expectedIdent (some .expectedIdent) ⟨whole.length, text⟩, none)

/-- Reads a number. One who passes over it does not tell the end of the text from a wrong
byte. -/
def readNumber (text : Bytes) : Reading Tree :=
  match NumberText.split text with
  | .error (f, stop) => (.broken f (some .invalidNumber) ⟨text.length, stop⟩, none)
  | .ok (literal, rest) =>
    match literal.value with
    | .ok value => (.number value, some rest)
    | .error f => (.broken f none ⟨text.length, literal.unread ++ rest⟩, some rest)

/-- Reads a string after its opening quote. -/
def readString (text : Bytes) : Reading Tree :=
  let literal := StringText.split text
  match literal.content with
  | .ok value => (.string value, some literal.rest)
  | .error (f, stop) =>
    let passing := literal.how.fault?
    (.broken f passing ⟨text.length + 1, stop⟩, if passing.isNone then some literal.rest else none)

/-- The key that the tree of a string is, if one who passes over it finds an end to it. -/
def Tree.key : Tree → Except Fault String
  | .string key => .ok key
  | .broken f _ _ => .error f
  | _ => .error .keyMustBeString

mutual

def readValue : (fuel : Nat) → Bytes → Reading Tree
  | 0, _ => broken .endOfValue []
  | fuel + 1, text =>
    match skipBlank text with
    | [] => broken .endOfValue []
    | b :: rest =>
      if b = '"'.toUInt8 then readString rest
      else if b = '['.toUInt8 then
        let (items, rest) := readItems fuel true rest
        (.array items, rest)
      else if b = '\x7b'.toUInt8 then
        let (members, rest) := readMembers fuel true rest
        (.object members, rest)
      else if b = 'n'.toUInt8 then readWord .null (b :: rest) ['u', 'l', 'l'] rest
      else if b = 't'.toUInt8 then readWord (.bool true) (b :: rest) ['r', 'u', 'e'] rest
      else if b = 'f'.toUInt8 then
        readWord (.bool false) (b :: rest) ['a', 'l', 's', 'e'] rest
      else if b = '-'.toUInt8 || isDigit b then readNumber (b :: rest)
      else broken .expectedValue (b :: rest)

/-- Reads on in a list, at its first item or after an item. -/
def readItems : (fuel : Nat) → (first : Bool) → Bytes → Reading Items
  | 0, _, _ => (.stop .textEnds, none)
  | fuel + 1, first, text =>
    match skipBlank text with
    | [] => (.stop .textEnds, none)
    | b :: rest =>
      if b = ']'.toUInt8 then (.stop .closed, some rest)
      else if first then
        if b = ','.toUInt8 then
          (.stop (.leadingComma ((skipBlank rest).head? = some ']'.toUInt8)), none)
        else readItem fuel (b :: rest)
      else if b = ','.toUInt8 then
        match skipBlank rest with
        | [] => (.stop .textEndsAfterComma, none)
        | b :: rest =>
          if b = ']'.toUInt8 then (.stop .danglingComma, some rest)
          else readItem fuel (b :: rest)
      else (.stop .noComma, none)

/-- Reads an item and what follows it. -/
def readItem : (fuel : Nat) → Bytes → Reading Items
  | 0, _ => (.stop .textEnds, none)
  | fuel + 1, text =>
    match readValue fuel text with
    | (item, none) => (.more item (.stop .closed), none)
    | (item, some text) =>
      let (rest, text) := readItems fuel false text
      (.more item rest, text)

/-- Reads on in an object, at its first key or after a member. -/
def readMembers : (fuel : Nat) → (first : Bool) → Bytes → Reading Members
  | 0, _, _ => (.stop .textEnds, none)
  | fuel + 1, first, text =>
    match skipBlank text with
    | [] => (.stop .textEnds, none)
    | b :: rest =>
      if b = '\x7d'.toUInt8 then (.stop .closed, some rest)
      else if first then readMember fuel (b :: rest)
      else if b = ','.toUInt8 then
        match skipBlank rest with
        | [] => (.stop .textEndsAfterComma, none)
        | b :: rest =>
          if b = '\x7d'.toUInt8 then (.stop .danglingComma, none)
          else readMember fuel (b :: rest)
      else (.stop .noComma, none)

/-- Reads a member and what follows it. -/
def readMember : (fuel : Nat) → Bytes → Reading Members
  | 0, _ => (.stop .textEnds, none)
  | fuel + 1, text =>
    if text.head? = some '"'.toUInt8 then
      match readString text.tail with
      | (.broken f (some passing) _, _) => (.stop (.brokenKey f passing), none)
      | (_, none) => (.stop .noKey, none)
      | (key, some text) =>
        match skipBlank text with
        | [] => (.more key.key (broken .endOfObject []).1 (.stop .closed), none)
        | b :: text =>
          if b = ':'.toUInt8 then
            match readValue fuel text with
            | (value, none) => (.more key.key value (.stop .closed), none)
            | (value, some text) =>
              let (rest, text) := readMembers fuel false text
              (.more key.key value rest, text)
          else (.more key.key (broken .expectedColon text).1 (.stop .closed), none)
    else (.stop .noKey, none)

end

/-- Enough fuel for a text. -/
def fuelFor (text : Bytes) : Nat := 3 * text.length + 3

/-- The tree at the front of a text. -/
def readTree (text : Bytes) : Reading Tree :=
  readValue (fuelFor text) text

/-! ### Whole texts -/

/-- How deep lists and objects may be nested. -/
def mostDepth : Nat := 127

abbrev Decoder (α : Type) := Nat → Tree → Except Refusal α

/-- Does a text end where a tree does? -/
def endsAfter (rest : Option Bytes) : Bool :=
  match rest with
  | some text => (skipBlank text).isEmpty
  | none => false

/-- Reads a text that holds one value and nothing else but blanks, when something may be struck
out of it this many times. -/
def decodeStriking {α : Type} (decoder : Decoder α) : (strikes : Nat) → Bytes → Except Error α
  | strikes, text =>
    let (tree, rest) := readTree text
    match decoder mostDepth tree, strikes with
    | .ok value, _ =>
      if endsAfter rest then .ok value else .error (.fault .trailingCharacters)
    | .error (.fault f), _ => .error (.fault f)
    | .error (.mismatch m), _ => .error (.mismatch m)
    | .error (.strike _), 0 => .error (.fault .trailingCharacters)
    | .error (.strike reach), strikes + 1 => decodeStriking decoder strikes (reach.strike text)

/-- Reads a text that holds one value and nothing else but blanks. What is struck out of it makes
it shorter. -/
def decode {α : Type} (decoder : Decoder α) (text : Bytes) : Except Error α :=
  decodeStriking decoder text.length text

/-- Reads bytes that hold one value of any shape. -/
def parseBytes (bytes : Bytes) : Except Error Json :=
  decode Tree.value bytes

/-- Reads a text that holds one value of any shape. -/
def parse (text : List Char) : Except Error Json :=
  parseBytes (Text.Utf8.ofChars text)

end Provision.Json
