import Provision.Bytes.Basic
import Provision.Json.Error

/-! The tree of a JSON text, as far as the text goes.

The tree keeps the order and the repetitions of the text. Where the text stops being JSON the
tree ends in a leaf that says how. Two readers of a tree may differ about the same spot: one
that takes a value in, and one that only passes over a value it has no use for. The first
looks into strings and numbers and reports a comma before a closing bracket as such; the
second asks only for the grammar.

A value that cannot be taken in is broken off somewhere inside, and the tree keeps where. -/
namespace Provision.Json

/-- How far a reader gets with a value before it gives the value up. -/
structure Reach where
  /-- How many bytes the text has from the first one of the value on. -/
  start : Nat
  /-- The text that it leaves. -/
  rest : Bytes
deriving DecidableEq, Repr

/-- The text without what the reader has looked at. -/
def Reach.strike (reach : Reach) (text : Bytes) : Bytes :=
  text.take (text.length - reach.start) ++ reach.rest

/-- How a list ends. -/
inductive ListEnd
  | closed
  /-- A comma stands before the closing bracket. -/
  | danglingComma
  /-- A comma stands before the first item; after it the bracket closes, or not. -/
  | leadingComma (closes : Bool)
  | textEnds
  | textEndsAfterComma
  | noComma
deriving DecidableEq, Repr

/-- How an object ends. -/
inductive ObjectEnd
  | closed
  /-- A comma stands before the closing brace. -/
  | danglingComma
  | textEnds
  | textEndsAfterComma
  | noComma
  | noKey
  /-- A key that is no string, as it looks to a reader and to one who passes over it. -/
  | brokenKey (fault passing : Fault)
deriving DecidableEq, Repr

mutual

inductive Tree
  | null
  | bool (value : Bool)
  | number (value : Num)
  | string (value : String)
  | array (items : Items)
  | object (members : Members)
  /-- No value for a reader. One who passes over it either reports something too, and then the
  text ends here for both, or finds nothing wrong with it: such is a number that is out of range,
  and a string with half a character in it. -/
  | broken (fault : Fault) (passing : Option Fault) (reach : Reach)

inductive Items
  | stop (how : ListEnd)
  | more (item : Tree) (rest : Items)

inductive Members
  | stop (how : ObjectEnd)
  | more (key : Except Fault String) (value : Tree) (rest : Members)

end

/-- What a reader reports at the end of a list. -/
def ListEnd.fault? : ListEnd → Option Fault
  | .closed => none
  | .danglingComma => some .trailingComma
  | .leadingComma _ => some .expectedValue
  | .textEnds => some .endOfList
  | .textEndsAfterComma => some .endOfValue
  | .noComma => some .expectedListComma

/-- What one who passes over a list reports at its end. -/
def ListEnd.passing? : ListEnd → Option Fault
  | .danglingComma => some .expectedValue
  | how => how.fault?

/-- What a reader reports at the end of an object. -/
def ObjectEnd.fault? : ObjectEnd → Option Fault
  | .closed => none
  | .danglingComma => some .trailingComma
  | .textEnds => some .endOfObject
  | .textEndsAfterComma => some .endOfValue
  | .noComma => some .expectedObjectComma
  | .noKey => some .keyMustBeString
  | .brokenKey fault _ => some fault

/-- What one who passes over an object reports at its end. -/
def ObjectEnd.passing? : ObjectEnd → Option Fault
  | .danglingComma => some .keyMustBeString
  | .textEndsAfterComma => some .endOfObject
  | .brokenKey _ passing => some passing
  | how => how.fault?

/-! ### Reading a tree -/

/-- Why a tree is not read. -/
inductive Refusal
  | fault (fault : Fault)
  | mismatch (mismatch : Mismatch)
  /-- What a reader has looked at there is to be struck out of the text, and the text to be read
  anew without it. -/
  | strike (reach : Reach)
deriving DecidableEq, Repr

/-- An end with nothing to report. -/
def accept (problem : Option Fault) : Except Refusal Unit :=
  match problem with
  | none => .ok ()
  | some f => .error (.fault f)

mutual

/-- Passes over a value. -/
def Tree.pass : Tree → Except Refusal Unit
  | .array items => items.pass
  | .object members => members.pass
  | .broken _ passing _ => accept passing
  | _ => .ok ()

def Items.pass : Items → Except Refusal Unit
  | .stop how => accept how.passing?
  | .more item rest => do item.pass; rest.pass

def Members.pass : Members → Except Refusal Unit
  | .stop how => accept how.passing?
  | .more _ value rest => do value.pass; rest.pass

end

/-- What may be read past the last item that is wanted. -/
def Items.finish : Items → Except Refusal Unit
  | .stop .closed => .ok ()
  | .stop .danglingComma | .stop (.leadingComma true) => .error (.fault .trailingComma)
  | .stop .textEnds => .error (.fault .endOfList)
  | _ => .error (.fault .trailingCharacters)

namespace Tree

/-- The report that a value is not of the wanted type. -/
def unexpected (expected : String) : Tree → Refusal
  | .null => .mismatch (.invalidType .null expected)
  | .bool value => .mismatch (.invalidType (.bool value) expected)
  | .number value => .mismatch (.invalidType (.number value) expected)
  | .string value => .mismatch (.invalidType (.string value) expected)
  | .array _ => .mismatch (.invalidType .sequence expected)
  | .object _ => .mismatch (.invalidType .map expected)
  | .broken f _ _ => .fault f

end Tree

/-! ### Values of any shape -/

/-- One level further in, if the limit on nesting allows. -/
def deeper {α : Type} (depth : Nat) (inside : Nat → Except Refusal α) : Except Refusal α :=
  match depth with
  | 0 => .error (.fault .recursionLimit)
  | depth + 1 => inside depth

mutual

/-- Reads a value of any shape. Objects become maps. -/
def Tree.value (depth : Nat) : Tree → Except Refusal Json
  | .null => .ok .null
  | .bool value => .ok (.bool value)
  | .number value => .ok (.number value)
  | .string value => .ok (.string value)
  | .array items => do return .array (← deeper depth fun depth => items.values depth)
  | .object members => do return .object (← deeper depth fun depth => members.fields depth [])
  | .broken f _ _ => .error (.fault f)

def Items.values (depth : Nat) : Items → Except Refusal (List Json)
  | .stop how => do accept how.fault?; return []
  | .more item rest => do
    let value ← item.value depth
    let values ← rest.values depth
    return value :: values

/-- Enters the members into a map one after the other. -/
def Members.fields (depth : Nat) : Members → Fields → Except Refusal Fields
  | .stop how, fields => do accept how.fault?; return fields
  | .more (.error f) _ _, _ => .error (.fault f)
  | .more (.ok key) value rest, fields => do
    let value ← value.value depth
    rest.fields depth (fields.insert key value)

end

end Provision.Json
