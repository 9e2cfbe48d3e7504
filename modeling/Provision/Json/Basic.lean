import Provision.Dictionary
import Provision.Numeral.Double

/-! JSON values.

A number keeps its kind: a natural number of 64 bits, a negative one of 64 bits, or a number
of double precision. The members of an object stand in the order in which they are written;
`sorted` is the same value as a map from keys, where the order of the keys decides and the
last of several equal keys counts. -/
namespace Provision

namespace Json

inductive Num
  | natural (value : UInt64)
  /-- The number `-1 - below`. -/
  | negative (below : Fin 0x8000000000000000)
  | float (value : Double)
deriving DecidableEq, Repr

end Json

inductive Json
  | null
  | bool (value : Bool)
  | number (value : Json.Num)
  | string (value : String)
  | array (items : List Json)
  | object (members : List (String × Json))
deriving Repr, Inhabited

namespace Json

/-- The members of an object, ascending by key. -/
abbrev Fields := Dictionary String Json

/-- A natural number of 64 bits. -/
def natural (value : UInt64) : Json := .number (.natural value)

/-- What a list of members holds under a key. -/
def member? (key : String) (members : Fields) : Option Json := members.find? key

def isObject : Json → Bool
  | .object _ => true
  | _ => false

/-- The value at a path of keys, where each key but the last leads to an object. -/
def at? (value : Json) : List String → Option Json
  | [] => some value
  | key :: path =>
    match value with
    | .object members => do at? (← Dictionary.find? key members) path
    | _ => none

/-! ### The value as a map -/

mutual

/-- The same value with the keys of every object in ascending order and without repetition. -/
def sorted : Json → Json
  | .array items => .array (sortedItems items)
  | .object members => .object (sortedMembers members [])
  | value => value

def sortedItems : List Json → List Json
  | [] => []
  | item :: rest => sorted item :: sortedItems rest

/-- Enters the members into a map one after the other. -/
def sortedMembers : List (String × Json) → Fields → Fields
  | [], fields => fields
  | (key, value) :: rest, fields => sortedMembers rest (fields.insert key (sorted value))

end

/-! ### Equality -/

mutual

def decEq : (a b : Json) → Decidable (a = b)
  | .null, .null => isTrue rfl
  | .bool a, .bool b => decidable_of_iff (a = b) (by simp)
  | .number a, .number b => decidable_of_iff (a = b) (by simp)
  | .string a, .string b => decidable_of_iff (a = b) (by simp)
  | .array a, .array b => @decidable_of_iff _ (a = b) (by simp) (decEqItems a b)
  | .object a, .object b => @decidable_of_iff _ (a = b) (by simp) (decEqMembers a b)
  | .null, .bool _ | .null, .number _ | .null, .string _ | .null, .array _ | .null, .object _
  | .bool _, .null | .bool _, .number _ | .bool _, .string _ | .bool _, .array _
  | .bool _, .object _ | .number _, .null | .number _, .bool _ | .number _, .string _
  | .number _, .array _ | .number _, .object _ | .string _, .null | .string _, .bool _
  | .string _, .number _ | .string _, .array _ | .string _, .object _ | .array _, .null
  | .array _, .bool _ | .array _, .number _ | .array _, .string _ | .array _, .object _
  | .object _, .null | .object _, .bool _ | .object _, .number _ | .object _, .string _
  | .object _, .array _ => isFalse (by simp)

def decEqItems : (a b : List Json) → Decidable (a = b)
  | [], [] => isTrue rfl
  | [], _ :: _ | _ :: _, [] => isFalse (by simp)
  | a :: as, b :: bs =>
    match decEq a b, decEqItems as bs with
    | isTrue h, isTrue hs => isTrue (by simp [h, hs])
    | isFalse h, _ => isFalse (by simp [h])
    | _, isFalse hs => isFalse (by simp [hs])

def decEqMembers : (a b : List (String × Json)) → Decidable (a = b)
  | [], [] => isTrue rfl
  | [], _ :: _ | _ :: _, [] => isFalse (by simp)
  | (k, a) :: as, (l, b) :: bs =>
    match decEq a b, decEqMembers as bs with
    | isTrue h, isTrue hs => decidable_of_iff (k = l) (by simp [h, hs])
    | isFalse h, _ => isFalse (by simp [h])
    | _, isFalse hs => isFalse (by simp [hs])

end

instance : DecidableEq Json := decEq

end Json
end Provision
