import Provision.Json.Codec

/-! Record types with a JSON form.

A record is described once, by the list of its fields, and both reading and writing go by
that list. It is written as an object. It is read from an object, where the order of the
members is free, no field may come twice and other members are passed over, or from an array
that gives the fields in order. -/
namespace Provision.Json

/-- What becomes of a field that the text leaves out. -/
inductive Presence
  /-- It must be there. -/
  | required
  /-- It is absent, but an array has to say so. -/
  | optional
  /-- It has its default value. -/
  | defaulted
deriving DecidableEq, Repr

/-- A field of the record type `σ`. -/
structure RecordField (σ : Type) where
  {α : Type}
  name : String
  presence : Presence
  codec : Codec α
  get : σ → α
  set : α → σ → σ
  /-- A value that is left out in writing. -/
  omitted : α → Bool := fun _ => false

/-- A record type: its name in messages, its fields in order, and the record with nothing set. -/
structure Record (σ : Type) where
  name : String
  fields : List (RecordField σ)
  blank : σ

namespace RecordField

variable {σ α : Type}

/-- A field that may be absent and is left out when it is. -/
def optional (name : String) (codec : Codec α) (get : σ → Option α)
    (set : Option α → σ → σ) : RecordField σ where
  name := name
  presence := .optional
  codec := codec.optional
  get := get
  set := set
  omitted := Option.isNone

/-- A field with a default value that is written nevertheless. -/
def defaulted (name : String) (codec : Codec α) (get : σ → α) (set : α → σ → σ) :
    RecordField σ where
  name := name
  presence := .defaulted
  codec := codec
  get := get
  set := set

/-- The same field, left out of what is written in some cases. -/
def omitting (field : RecordField σ) (omitted : field.α → Bool) : RecordField σ :=
  { field with omitted := omitted }

/-- The field with a default in place of an absence. -/
def withDefault (field : RecordField σ) : RecordField σ :=
  { field with presence := .defaulted }

/-- The member that a record has for the field, if any. -/
def member? (field : RecordField σ) (record : σ) : Option (String × Json) :=
  let value := field.get record
  if field.omitted value then none else some (field.name, field.codec.write value)

/-- Reads the field into a record. -/
def readInto (field : RecordField σ) (depth : Nat) (tree : Tree) (record : σ) :
    Except Refusal σ := do
  return field.set (← field.codec.read depth tree) record

end RecordField

namespace Record

variable {σ : Type}

/-! ### Writing -/

/-- The members of a record, in the order of the fields. -/
def members (record : Record σ) (value : σ) : List (String × Json) :=
  record.fields.filterMap fun field => field.member? value

/-! ### Reading an object -/

def find? (record : Record σ) (name : String) : Option (RecordField σ) :=
  record.fields.find? fun field => field.name = name

/-- Reads the members into a record. `seen` are the names of the fields that have come. -/
def readMembers (record : Record σ) (depth : Nat) :
    Members → (seen : List String) → σ → Except Refusal (List String × σ)
  | .stop how, seen, value => do accept how.fault?; return (seen, value)
  | .more (.error f) _ _, _, _ => .error (.fault f)
  | .more (.ok name) tree rest, seen, value =>
    match record.find? name with
    | none => do tree.pass; record.readMembers depth rest seen value
    | some field =>
      if name ∈ seen then .error (.mismatch (.duplicateField name))
      else do
        let value ← field.readInto depth tree value
        record.readMembers depth rest (name :: seen) value

/-- The first field that is required and has not come. -/
def missing? (record : Record σ) (seen : List String) : Option (RecordField σ) :=
  record.fields.find? fun field => field.presence = .required ∧ field.name ∉ seen

def readObject (record : Record σ) (depth : Nat) (members : Members) : Except Refusal σ := do
  let (seen, value) ← record.readMembers depth members [] record.blank
  match record.missing? seen with
  | none => return value
  | some field => .error (.mismatch (.missingField field.name))

/-! ### Reading an array -/

/-- What a message says that it has not found. -/
def expectedElements (record : Record σ) : String :=
  let count := record.fields.length
  "struct " ++ record.name ++ " with " ++ String.ofList (Numeral.decimal count) ++
    (if count = 1 then " element" else " elements")

/-- Reads the items into a record, the first of them for the first field. -/
def readItems (record : Record σ) (depth : Nat) :
    List (RecordField σ) → (position : Nat) → Items → σ → Except Refusal σ
  | [], _, items, value => do items.finish; return value
  | field :: fields, position, .more item rest, value => do
    let value ← field.readInto depth item value
    record.readItems depth fields (position + 1) rest value
  | field :: fields, position, .stop how, value => do
    accept how.fault?
    if field.presence = .defaulted then
      record.readItems depth fields (position + 1) (.stop how) value
    else .error (.mismatch (.invalidLength position record.expectedElements))

/-! ### The codec -/

def read (record : Record σ) (depth : Nat) : Tree → Except Refusal σ
  | .object members => deeper depth fun depth => record.readObject depth members
  | .array items =>
    deeper depth fun depth => record.readItems depth record.fields 0 items record.blank
  | tree => .error (tree.unexpected ("struct " ++ record.name))

def codec (record : Record σ) : Codec σ where
  read := record.read
  write value := .object (record.members value)

end Record
end Provision.Json
