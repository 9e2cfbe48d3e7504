import Provision.Json.Basic

/-! Merging one JSON value over another.

Two objects are merged key by key, at every depth. In any other pair the upper value wins
whole, lists included. A key that only the lower object has stays as it is. -/
namespace Provision.Json

mutual

/-- Merges `upper` over `lower`. -/
def merge (lower upper : Json) : Json :=
  match upper with
  | .object overrides =>
    match lower with
    | .object base => .object (mergeFields base overrides)
    | _ => .object overrides
  | value => value

/-- Merges a list of members over a map. -/
def mergeFields (base : Fields) : List (String × Json) → Fields
  | [] => base
  | (key, value) :: rest =>
    let merged := match Dictionary.find? key base with
      | some lower => merge lower value
      | none => value
    mergeFields (base.insert key merged) rest

end

end Provision.Json
