import Provision.Numeral.Digits
import Provision.Text.Quoted

/-! How much a run of the program tells, from errors alone to every step. -/
namespace Provision

inductive Verbosity
  | error
  | warn
  | info
  | debug
  | trace
deriving DecidableEq, Repr

namespace Verbosity

/-- The levels by their numbers, of which the first is one. -/
def levels : List Verbosity := [.error, .warn, .info, .debug, .trace]

/-- The number of a level. -/
def rank : Verbosity → Nat
  | .error => 1
  | .warn => 2
  | .info => 3
  | .debug => 4
  | .trace => 5

/-- The filter that lets through what a level tells. Databases tell little but at the last
level. -/
def directive : Verbosity → String
  | .error => "error"
  | .warn => "warn"
  | .info => "info"
  | .debug => "debug,redb=info"
  | .trace => "trace"

/-- Does a level tell what belongs to another one? -/
def shows (verbosity level : Verbosity) : Bool :=
  level.rank ≤ verbosity.rank

inductive Problem
  | malformed (problem : Numeral.Problem)
  | outOfRange (number : UInt64)
deriving DecidableEq, Repr

/-- What is wrong with a text. -/
def Problem.message (text : List Char) : Problem → String
  | .malformed problem =>
    "invalid verbosity " ++ String.ofList (Text.Quoted.text text) ++ ": " ++ problem.message
  | .outOfRange number =>
    "verbosity must be between 1 and " ++ String.ofList (Numeral.decimal levels.length) ++
      ", got " ++ String.ofList (Numeral.decimal number.toNat)

/-- The level with a number. -/
def ofNumber (number : UInt64) : Except Problem Verbosity :=
  match number.toNat with
  | 0 => .error (.outOfRange number)
  | index + 1 =>
    match levels[index]? with
    | some level => .ok level
    | none => .error (.outOfRange number)

def parse (text : List Char) : Except Problem Verbosity :=
  match Numeral.readUInt64 text with
  | .error problem => .error (.malformed problem)
  | .ok number => ofNumber number

end Verbosity
end Provision
