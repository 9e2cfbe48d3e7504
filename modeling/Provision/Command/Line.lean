import Provision.Command.Given

/-! Reading a command line.

The words are read from left to right. A switch that takes a value has it behind an equals
sign, or as the next word; a word that begins with a dash, other than the dash alone, is never
taken as such a value. A value that stands as a word of its own is looked at only when the next
switch or the end has been reached, so that a problem with it comes after one with the words
in between. -/
namespace Provision.CommandLine

/-- A word by the look of it. -/
inductive Shape
  /-- Two dashes alone. No switch can follow them. -/
  | separator
  | long (name : List Char) (value : Option (List Char))
  | short (letters : List Char)
  | plain

/-- Cuts a text at its first equals sign. -/
def cutAtEquals : List Char → List Char × Option (List Char)
  | [] => ([], none)
  | c :: rest =>
    if c = '=' then ([], some rest)
    else
      let (name, value) := cutAtEquals rest
      (c :: name, value)

def shape : CommandWord → Shape
  | ['-', '-'] => .separator
  | '-' :: '-' :: rest => .long (cutAtEquals rest).1 (cutAtEquals rest).2
  | ['-'] => .plain
  | '-' :: letters => .short letters
  | _ => .plain

/-- What has been read at a level. -/
structure Progress where
  given : GivenValues := {}
  /-- The last switch and its value, which has not been looked at yet. -/
  pending : Option (Switch × Option (List Char)) := none

namespace Progress

/-- Looks at the value of the last switch. -/
def settle (progress : Progress) : Except UsageError GivenValues :=
  match progress.pending with
  | none => .ok progress.given
  | some (switch, none) => .error (.noValue switch)
  | some (switch, some value) => progress.given.enter switch value

/-- Takes a switch with its value. A switch that takes none has no text there. -/
def take (progress : Progress) (switch : Switch) (value : List Char) :
    Except UsageError Progress := do
  let given ← progress.settle
  return { given := ← given.enter switch value }

/-- Takes a switch whose value is to follow. -/
def await (progress : Progress) (switch : Switch) : Except UsageError Progress := do
  return { given := ← progress.settle, pending := some (switch, none) }

/-- Takes a switch that stands alone in its word. -/
def takeAlone (progress : Progress) (switch : Switch) : Except UsageError Progress :=
  if switch.takesValue then progress.await switch else progress.take switch []

/-- Takes a switch by its name. -/
def takeLong (level : CommandLevel) (progress : Progress) (name : List Char)
    (value : Option (List Char)) : Except UsageError Progress :=
  match CommandLevel.named? level name, value with
  | none, _ => .error (.unknownSwitch ('-' :: '-' :: name))
  | some switch, none => progress.takeAlone switch
  | some switch, some value =>
    if switch.takesValue then progress.take switch value
    else .error (.unexpectedValue switch value)

/-- Takes switches by their letters. What stands behind the letter of a switch that takes a
value is its value, with or without an equals sign in front. -/
def takeShort (level : CommandLevel) (progress : Progress) : List Char →
    Except UsageError Progress
  | [] => .ok progress
  | letter :: rest =>
    match CommandLevel.lettered? level letter with
    | none => .error (.unknownSwitch ['-', letter])
    | some switch =>
      if switch.takesValue then
        match rest with
        | [] => progress.await switch
        | '=' :: value => progress.take switch value
        | value => progress.take switch value
      else do takeShort level (← progress.take switch []) rest

end Progress

/-- The report on a word that has no place. Behind a separator not even a verb has one. -/
def strayWord (level : CommandLevel) (separated : Bool) (word : CommandWord) : UsageError :=
  let isVerb := (Verb.named? word).isSome || word == helpWord
  if level.isNone && !(separated && isVerb) then .unknownVerb word else .unknownSwitch word

/-- What stands behind the word that asks for help must be a verb, or that word again. -/
def helpOn : List CommandWord → UsageError
  | [] => .help
  | word :: rest =>
    if (Verb.named? word).isSome || word == helpWord then
      match rest with
      | [] => .help
      | stray :: _ => .unknownVerb stray
    else .unknownVerb word

/-- Reads the words of a level. The first level ends at a verb, with the words behind it. -/
def read (level : CommandLevel) : Progress → List CommandWord →
    Except UsageError (Progress × Option (Verb × List CommandWord))
  | progress, [] => .ok (progress, none)
  | progress, word :: rest =>
    match shape word with
    | .separator =>
      match rest with
      | [] => .ok (progress, none)
      | stray :: _ => .error (strayWord level true stray)
    | .long name value => do read level (← progress.takeLong level name value) rest
    | .short letters => do read level (← progress.takeShort level letters) rest
    | .plain =>
      match progress.pending with
      | some (switch, none) => read level { progress with pending := some (switch, some word) } rest
      | _ =>
        if level.isSome then .error (strayWord level false word)
        else if word = helpWord then .error (helpOn rest)
        else
          match Verb.named? word with
          | some verb => .ok (progress, some (verb, rest))
          | none => .error (strayWord level false word)

/-- Reads the words behind a verb. -/
def readVerb (environment : List Char → Option (List Char)) (verb : Verb)
    (words : List CommandWord) : Except UsageError (GivenValues × Command) := do
  let (progress, _) ← read (some verb) {} words
  let given ← progress.settle
  let given ← given.complete environment (CommandLevel.switches (some verb))
  return (given, ← given.command verb)

/-- Reads a command line. The verbosity behind the verb counts for more than the one before
it. -/
def parse (environment : List Char → Option (List Char)) (words : List CommandWord) :
    Except UsageError CommandLine := do
  match ← read none {} words with
  | (progress, none) =>
    let given ← progress.settle
    .error (if given.has .verbosity then .noVerb else .nothing)
  | (progress, some (verb, rest)) =>
    let (inner, command) ← readVerb environment verb rest
    let outer ← progress.settle
    return ⟨(inner.verbosity <|> outer.verbosity).getD .info, command⟩

end Provision.CommandLine
