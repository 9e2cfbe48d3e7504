import Provision.Genesis.Document
import Provision.Json.Merge

/-! A genesis document as it is given, and the configuration record made from it.

A document is read twice: once for what the library knows, and once for its configuration as
it stands, with members that the library passes over. The record is the first merged under
the second, so that nothing the document says is lost. -/
namespace Provision

open Json

/-- The part of a document that is kept as it stands. -/
structure RawConfig where
  config : Option Fields := none

namespace RawConfig

def record : Record RawConfig where
  name := "RawChainConfig"
  fields :=
    [(RecordField.optional "config" Codec.fields (·.config)
        fun v r => { r with config := v }).withDefault]
  blank := {}

end RawConfig

/-- A document that has been read. -/
structure ParsedGenesis where
  genesis : Genesis
  /-- The configuration as it stands, and nothing if there is none. -/
  override : Fields

namespace ParsedGenesis

def parse (text : List Char) : Except Json.Error ParsedGenesis := do
  let genesis ← Genesis.codec.parse text
  let raw ← RawConfig.record.codec.parse text
  return ⟨genesis, raw.config.getD []⟩

/-- Reads a document and keeps nothing of it. -/
def validate (text : List Char) : Except Json.Error Unit :=
  (parse text).map fun _ => ()

end ParsedGenesis

namespace ChainConfig

/-- The configuration as a map. -/
def fields (config : ChainConfig) : Fields :=
  sortedMembers config.members []

/-- The configuration with the members of a document merged over it. -/
def merged (config : ChainConfig) (override : Fields) : Fields :=
  mergeFields config.fields override

/-- The text of the configuration record. -/
def mergedText (config : ChainConfig) (override : Fields) : List Char :=
  (Json.object (config.merged override)).print

end ChainConfig
end Provision
