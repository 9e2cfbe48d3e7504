import Provision.Bytes.Basic
import Provision.Bytes.Fixed
import Provision.Bytes.Hex
import Provision.Command.Given
import Provision.Command.Line
import Provision.Command.Run
import Provision.Command.Switch
import Provision.Command.Verbosity
import Provision.Dictionary
import Provision.Disk.Basic
import Provision.Disk.Database
import Provision.Disk.Error
import Provision.Disk.Image
import Provision.Disk.Path
import Provision.Genesis.Block
import Provision.Genesis.ChainConfig
import Provision.Genesis.Document
import Provision.Genesis.Hexadecimal
import Provision.Genesis.Input
import Provision.Genesis.Quantity
import Provision.Genesis.Storage
import Provision.Hash.Keccak
import Provision.Instance.Basic
import Provision.Instance.Error
import Provision.Instance.Identifier
import Provision.Instance.Report
import Provision.Json.Basic
import Provision.Json.Codec
import Provision.Json.Error
import Provision.Json.Literal
import Provision.Json.Merge
import Provision.Json.Printer
import Provision.Json.Reader
import Provision.Json.Record
import Provision.Json.Tree
import Provision.Main
import Provision.Numeral.Digits
import Provision.Numeral.Double
import Provision.Numeral.Shortest
import Provision.Rlp
import Provision.Store.Basic
import Provision.Store.Key
import Provision.Store.Setup
import Provision.Text.Quoted
import Provision.Text.Terminal
import Provision.Text.Unprintable
import Provision.Text.Utf8
import Provision.Trie
import Provision.Proofs.Dictionary
import Provision.Proofs.Keys
import Provision.Proofs.Records
import Provision.Proofs.Setup
import Provision.Proofs.OneGenesis
import Provision.Proofs.Paths
import Provision.Proofs.Growth
import Provision.Proofs.Stages
import Provision.Proofs.Opening
import Provision.Proofs.StoreSetup
import Provision.Proofs.Coherence
import Provision.Proofs.Provisioning
import Provision.Proofs.Decimals
import Provision.Proofs.Inspecting
import Provision.Proofs.Faithful
import Provision.Proofs.Overriding
import Provision.Proofs.Tokens
import Provision.Proofs.Spanning
import Provision.Proofs.Astray
import Provision.Proofs.Calm
import Provision.Proofs.Striking
import Provision.Proofs.TwoReadings
import Provision.Proofs.Completion
import Provision.Proofs.Rounding
import Provision.Proofs.Shortest
import Provision.Proofs.Layouts
import Provision.Proofs.Legible
import Provision.Proofs.Reloading
import Provision.Proofs.Indenting
import Provision.Proofs.Reaching
import Provision.Proofs.Attempts
import Provision.Proofs.Detours
import Provision.Proofs.Refusals
import Provision.Proofs.DryRun
import Provision.Proofs.Removing
import Provision.Proofs.Occupying
import Provision.Proofs.History
import Provision.Proofs.Hexadecimal
import Provision.Proofs.Returning
import Provision.Proofs.Reopening
import Provision.Proofs.Resuming
import Provision.Proofs.Shapes
import Provision.Proofs.Reordering
import Provision.Proofs.Settling
import Provision.Proofs.Indifference
import Provision.Proofs.Effects
import Provision.Proofs.Recalling
import Provision.Proofs.Sessions
import Provision.Proofs.Persisting
import Provision.Proofs.Layering
import Provision.Proofs.London
import Provision.Proofs.SameState
import Provision.Proofs.Verbatim
import Provision.Proofs.Figures
import Provision.Proofs.WholeTexts
import Provision.Proofs.Quantities
import Provision.Proofs.Words
import Provision.Proofs.ByteOrder
import Provision.Proofs.Slots
import Provision.Proofs.Looking
import Provision.Proofs.Caching
import Provision.Proofs.Identifiers
import Provision.Proofs.CommandLines
import Provision.Proofs.Parents
import Provision.Proofs.Remaking
import Provision.Proofs.Clearing
import Provision.Proofs.Sites
import Provision.Proofs.Recreating
