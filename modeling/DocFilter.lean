import DocFilter.Codec.Document
import DocFilter.Codec.Error
import DocFilter.Codec.Metadata
import DocFilter.Codec.Tree
import DocFilter.Command.Line
import DocFilter.Command.Run
import DocFilter.Config.Disk
import DocFilter.Config.Error
import DocFilter.Config.Host
import DocFilter.Config.Load
import DocFilter.Failure
import DocFilter.Fault
import DocFilter.FilePath
import DocFilter.Filter.Context
import DocFilter.Filter.Run
import DocFilter.Forest.Basic
import DocFilter.Forest.Content
import DocFilter.Forest.Reading
import DocFilter.Forest.Same
import DocFilter.Forest.Value
import DocFilter.Forest.Walk
import DocFilter.Json.Basic
import DocFilter.Json.Parse
import DocFilter.Json.Print
import DocFilter.Json.Shown
import DocFilter.Log
import DocFilter.Main
import DocFilter.Metadata.Block
import DocFilter.Metadata.Call
import DocFilter.Metadata.Container
import DocFilter.Metadata.Key
import DocFilter.Metadata.Shown
import DocFilter.Metadata.Store
import DocFilter.Metadata.Value
import DocFilter.Node.Kind
import DocFilter.Node.Layout
import DocFilter.Node.Make
import DocFilter.Node.Markup
import DocFilter.Node.Payload
import DocFilter.Node.PlainText
import DocFilter.Node.Same
import DocFilter.Node.Tree
import DocFilter.Number.Decimal
import DocFilter.Number.Double
import DocFilter.Number.Reading
import DocFilter.Options
import DocFilter.Plain.Basic
import DocFilter.Plain.Date
import DocFilter.Plain.Slots
import DocFilter.Selector.Basic
import DocFilter.Selector.Compile
import DocFilter.Selector.Match
import DocFilter.Text.Blank
import DocFilter.Text.Case
import DocFilter.Text.Cased
import DocFilter.Text.Digit
import DocFilter.Text.Encoding
import DocFilter.Text.Printable
import DocFilter.Text.Quoted
import DocFilter.Toml.Document
import DocFilter.Toml.Error
import DocFilter.Toml.Simple
import DocFilter.Toml.Table
import DocFilter.Toml.Text
import DocFilter.Toml.Value
import DocFilter.Yaml.Cursor
import DocFilter.Yaml.Error
import DocFilter.Yaml.Graph
import DocFilter.Yaml.Scalar
import DocFilter.Yaml.Scan
import DocFilter.Yaml.Simple
import DocFilter.Yaml.Tag
import DocFilter.Yaml.Timestamp
import DocFilter.Yaml.Token
import DocFilter.Yaml.Value
import DocFilter.Proofs.Codec.InOrder
import DocFilter.Proofs.Codec.TreeRoundTrip
import DocFilter.Proofs.Codec.DocumentRoundTrip
import DocFilter.Proofs.Codec.Sources
import DocFilter.Proofs.Codec.Shaped
import DocFilter.Proofs.Codec.Decoded
import DocFilter.Proofs.Codec.Legible
import DocFilter.Proofs.Codec.Normal
import DocFilter.Proofs.Codec.Filled
import DocFilter.Proofs.Codec.Shown
import DocFilter.Proofs.Codec.Acceptance
import DocFilter.Proofs.Codec.Refusals
import DocFilter.Proofs.Codec.Kept
import DocFilter.Proofs.Codec.Fuel
import DocFilter.Proofs.Codec.Dropped
import DocFilter.Proofs.Forest.Cells
import DocFilter.Proofs.Forest.Content
import DocFilter.Proofs.Forest.Cycles
import DocFilter.Proofs.Forest.Documents
import DocFilter.Proofs.Forest.Effects
import DocFilter.Proofs.Forest.Enclosing
import DocFilter.Proofs.Forest.Replacement
import DocFilter.Proofs.Forest.History
import DocFilter.Proofs.Forest.Links
import DocFilter.Proofs.Forest.Order
import DocFilter.Proofs.Forest.Planting
import DocFilter.Proofs.Forest.Substitution
import DocFilter.Proofs.Walk.Scan
import DocFilter.Proofs.Walk.Pruning
import DocFilter.Proofs.Walk.Path
import DocFilter.Proofs.Walk.Preorder
import DocFilter.Proofs.Walk.Insertion
import DocFilter.Proofs.Walk.Ahead
import DocFilter.Proofs.Walk.Growing
import DocFilter.Proofs.Walk.Expansion
import DocFilter.Proofs.Walk.Lineage
import DocFilter.Proofs.Walk.Successor
import DocFilter.Proofs.Selector.Grammar
import DocFilter.Proofs.Selector.Printing
import DocFilter.Proofs.Selector.Declared
import DocFilter.Proofs.Selector.Chains
import DocFilter.Proofs.Selector.Later
import DocFilter.Proofs.Filter.Calls
import DocFilter.Proofs.Filter.Stopping
import DocFilter.Proofs.Filter.Quiet
import DocFilter.Proofs.Filter.Recursion
import DocFilter.Proofs.Filter.Visit
import DocFilter.Proofs.Filter.Turn
import DocFilter.Proofs.Filter.Refinement
import DocFilter.Proofs.Filter.Replacing
import DocFilter.Proofs.Filter.Growing
import DocFilter.Proofs.Filter.Unruled
import DocFilter.Proofs.Metadata.Paths
import DocFilter.Proofs.Metadata.Ways
import DocFilter.Proofs.Metadata.Mapping
import DocFilter.Proofs.Metadata.PathEdits
import DocFilter.Proofs.Metadata.Conversion
import DocFilter.Proofs.Metadata.Calls
import DocFilter.Proofs.Metadata.Refusals
import DocFilter.Proofs.Metadata.Keys
import DocFilter.Proofs.Metadata.Merging
import DocFilter.Proofs.Metadata.Texts
import DocFilter.Proofs.Metadata.Fences
import DocFilter.Proofs.Toml.Fuel
import DocFilter.Proofs.Config.Finding
import DocFilter.Proofs.Command.Delivery
import DocFilter.Proofs.Forest.Writable
