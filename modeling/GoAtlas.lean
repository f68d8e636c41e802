import GoAtlas.Collect.Basic
import GoAtlas.Collect.Constant
import GoAtlas.Collect.Functions
import GoAtlas.Command.Basic
import GoAtlas.Command.Options
import GoAtlas.Command.Run
import GoAtlas.Decl.Basic
import GoAtlas.Decl.Role
import GoAtlas.Fault
import GoAtlas.Files.Glob
import GoAtlas.Files.Ignore
import GoAtlas.Files.Listing
import GoAtlas.Files.Packages
import GoAtlas.Files.Path
import GoAtlas.Files.Tree
import GoAtlas.GoType.Basic
import GoAtlas.GoType.Json
import GoAtlas.GoType.Resolve
import GoAtlas.Import
import GoAtlas.Json.Basic
import GoAtlas.Json.Path
import GoAtlas.Json.Read
import GoAtlas.Json.Record
import GoAtlas.Json.Write
import GoAtlas.Literal
import GoAtlas.Locate
import GoAtlas.Main
import GoAtlas.Manifest.Basic
import GoAtlas.Manifest.Escape
import GoAtlas.Proofs.Table
import GoAtlas.Proofs.Walk.Range
import GoAtlas.Settings.Basic
import GoAtlas.Settings.File
import GoAtlas.Settings.Json
import GoAtlas.Settings.Toml
import GoAtlas.Source.File
import GoAtlas.Source.Follow
import GoAtlas.Source.Grammar
import GoAtlas.Source.Lexeme
import GoAtlas.Source.Parse
import GoAtlas.Source.Part
import GoAtlas.Source.Rule
import GoAtlas.Source.Stack
import GoAtlas.Source.State
import GoAtlas.Source.Token
import GoAtlas.Source.Tree
import GoAtlas.Source.Types
import GoAtlas.Source.Values
import GoAtlas.Table
import GoAtlas.Tag
import GoAtlas.Text.Blank
import GoAtlas.Text.Decimal
import GoAtlas.Text.Reader
import GoAtlas.Text.Uppercase
import GoAtlas.Text.Utf8
import GoAtlas.Toml.Basic
import GoAtlas.Toml.Document
import GoAtlas.Toml.Number
import GoAtlas.Toml.Quoted
import GoAtlas.Toml.Read
import GoAtlas.Walk.Basic
import GoAtlas.World.Basic
import GoAtlas.World.Diagnostic
import GoAtlas.World.Json
import GoAtlas.Proofs.Walk.Collected
import GoAtlas.Proofs.Walk.Progress
import GoAtlas.Proofs.Walk.Arrival
import GoAtlas.Proofs.Walk.Visit
import GoAtlas.Proofs.Walk.Exactness
import GoAtlas.Proofs.GoType.Trace
import GoAtlas.Proofs.Collect.Trace
import GoAtlas.Proofs.Collect.Ledger
import GoAtlas.Proofs.Collect.Balance
import GoAtlas.Proofs.Collect.Whole
import GoAtlas.Proofs.Collect.Reordering
import GoAtlas.Proofs.Collect.References
import GoAtlas.Proofs.Walk.Closure
import GoAtlas.Proofs.Walk.History
import GoAtlas.Proofs.Walk.Requests
import GoAtlas.Proofs.Walk.Contents
import GoAtlas.Proofs.Walk.Reports
import GoAtlas.Proofs.Json.Layout
import GoAtlas.Proofs.Json.ReadBack
import GoAtlas.Proofs.Json.Codec
import GoAtlas.Proofs.GoType.RoundTrip
import GoAtlas.Proofs.World.RoundTrip
import GoAtlas.Proofs.Walk.Exclusion
import GoAtlas.Proofs.Walk.Completeness
import GoAtlas.Proofs.Source.Derivation
import GoAtlas.Proofs.Source.Phrase
import GoAtlas.Proofs.Source.TypeMeaning
import GoAtlas.Proofs.Source.DeclMeaning
import GoAtlas.Proofs.Source.FileReading
import GoAtlas.Proofs.Toml.Strings
import GoAtlas.Proofs.Toml.Reading
import GoAtlas.Proofs.Files.Writing
import GoAtlas.Proofs.Settings.RoundTrip
import GoAtlas.Proofs.Settings.Change
import GoAtlas.Proofs.Files.Paths
import GoAtlas.Proofs.Manifest
import GoAtlas.Proofs.Locate
import GoAtlas.Proofs.Source.Tokens
import GoAtlas.Proofs.GoType.Rendering
import GoAtlas.Proofs.GoType.Nodes
import GoAtlas.Proofs.Collect.Marks
import GoAtlas.Proofs.Collect.Flaws
import GoAtlas.Proofs.Collect.Enumeration
import GoAtlas.Proofs.Files.Frame
import GoAtlas.Proofs.Command.Frame
import GoAtlas.Proofs.Collect.Failure
import GoAtlas.Proofs.Collect.Conversion
import GoAtlas.Proofs.Collect.Structs
import GoAtlas.Proofs.Walk.Emptiness
import GoAtlas.Proofs.GoType.Readability
import GoAtlas.Proofs.Tag
import GoAtlas.Proofs.Manifest.Reading
import GoAtlas.Proofs.Json.Path
import GoAtlas.Proofs.Text.Slices
import GoAtlas.Proofs.Manifest.Lookup
import GoAtlas.Proofs.Text.Beginnings
import GoAtlas.Proofs.Literal.Rune
import GoAtlas.Proofs.Tag.Slices
import GoAtlas.Proofs.GoType.Resolution
import GoAtlas.Proofs.Manifest.Escape
