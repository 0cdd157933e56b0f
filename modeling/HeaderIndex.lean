import HeaderIndex.Arguments
import HeaderIndex.Catalogue
import HeaderIndex.Check
import HeaderIndex.Codec.Catalogue
import HeaderIndex.Codec.Fields
import HeaderIndex.Codec.FileSystem
import HeaderIndex.Codec.Report
import HeaderIndex.Codec.Settings
import HeaderIndex.Config.Boxed
import HeaderIndex.Config.Dotenv
import HeaderIndex.Config.Environment
import HeaderIndex.Config.Error
import HeaderIndex.Config.Literal
import HeaderIndex.Config.Load
import HeaderIndex.Config.Reader
import HeaderIndex.Config.Value
import HeaderIndex.Decimal.Binary64
import HeaderIndex.Decimal.Shortest
import HeaderIndex.FileSystem
import HeaderIndex.FileSystem.Make
import HeaderIndex.Glob.Basic
import HeaderIndex.Glob.Match
import HeaderIndex.Glob.Parser
import HeaderIndex.Header.Braced
import HeaderIndex.Header.Constant
import HeaderIndex.Header.Exclusion
import HeaderIndex.Header.Extract
import HeaderIndex.Header.Function
import HeaderIndex.Header.Marked
import HeaderIndex.Header.Scrub
import HeaderIndex.Header.Span
import HeaderIndex.Header.Typedef
import HeaderIndex.Json.Basic
import HeaderIndex.Json.Parser
import HeaderIndex.Json.Printer
import HeaderIndex.Listing
import HeaderIndex.Main
import HeaderIndex.Path
import HeaderIndex.Program
import HeaderIndex.Proofs.Arguments
import HeaderIndex.Proofs.Arguments.Values
import HeaderIndex.Proofs.Catalogue
import HeaderIndex.Proofs.Catalogue.History
import HeaderIndex.Proofs.Catalogue.Views
import HeaderIndex.Proofs.Check
import HeaderIndex.Proofs.Codec.Fields
import HeaderIndex.Proofs.Codec.RoundTrip
import HeaderIndex.Proofs.Config.Boxed
import HeaderIndex.Proofs.Config.Distinct
import HeaderIndex.Proofs.Config.Dotenv
import HeaderIndex.Proofs.Config.Fields
import HeaderIndex.Proofs.Config.Merge
import HeaderIndex.Proofs.Config.Precedence
import HeaderIndex.Proofs.FileSystem.Absolute
import HeaderIndex.Proofs.FileSystem.Lookup
import HeaderIndex.Proofs.FileSystem.Spelling
import HeaderIndex.Proofs.FileSystem.Tree
import HeaderIndex.Proofs.Glob.Literal
import HeaderIndex.Proofs.Header.AtDefinition
import HeaderIndex.Proofs.Header.BodyHead
import HeaderIndex.Proofs.Header.BodyNames
import HeaderIndex.Proofs.Header.CallHeads
import HeaderIndex.Proofs.Header.Comment
import HeaderIndex.Proofs.Header.Declaration
import HeaderIndex.Proofs.Header.Declared.Braced
import HeaderIndex.Proofs.Header.Declared.Constant
import HeaderIndex.Proofs.Header.Declared.Exact
import HeaderIndex.Proofs.Header.Declared.Function
import HeaderIndex.Proofs.Header.Declared.Scan
import HeaderIndex.Proofs.Header.Declared.Span
import HeaderIndex.Proofs.Header.Declared.Typedef
import HeaderIndex.Proofs.Header.DirectiveLines
import HeaderIndex.Proofs.Header.Event
import HeaderIndex.Proofs.Header.Exclusion
import HeaderIndex.Proofs.Header.ForwardProtocols
import HeaderIndex.Proofs.Header.Grammar
import HeaderIndex.Proofs.Header.Initialised
import HeaderIndex.Proofs.Header.Items
import HeaderIndex.Proofs.Header.Keyword
import HeaderIndex.Proofs.Header.LastEvent
import HeaderIndex.Proofs.Header.Layout.Extract
import HeaderIndex.Proofs.Header.Layout.Scrub
import HeaderIndex.Proofs.Header.Layout.Shapes
import HeaderIndex.Proofs.Header.Layout.Span
import HeaderIndex.Proofs.Header.Lexemes
import HeaderIndex.Proofs.Header.LineStarts
import HeaderIndex.Proofs.Header.Pattern
import HeaderIndex.Proofs.Header.Scrub
import HeaderIndex.Proofs.Header.Sightings
import HeaderIndex.Proofs.Header.Statement
import HeaderIndex.Proofs.Header.Trace
import HeaderIndex.Proofs.Header.WholeWord
import HeaderIndex.Proofs.Json.Layout
import HeaderIndex.Proofs.Json.RoundTrip
import HeaderIndex.Proofs.Json.Scalar
import HeaderIndex.Proofs.Listing
import HeaderIndex.Proofs.Path
import HeaderIndex.Proofs.Program.Check
import HeaderIndex.Proofs.Program.Status
import HeaderIndex.Proofs.Result
import HeaderIndex.Proofs.Scan.Accounting
import HeaderIndex.Proofs.Scan.Collection
import HeaderIndex.Proofs.Scan.Dispatch
import HeaderIndex.Proofs.Scan.Outcome
import HeaderIndex.Proofs.Scan.Reading
import HeaderIndex.Proofs.Scan.Schedule
import HeaderIndex.Proofs.Scan.Suffix
import HeaderIndex.Proofs.Scan.Usable
import HeaderIndex.Proofs.Scan.Walk
import HeaderIndex.Proofs.Table.Balance
import HeaderIndex.Proofs.Table.Fit
import HeaderIndex.Proofs.Table.Layout
import HeaderIndex.Proofs.Text.Lines
import HeaderIndex.Proofs.Text.Malformed
import HeaderIndex.Proofs.Text.Pattern
import HeaderIndex.Proofs.Text.Reading
import HeaderIndex.Proofs.Text.Relaid
import HeaderIndex.Proofs.Text.Replacement
import HeaderIndex.Proofs.Text.Scan
import HeaderIndex.Proofs.Text.Sightings
import HeaderIndex.Proofs.Text.Spacing
import HeaderIndex.Proofs.Text.Utf8
import HeaderIndex.Proofs.Text.Words
import HeaderIndex.Proofs.Toml.Distinct
import HeaderIndex.Report
import HeaderIndex.Scan.Basic
import HeaderIndex.Scan.Error
import HeaderIndex.Scan.Extension
import HeaderIndex.Scan.Ignore
import HeaderIndex.Scan.Schedule
import HeaderIndex.Scan.Walk
import HeaderIndex.Settings
import HeaderIndex.Symbol
import HeaderIndex.Table
import HeaderIndex.Text.Alphanumeric
import HeaderIndex.Text.CharClass
import HeaderIndex.Text.Escape
import HeaderIndex.Text.Lines
import HeaderIndex.Text.Number
import HeaderIndex.Text.Quoted
import HeaderIndex.Text.Reading
import HeaderIndex.Text.Shape
import HeaderIndex.Text.Utf8
import HeaderIndex.Text.WordChar
import HeaderIndex.Toml.Layout
import HeaderIndex.Toml.Moment
import HeaderIndex.Toml.Number
import HeaderIndex.Toml.Parser
import HeaderIndex.Toml.String
import HeaderIndex.Toml.Tree
