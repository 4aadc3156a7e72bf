import Signpost.Cli.Arguments
import Signpost.Cli.Command
import Signpost.Cli.Run
import Signpost.Decimal.Binary64
import Signpost.Decimal.Floating
import Signpost.Decimal.Shortest
import Signpost.Draft
import Signpost.Field
import Signpost.Http.Message
import Signpost.Http.Uri
import Signpost.Link
import Signpost.Log.Directive
import Signpost.Log.Filter
import Signpost.Log.Level
import Signpost.Log.Settings
import Signpost.Main
import Signpost.Ordered
import Signpost.Output
import Signpost.Pattern
import Signpost.Placeholder
import Signpost.Proofs.Entries
import Signpost.Proofs.Percent
import Signpost.Proofs.Query.Leaves
import Signpost.Query.Decode
import Signpost.Query.Encode
import Signpost.Query.Value
import Signpost.Regex.CharSet
import Signpost.Regex.Parser
import Signpost.Regex.Program
import Signpost.Regex.Search
import Signpost.Regex.Syntax
import Signpost.Request
import Signpost.Resource
import Signpost.Route
import Signpost.RouteError
import Signpost.RouteFile.Declare
import Signpost.RouteFile.Entry
import Signpost.RouteFile.Load
import Signpost.RouteFile.Read
import Signpost.Router
import Signpost.Scope
import Signpost.Settings
import Signpost.Statement
import Signpost.Table
import Signpost.Text.Json
import Signpost.Text.Numeral
import Signpost.Text.Percent
import Signpost.Text.Quoted
import Signpost.Unicode.CaseFolding
import Signpost.Unicode.CaseRow
import Signpost.Unicode.Category
import Signpost.Unicode.Lowercase
import Signpost.Unicode.Property
import Signpost.Unicode.Ranges
import Signpost.Yaml.Alias
import Signpost.Yaml.Data
import Signpost.Yaml.Layout
import Signpost.Yaml.Node
import Signpost.Yaml.Property
import Signpost.Yaml.Scalar
import Signpost.Yaml.Source
import Signpost.Yaml.Token
import Signpost.Proofs.Query.Placing
import Signpost.Proofs.Query.Rebuild
import Signpost.Proofs.Query.Pair
import Signpost.Proofs.Query.Decoded
import Signpost.Proofs.Query.RoundTrip
import Signpost.Proofs.Placeholder
import Signpost.Proofs.Scope.Chain
import Signpost.Proofs.Scope.Captures
import Signpost.Proofs.Regex.Run
import Signpost.Proofs.Regex.Search
import Signpost.Proofs.Template.Source
import Signpost.Proofs.Template.Reading
import Signpost.Proofs.Template.Language
import Signpost.Proofs.Output
import Signpost.Proofs.Template.Accepts
import Signpost.Proofs.Template.Segments
import Signpost.Proofs.Template.Captured
import Signpost.Proofs.Router.Single
import Signpost.Proofs.Scope.Params
import Signpost.Proofs.Template.Link
import Signpost.Proofs.Declaration.Trace
import Signpost.Proofs.Declaration.Run
import Signpost.Proofs.Table.Place
import Signpost.Proofs.Router.Change
import Signpost.Proofs.Router.History
import Signpost.Proofs.Router.Addition
import Signpost.Proofs.Table.History
import Signpost.Proofs.Template.Return
import Signpost.Proofs.Query.Agreement
import Signpost.Proofs.Router.Failure
import Signpost.Proofs.Query.Conflict
import Signpost.Proofs.Query.Legible
import Signpost.Proofs.Query.Shape
import Signpost.Proofs.Query.Reencode
import Signpost.Proofs.Result
import Signpost.Proofs.Regex.Extent
import Signpost.Proofs.Regex.Escape
import Signpost.Proofs.Regex.Bracket
import Signpost.Proofs.Regex.Bounds
import Signpost.Proofs.Regex.Action
import Signpost.Proofs.Regex.Reader
import Signpost.Proofs.Regex.Groups
import Signpost.Proofs.Regex.Capture
import Signpost.Proofs.Regex.Anchor
import Signpost.Proofs.Scope.Sources
import Signpost.Proofs.Route.Parameter
import Signpost.Proofs.Route.Group
import Signpost.Proofs.Route.Override
import Signpost.Proofs.Route.Accept
import Signpost.Proofs.Route.Symbol
import Signpost.Proofs.Route.Verbatim
import Signpost.Proofs.Template.Seams
import Signpost.Proofs.Regex.Longer
import Signpost.Proofs.Template.Behind
import Signpost.Proofs.Route.Nested
import Signpost.Proofs.Path.Piece
import Signpost.Proofs.Path.Fit
import Signpost.Proofs.Path.Shape
import Signpost.Proofs.Path.Levels
import Signpost.Proofs.Route.CatchAll
import Signpost.Proofs.Template.Words
import Signpost.Proofs.Resource.Route
import Signpost.Proofs.Resource.Usual
import Signpost.Proofs.Declaration.Outcome
import Signpost.Proofs.Resource.Address
import Signpost.Proofs.Resource.Table
import Signpost.Proofs.Resource.Extra
import Signpost.Proofs.Resource.Plural
import Signpost.Proofs.Resource.Parting
import Signpost.Proofs.Resource.Dispatch
import Signpost.Proofs.Resource.Inside
import Signpost.Proofs.Resource.Named
import Signpost.Proofs.Query.Heads
import Signpost.Proofs.Query.Position
import Signpost.Proofs.Router.Residual
import Signpost.Proofs.Scope.Alike
import Signpost.Proofs.Template.Flatten
import Signpost.Proofs.Regex.Reads
import Signpost.Proofs.Output.References
import Signpost.Proofs.Output.Substitution
import Signpost.Proofs.Router.Defaults
import Signpost.Proofs.Route.Defaults
import Signpost.Proofs.Router.Sources
import Signpost.Proofs.Router.Fallback
import Signpost.Proofs.Declaration.Single
import Signpost.Proofs.RouteFile.Read
import Signpost.Proofs.RouteFile.Order
import Signpost.Proofs.RouteFile.Blocks
import Signpost.Proofs.RouteFile.Kinds
import Signpost.Proofs.Declaration.Leaves
import Signpost.Proofs.Declaration.Outline
import Signpost.Proofs.Router.Attempt
import Signpost.Proofs.Numeral
import Signpost.Proofs.Settings
import Signpost.Proofs.Json
import Signpost.Proofs.Cli.Lines
import Signpost.Proofs.Regex.Preference
import Signpost.Proofs.Placeholder.Pattern
import Signpost.Proofs.Placeholder.OnePass
import Signpost.Proofs.Resource.Params
import Signpost.Proofs.Link.Path
