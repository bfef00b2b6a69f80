import Lode.Archive.Basic
import Lode.Archive.Reader
import Lode.Archive.Writer
import Lode.CommandLine.Arguments
import Lode.CommandLine.Disk
import Lode.CommandLine.Report
import Lode.CommandLine.Run
import Lode.Compiler
import Lode.Config
import Lode.Diagnostic
import Lode.Diff
import Lode.Digest
import Lode.Error
import Lode.Grammar.Automaton
import Lode.Grammar.Basic
import Lode.Grammar.FirstFollow
import Lode.Grammar.Lookahead
import Lode.Grammar.Rule
import Lode.Grammar.Table
import Lode.Intrinsic
import Lode.Json
import Lode.Json.Reader
import Lode.Language.Lexis
import Lode.Language.Reader
import Lode.Language.Rules
import Lode.Lexer
import Lode.Link
import Lode.Main
import Lode.Object.Relocation
import Lode.Parser
import Lode.Pass.Accumulator
import Lode.Pass.Arithmetic
import Lode.Pass.Assembly
import Lode.Pass.Basic
import Lode.Pass.Calls
import Lode.Pass.Constants
import Lode.Pass.Locals
import Lode.Pass.Names
import Lode.Pass.Schedule
import Lode.Pass.Scopes
import Lode.Pass.Simplify
import Lode.Pass.Standard
import Lode.Pass.Storage
import Lode.Pass.Typing
import Lode.Pass.Units
import Lode.Pass.WrittenTypes
import Lode.Path
import Lode.Pattern.Basic
import Lode.Pattern.RuleSet
import Lode.Proofs.Except
import Lode.Proofs.Grammar.Automaton
import Lode.Proofs.Grammar.Closure
import Lode.Proofs.Grammar.Derivation
import Lode.Proofs.Grammar.FirstFollow
import Lode.Proofs.Grammar.Lookahead
import Lode.Proofs.Grammar.Order
import Lode.Proofs.Grammar.Resolution
import Lode.Proofs.Grammar.Routes
import Lode.Proofs.Grammar.SententialForms
import Lode.Proofs.Grammar.Table
import Lode.Proofs.Grammar.ValidItems
import Lode.Proofs.Grammar.Walks
import Lode.Proofs.Parser.Completeness
import Lode.Proofs.Parser.Soundness
import Lode.Proofs.Parser.Steps
import Lode.Proofs.Parser.Transcript
import Lode.Proofs.Sorted
import Lode.Random
import Lode.Regex.Basic
import Lode.Regex.Program
import Lode.Regex.Reader
import Lode.Scope
import Lode.Sorted
import Lode.Span
import Lode.Stream
import Lode.Text.Bytes
import Lode.Text.Extending
import Lode.Text.Hex
import Lode.Text.Number
import Lode.Text.Printable
import Lode.Text.Quoted
import Lode.Text.Ranges
import Lode.Text.Utf8
import Lode.Text.Word
import Lode.Token
import Lode.Tree.Basic
import Lode.Tree.Printer
import Lode.Tree.Sequence
import Lode.Tree.Tag
import Lode.Tree.Transform
import Lode.Types.Basic
import Lode.Types.Descriptor
import Lode.Word
import Lode.Yaml.Basic
import Lode.Yaml.Document
import Lode.Yaml.Scalar
import Lode.Yaml.Token
import Lode.Proofs.Pass.Front
import Lode.Proofs.Link.Image
import Lode.Proofs.Pass.Allocation
import Lode.Proofs.Pass.Assembly
import Lode.Proofs.Pass.Calls
import Lode.Proofs.Pass.Flattening
import Lode.Proofs.Pass.Merging
import Lode.Proofs.Pass.Topology
import Lode.Proofs.Link.Ranges
import Lode.Proofs.Compiler.Scoping
import Lode.Proofs.Compiler.Archives
import Lode.Proofs.Compiler.Calls
import Lode.Proofs.Compiler.Stores
import Lode.Proofs.Archive.RoundTrip
import Lode.Proofs.Pattern.Matching
import Lode.Proofs.Parser.Rejection
import Lode.Proofs.Language.Totality
import Lode.Proofs.Language.Insertions
import Lode.Proofs.Language.Nesting
import Lode.Proofs.Tree.Frames
import Lode.Proofs.Pass.Folding
import Lode.Proofs.Compiler.Bodies
import Lode.Proofs.Compiler.Accumulator
import Lode.Proofs.Compiler.Execution
import Lode.Proofs.Tree.Sequences
import Lode.Proofs.Diagnostic
