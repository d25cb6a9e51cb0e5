import GrammarCode.Atom.Basic
import GrammarCode.Atom.Text
import GrammarCode.Atom.Walk
import GrammarCode.Cli.Check
import GrammarCode.Cli.Command
import GrammarCode.Cli.Error
import GrammarCode.Cli.Flag
import GrammarCode.Cli.Input
import GrammarCode.Cli.Libraries
import GrammarCode.Cli.Log
import GrammarCode.Cli.Positions
import GrammarCode.Cli.Run
import GrammarCode.Cli.Show
import GrammarCode.Compile.Basic
import GrammarCode.Compile.Emitter
import GrammarCode.Compile.Error
import GrammarCode.Files.Host
import GrammarCode.Files.Path
import GrammarCode.Files.Tree
import GrammarCode.Glob.Pattern
import GrammarCode.Glob.Search
import GrammarCode.Grammar.Decode
import GrammarCode.Grammar.Error
import GrammarCode.Json.Basic
import GrammarCode.Json.Printer
import GrammarCode.Json.Reader
import GrammarCode.Location
import GrammarCode.Log
import GrammarCode.Main
import GrammarCode.Program.Basic
import GrammarCode.Program.Defect
import GrammarCode.Program.Identifier
import GrammarCode.Program.Instruction
import GrammarCode.Program.Listing
import GrammarCode.Program.Serial
import GrammarCode.Proofs.Compilation
import GrammarCode.Proofs.Consistency
import GrammarCode.Proofs.Decimal
import GrammarCode.Proofs.Emission
import GrammarCode.Proofs.Fragment
import GrammarCode.Proofs.JsonString
import GrammarCode.Proofs.JsonText
import GrammarCode.Proofs.LineIndex
import GrammarCode.Proofs.Places
import GrammarCode.Proofs.ProgramText
import GrammarCode.Proofs.SourceRun
import GrammarCode.Proofs.Utf8
import GrammarCode.Settings.Document
import GrammarCode.Settings.File
import GrammarCode.Settings.Layers
import GrammarCode.Settings.Value
import GrammarCode.Source.Basic
import GrammarCode.Source.Memory
import GrammarCode.Source.Stream
import GrammarCode.Table
import GrammarCode.Text.Base64
import GrammarCode.Text.BreakClass
import GrammarCode.Text.Bytes
import GrammarCode.Text.Cluster
import GrammarCode.Text.Double
import GrammarCode.Text.Integer
import GrammarCode.Text.Printable
import GrammarCode.Text.Quoted
import GrammarCode.Text.Ranges
import GrammarCode.Text.Screen
import GrammarCode.Text.Style
import GrammarCode.Text.Utf8
import GrammarCode.Yaml.Event
import GrammarCode.Yaml.Fault
import GrammarCode.Yaml.Input
import GrammarCode.Yaml.Node
import GrammarCode.Yaml.Scalar
import GrammarCode.Yaml.Timestamp
import GrammarCode.Yaml.Token.Basic
import GrammarCode.Yaml.Token.Comment
import GrammarCode.Yaml.Token.Lexer
import GrammarCode.Yaml.Token.Property
import GrammarCode.Yaml.Token.Scalar
import GrammarCode.Yaml.Token.Stream
import GrammarCode.Proofs.Decodability
import GrammarCode.Proofs.Branches
import GrammarCode.Proofs.GaplessRun
import GrammarCode.Proofs.ScannedMark
import GrammarCode.Proofs.Decoding
import GrammarCode.Proofs.Spelling
import GrammarCode.Proofs.ExpressionReader
import GrammarCode.Proofs.Grouping
import GrammarCode.Proofs.AliasTransparency
import GrammarCode.Proofs.ReadOutcome
import GrammarCode.Proofs.StreamPosition
import GrammarCode.Proofs.DecodingRules
import GrammarCode.Proofs.IndexOrder
import GrammarCode.Proofs.Listing
import GrammarCode.Proofs.Verification
import GrammarCode.Proofs.LoadedProgram
import GrammarCode.Proofs.FirstChoice
import GrammarCode.Proofs.ColourLayout
import GrammarCode.Proofs.CheckReport
import GrammarCode.Proofs.AskingForEnd
import GrammarCode.Proofs.LineColumn
import GrammarCode.Proofs.ShownPositions
import GrammarCode.Proofs.TableLayout
import GrammarCode.Proofs.ProgramStats
import GrammarCode.Proofs.Preorder
import GrammarCode.Proofs.Truncation
import GrammarCode.Proofs.LiteralText
import GrammarCode.Proofs.EscapeSequences
import GrammarCode.Proofs.Screen
