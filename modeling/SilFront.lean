import SilFront.Location
import SilFront.Text.Blank
import SilFront.Text.Escape
import SilFront.Decimal.Shortest
import SilFront.Decimal.Text
import SilFront.Number
import SilFront.Token.Basic
import SilFront.Token.Error
import SilFront.Token.Scan
import SilFront.Token.Gap
import SilFront.Token.Stream
import SilFront.DataType
import SilFront.Listing
import SilFront.SymbolTable
import SilFront.Diagnostic
import SilFront.Expression.Queue
import SilFront.Expression.Code
import SilFront.Pass.Basic
import SilFront.Pass.Expression
import SilFront.Pass.Statement
import SilFront.Pass.Program
import SilFront.Expansion.Fragment
import SilFront.Expansion.Session
import SilFront.CommandLine.Request
import SilFront.CommandLine.FileTree
import SilFront.CommandLine.Build
import SilFront.Main
import SilFront.Proofs.Sequences
import SilFront.Proofs.Machine
import SilFront.Proofs.Execution
import SilFront.Proofs.Position
import SilFront.Proofs.Reading
import SilFront.Proofs.Grammar
import SilFront.Proofs.Shunting
import SilFront.Proofs.Inversion
import SilFront.Proofs.Calls
import SilFront.Proofs.Alternation
import SilFront.Proofs.Pieces
import SilFront.Proofs.Progress
import SilFront.Proofs.Relocation
import SilFront.Proofs.Outline
import SilFront.Proofs.Construct
import SilFront.Proofs.Statements
import SilFront.Proofs.Bodies
import SilFront.Proofs.Declarations
import SilFront.Proofs.Compilation
import SilFront.Proofs.Written
import SilFront.Proofs.OwnCode
import SilFront.Proofs.Names
import SilFront.Proofs.Pushes
import SilFront.Proofs.Registers
import SilFront.Proofs.Correspondence
import SilFront.Proofs.Effects
import SilFront.Proofs.TwoRuns
import SilFront.Proofs.RegisterCount
import SilFront.Proofs.Layout
import SilFront.Proofs.ScopeWalk
import SilFront.Proofs.FinalTable
import SilFront.Proofs.StoredTable
import SilFront.Proofs.TableAgreement
import SilFront.Proofs.LeavingScopes
import SilFront.Proofs.Lexemes
import SilFront.Proofs.Tiling
import SilFront.Proofs.Expansion
import SilFront.Proofs.Substitution
import SilFront.Proofs.Quoting
import SilFront.Proofs.NumberStages
import SilFront.Proofs.NumberWords
import SilFront.Proofs.Locations
import SilFront.Proofs.Composition
import SilFront.Proofs.LineBreak
import SilFront.Proofs.ReadingOn
import SilFront.Proofs.Rounding
import SilFront.Proofs.DecimalText
import SilFront.Proofs.Arithmetic
import SilFront.Proofs.ValidQueues
import SilFront.Proofs.Vocabulary
import SilFront.Proofs.EntryText
import SilFront.Proofs.ListingText
import SilFront.Proofs.FragmentRuns
import SilFront.Proofs.TextsInTurn
import SilFront.Proofs.OpenFiles
import SilFront.Proofs.FileTrees
import SilFront.Proofs.OutputFile
import SilFront.Proofs.CommandRuns
import SilFront.Proofs.Consumption
import SilFront.Proofs.Recursion
import SilFront.Proofs.Termination
import SilFront.Proofs.Conservation
