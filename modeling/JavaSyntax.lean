import JavaSyntax.Text.Lines
import JavaSyntax.Token.KindSet
import JavaSyntax.Token.List
import JavaSyntax.Tree.Kind
import JavaSyntax.Tree.Equality
import JavaSyntax.Tree.Draft
import JavaSyntax.Tree.Walk
import JavaSyntax.Report.Snippet
import JavaSyntax.Lexer.Scan
import JavaSyntax.Parser.Options
import JavaSyntax.Parser.ScanMemo
import JavaSyntax.Stream.Cursor
import JavaSyntax.Grammar.Precedence
import JavaSyntax.Grammar.Body
import JavaSyntax.Parser.Session
import JavaSyntax.Proofs.Adequacy
import JavaSyntax.Proofs.Shape
import JavaSyntax.Proofs.Coverage
import JavaSyntax.Proofs.Expected
import JavaSyntax.Proofs.Grouping
import JavaSyntax.Proofs.Levels
import JavaSyntax.Proofs.Memoization
import JavaSyntax.Proofs.Budget
import JavaSyntax.Proofs.Speculation
import JavaSyntax.Proofs.Casts
import JavaSyntax.Proofs.Reparse
import JavaSyntax.Proofs.Checkpoints
import JavaSyntax.Proofs.Internal
import JavaSyntax.Proofs.Layout
import JavaSyntax.Proofs.Climbing
import JavaSyntax.Proofs.Operands
import JavaSyntax.Proofs.Matching
import JavaSyntax.Proofs.Extents
import JavaSyntax.Proofs.Calls
import JavaSyntax.Proofs.Munch
import JavaSyntax.Proofs.Reports
import JavaSyntax.Proofs.Termination
import JavaSyntax.Proofs.Cutting
import JavaSyntax.Proofs.DeadEnds
import JavaSyntax.Proofs.Barren
import JavaSyntax.Proofs.TypeHeads
import JavaSyntax.Proofs.Branches
import JavaSyntax.Proofs.Phrases
import JavaSyntax.Proofs.Recognition
import JavaSyntax.Proofs.Items
import JavaSyntax.Proofs.Braces
import JavaSyntax.Proofs.NewArrays
import JavaSyntax.Proofs.LineTexts
import JavaSyntax.Proofs.Underlines
import JavaSyntax.Proofs.Isolation
import JavaSyntax.Proofs.Refusals
import JavaSyntax.Proofs.Nesting
import JavaSyntax.Proofs.Walks
import JavaSyntax.Proofs.Sameness
import JavaSyntax.Proofs.Members
