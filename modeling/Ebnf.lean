import Ebnf.Analysis
import Ebnf.Analysis.Any
import Ebnf.Analysis.Deletable
import Ebnf.Analysis.First
import Ebnf.Analysis.Follow
import Ebnf.Analysis.Sync
import Ebnf.BitSet
import Ebnf.CharSet
import Ebnf.Check
import Ebnf.Check.Lookahead
import Ebnf.Check.Productions
import Ebnf.Check.Resolvers
import Ebnf.Declaration
import Ebnf.Diagnostic
import Ebnf.Expr
import Ebnf.Fragment
import Ebnf.Generation
import Ebnf.Grammar
import Ebnf.Listing.Grammar
import Ebnf.Listing.Scanner
import Ebnf.Machine
import Ebnf.Machine.Comment
import Ebnf.Machine.Literal
import Ebnf.Machine.Merge
import Ebnf.Machine.Split
import Ebnf.Machine.Token
import Ebnf.Node
import Ebnf.Outline
import Ebnf.Proofs.CharSet.Canonical
import Ebnf.Proofs.CharSet.Words
import Ebnf.Proofs.Machine.Reach
import Ebnf.Report
import Ebnf.Scanner
import Ebnf.Scanner.Blank
import Ebnf.Scanner.Tokens
import Ebnf.Search
import Ebnf.Selection
import Ebnf.Symbol
import Ebnf.Text.Bytes
import Ebnf.Text.Column
import Ebnf.Text.Escape
import Ebnf.Text.WhiteSpace
import Ebnf.TraceOptions
import Ebnf.Proofs.Machine.Split
import Ebnf.Proofs.Machine.Merge
import Ebnf.Proofs.Grammar.Nodes
import Ebnf.Proofs.Grammar.Rules
import Ebnf.Proofs.Machine.Build
import Ebnf.Proofs.Machine.Moves
import Ebnf.Proofs.Scanner.Tracking
import Ebnf.Proofs.Scanner.Ambiguity
import Ebnf.Proofs.Scanner.Plain
import Ebnf.Proofs.Scanner.Items
import Ebnf.Proofs.Phrase.Basic
import Ebnf.Proofs.Phrase.Outline
import Ebnf.Proofs.Phrase.Assembly
import Ebnf.Proofs.Phrase.Deletable
import Ebnf.Proofs.Phrase.Walk
import Ebnf.Proofs.Phrase.Chain
import Ebnf.Proofs.Phrase.Front
import Ebnf.Proofs.Phrase.Parts
import Ebnf.Proofs.Machine.Numbering
import Ebnf.Proofs.Machine.Starts
import Ebnf.Proofs.Machine.Depth
import Ebnf.Proofs.Machine.Edges
import Ebnf.Proofs.Machine.Edits
import Ebnf.Proofs.Machine.Declared
import Ebnf.Proofs.Machine.Recognition
import Ebnf.Proofs.Machine.Literals
import Ebnf.Proofs.Scanner.Literals
import Ebnf.Proofs.Scanner.WellFormed
import Ebnf.Proofs.Scanner.Folding
import Ebnf.Proofs.Grammar.Derivation
import Ebnf.Proofs.Grammar.Written
import Ebnf.Proofs.Analysis.Deletable
import Ebnf.Proofs.Analysis.Narrow
import Ebnf.Proofs.Analysis.Annotation
import Ebnf.Proofs.Analysis.First
import Ebnf.Proofs.Analysis.Inherit
import Ebnf.Proofs.Analysis.Follow
import Ebnf.Proofs.Analysis.Sets
import Ebnf.Proofs.Analysis.Sync
import Ebnf.Proofs.Analysis.Any
import Ebnf.Proofs.Check.Lookahead
import Ebnf.Proofs.Check.Unambiguous
import Ebnf.Proofs.Check.Circular
import Ebnf.Proofs.Check.Chains
import Ebnf.Proofs.Check.Termination
import Ebnf.Proofs.Check.Verdict
import Ebnf.Proofs.Check.Reachability
import Ebnf.Proofs.Check.Conflicts
import Ebnf.Proofs.Analysis.Begins
import Ebnf.Proofs.Analysis.Borders
import Ebnf.Proofs.Analysis.Passing
import Ebnf.Proofs.Analysis.AnyBehind
import Ebnf.Proofs.Machine.Traces
import Ebnf.Proofs.Machine.Contexts
import Ebnf.Proofs.Phrase.Context
import Ebnf.Proofs.Scanner.Contexts
import Ebnf.Proofs.Text.Escape
import Ebnf.Proofs.Scanner.Longest
import Ebnf.Proofs.Scanner.Marking
import Ebnf.Proofs.Scanner.Appendix
import Ebnf.Proofs.Machine.Faults
import Ebnf.Proofs.Machine.Additions
import Ebnf.Proofs.Scanner.Skipping
import Ebnf.Proofs.Scanner.Lookup
import Ebnf.Proofs.CharSet.Queries
import Ebnf.Proofs.Machine.Separation
import Ebnf.Proofs.Machine.Table
import Ebnf.Proofs.Machine.Ending
import Ebnf.Proofs.Text.Pieces
import Ebnf.Proofs.Selection.TestSets
import Ebnf.Proofs.Check.Arms
import Ebnf.Proofs.Selection.Switch
import Ebnf.Proofs.Check.Resolvers
import Ebnf.Proofs.Phrase.Marking
import Ebnf.Proofs.Phrase.Tours
import Ebnf.Proofs.Phrase.Positions
import Ebnf.Proofs.Analysis.Range
import Ebnf.Proofs.Grammar.Combined
import Ebnf.Proofs.Check.Lookups
