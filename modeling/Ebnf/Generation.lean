import Ebnf.Analysis
import Ebnf.Check
import Ebnf.Listing.Grammar
import Ebnf.Listing.Scanner
import Ebnf.Selection
import Ebnf.TraceOptions

/-!
# Generation

The whole way from a grammar and its token machine to what an emitter of parsers
and scanners needs: symbol sets, checks, and the scanner.  Problems are appended
to the diagnostics of the grammar; the outcome only says at which stage the run
stopped.
-/

namespace Ebnf

/-- What a run is asked for. -/
structure Options where
  trace : TraceOptions := {}
  /-- build the scanner -/
  scanner : Bool := true
  /-- the parser checks that the input ends behind the start symbol -/
  checkEof : Bool := true
  deriving DecidableEq, Repr, Inhabited

/-- Why a run stopped. -/
inductive Failure
  /-- there were errors before -/
  | reader (errors : Nat)
  /-- a production is missing, circular or endless -/
  | grammarNotOk
  /-- tokens cannot be told apart -/
  | scanner (errors : Nat)
  deriving DecidableEq, Repr

/-- Wording of the reason. -/
def Failure.message : Failure → String
  | reader n => toString n ++ " errors detected"
  | grammarNotOk => "grammar is not ok"
  | scanner n => toString n ++ " errors detected in the scanner"

/-- What a run produces. -/
structure Product where
  scanner : Option Scanner
  tests : TestSets
  warnings : Nat
  /-- the listings asked for -/
  trace : List String
  checkEof : Bool
  deriving Inhabited

/-- The listings of the grammar that are asked for. -/
def grammarTrace (flags : TraceOptions) (g : Grammar) : List String :=
  (if flags.firstFollow then [Listing.sets g] else []) ++
  (if flags.anySync then [Listing.anySync g] else []) ++
  (if flags.symbols then [Listing.symbols g] else []) ++
  (if flags.crossRef then [Listing.crossRef g] else []) ++
  (if flags.nodes then [Listing.nodes g] else [])

/-- The listing of the scanner, if it is asked for. -/
def scannerTrace (flags : TraceOptions) (sc : Scanner) (g : Grammar) : List String :=
  if flags.scanner then [Listing.states sc g ++ "\n" ++ Listing.classes g] else []

namespace Draft

/-- Builds the scanner, if it is asked for. -/
def generateScanner (d : Draft) (options : Options) :
    Except Failure (Option Scanner × List String) × Grammar :=
  if options.scanner then
    let (sc, g) := d.toScanner
    if g.diags.hasErrors then (.error (.scanner g.diags.errors), g)
    else (.ok (some sc, scannerTrace options.trace sc g), g)
  else (.ok (none, []), d.grammar)

/-- Analyses the grammar and builds its scanner. -/
def generate (d : Draft) (options : Options) : Except Failure Product × Grammar :=
  if d.grammar.diags.hasErrors then (.error (.reader d.grammar.diags.errors), d.grammar)
  else
    let g := d.grammar.declareUnknown.2.fillAnys.numberPragmas.computeSets
    let listings := grammarTrace options.trace g
    let (ok, g) := g.checkAll
    if !ok then (.error .grammarNotOk, g)
    else
      match generateScanner { d with grammar := g } options with
      | (.error e, g) => (.error e, g)
      | (.ok (scanner, more), g) =>
        (.ok
          { scanner
            tests := .ofGrammar g
            warnings := g.diags.warnings
            trace := listings ++ more
            checkEof := options.checkEof }, g)

end Draft

end Ebnf
