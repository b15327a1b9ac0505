import Ebnf.Expr
import Ebnf.Machine.Comment
import Ebnf.Machine.Literal
import Ebnf.Machine.Token

/-!
# Declarations

What the text of a grammar consists of: productions, tokens by their structure
or by their text, and comments.  The symbols that an expression names are
declared before the symbol that it defines.
-/

namespace Ebnf

/-- Declares the production of a nonterminal.  The first nonterminal with a production is the start
symbol. -/
def Grammar.declareProduction (g : Grammar) (name : String) (e : Expr) (line : Nat) :
    SymbolId × Fragment × Grammar :=
  let (f, g) := g.addExpr line e
  let (s, g) := g.internSymbol .nonterminal name line
  let g := (g.close f).modifySym s fun sym => { sym with production := some f.entry }
  (s, f, { g with start := g.start <|> some s })

namespace Draft

/-- Declares a token by its structure. -/
def declareToken (d : Draft) (kind : SymbolKind) (name : String) (e : Expr) (line : Nat) :
    SymbolId × Draft :=
  let (f, g) := d.grammar.addExpr line e
  let (s, g) := g.declareSymbol kind name line
  (s, { d with grammar := g.close f }.addToken f.entry s)

/-- Declares a token by its quoted text. -/
def declareLiteral (d : Draft) (kind : SymbolKind) (name quoted : String) (line : Nat) :
    SymbolId × Draft :=
  let (s, g) := d.grammar.declareSymbol kind name line
  (s, { d with grammar := g }.addLiteral quoted s)

/-- Declares a kind of comment by its delimiters. -/
def declareComment (d : Draft) (start stop : Expr) (nested : Bool) (line : Nat) : Draft :=
  let (f₁, g) := d.grammar.addExpr line start
  let (f₂, g) := g.addExpr line stop
  { d with grammar := g }.addComment f₁.entry f₂.entry nested

end Draft

end Ebnf
