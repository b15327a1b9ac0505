import Ebnf.Outline

/-!
# EBNF expressions

The right-hand sides of productions and token declarations.  Adding an
expression to a grammar declares the symbols it names for the first time and
yields the fragment that stands for it.  Parts are added from left to right, and
a part before the structure that encloses it.
-/

namespace Ebnf

/-- A right-hand side. -/
inductive Expr
  | terminal (name : String)
  | weak (name : String)
  | nonterminal (name : String)
  | pragma (name : String)
  | any
  | eps
  | sync
  /-- a semantic action, by default an empty one on the current line -/
  | action (pos : Option Position)
  /-- a resolver, by default an empty one on the current line -/
  | resolver (pos : Option Position)
  | char (c : Nat)
  | cls (id : ClassId)
  | quoted (text : String)
  | seq (first : Expr) (rest : List Expr)
  | alt (first : Expr) (rest : List Expr)
  | iter (body : Expr)
  | opt (body : Expr)
  /-- only required behind the token -/
  | context (body : Expr)
  | onLine (line : Nat) (body : Expr)
  /-- a fragment that is already there -/
  | fragment (f : Fragment)
  deriving Inhabited

namespace Grammar

/-- Adds a node for the symbol with a name, declared if there is none. -/
def addSymbolLeaf (g : Grammar) (kind : SymbolKind) (make : SymbolId → NodeKind) (name : String)
    (line : Nat) : Fragment × Grammar :=
  let (s, g) := g.internSymbol kind name line
  g.addLeaf { kind := make s, line }

/-- Fragments one after the other. -/
def sequenceAll (g : Grammar) (f : Fragment) : List Fragment → Fragment × Grammar
  | [] => (f, g)
  | f₂ :: fs =>
    let (f, g) := g.sequence f f₂
    g.sequenceAll f fs

/-- Fragments as further arms. -/
def addArms (g : Grammar) (alts : Fragment) : List Fragment → Fragment × Grammar
  | [] => (alts, g)
  | f :: fs =>
    let (alts, g) := g.addArm alts f
    g.addArms alts fs

mutual

/-- Adds an expression that stands on a line. -/
def addExpr (g : Grammar) (line : Nat) : Expr → Fragment × Grammar
  | .terminal name => g.addSymbolLeaf .terminal .terminal name line
  | .weak name => g.addSymbolLeaf .terminal .weak name line
  | .nonterminal name => g.addSymbolLeaf .nonterminal .nonterminal name line
  | .pragma name => g.addSymbolLeaf .pragma .pragma name line
  | .any => g.addLeaf { kind := .any, line }
  | .eps => g.addLeaf { kind := .eps, line }
  | .sync => g.addLeaf { kind := .sync, line }
  | .action pos =>
    g.addLeaf { kind := .action, line, pos := some (pos.getD ⟨0, 0, line, 1⟩) }
  | .resolver pos =>
    g.addLeaf { kind := .resolver, line, pos := some (pos.getD ⟨0, 0, line, 1⟩) }
  | .char c => g.addLeaf { kind := .char c .main, line }
  | .cls id => g.addLeaf { kind := .cls id .main, line }
  | .quoted text => g.addString text line
  | .seq first rest =>
    let (f, g) := g.addExpr line first
    let (fs, g) := g.addExprs line rest
    g.sequenceAll f fs
  | .alt first rest =>
    let (f, g) := g.addExpr line first
    let (fs, g) := g.addExprs line rest
    let (alts, g) := g.firstArm f
    g.addArms alts fs
  | .iter body =>
    let (f, g) := g.addExpr line body
    g.iteration f
  | .opt body =>
    let (f, g) := g.addExpr line body
    g.option f
  | .context body =>
    let (f, g) := g.addExpr line body
    (f, g.markContext (some f.entry))
  | .onLine line body => g.addExpr line body
  | .fragment f => (f, g)

/-- Adds expressions from left to right. -/
def addExprs (g : Grammar) (line : Nat) : List Expr → List Fragment × Grammar
  | [] => ([], g)
  | e :: es =>
    let (f, g) := g.addExpr line e
    let (fs, g) := g.addExprs line es
    (f :: fs, g)

end

end Grammar

end Ebnf
