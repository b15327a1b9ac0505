import Ebnf.Grammar
import Ebnf.Text.Column
import Ebnf.Text.WhiteSpace

/-!
# Listings of a grammar

Tables of the symbols and nodes, of the sets computed for them, and of the lines
on which symbols are used.
-/

namespace Ebnf

/-- Short name of a kind of symbols. -/
def SymbolKind.label : SymbolKind → String
  | terminal => "t"
  | pragma => "pr"
  | nonterminal => "nt"

/-- Short name of a kind of tokens. -/
def TokenKind.label : TokenKind → String
  | fixed => "fixed"
  | cls => "class"
  | literal => "lit"
  | clsLiteral => "classlit"

namespace Listing

open Column

/-! ## Sets -/

/-- Lines of sets are wrapped at this number of bytes. -/
def wrapWidth : Nat := 80

/-- Appends names to the line `cur`.  A name that does not fit begins a new line with `indent`
blanks, unless the line is empty behind them. -/
def wrapNames (indent : Nat) (cur : String) : List String → List String
  | [] => [WhiteSpace.trimEnd cur]
  | name :: names =>
    if indent < cur.utf8ByteSize ∧ wrapWidth < cur.utf8ByteSize + 1 + name.utf8ByteSize then
      cur :: wrapNames indent (blanks indent ++ " " ++ name) names
    else wrapNames indent (cur ++ " " ++ name) names

/-- A label and the names of the terminals of a set. -/
def setLines (g : Grammar) (label : String) (indent : Nat) (set : BitSet) : List String :=
  wrapNames indent (left indent label)
    (set.toList.map fun n => (g.sym (g.terminal n)).name)

/-- Start and follow sets of a nonterminal. -/
def setsOf (g : Grammar) (s : SymbolId) : String :=
  let sym := g.sym s
  unlines (sym.name :: setLines g "first:" 9 sym.first ++ setLines g "follow:" 9 sym.follow)

/-- Start and follow sets of all nonterminals, divided by empty lines. -/
def sets (g : Grammar) : String :=
  "\n".intercalate (g.nonterminals.map (setsOf g))

/-- The sets of all ANY and SYNC nodes. -/
def anySync (g : Grammar) : String :=
  String.join <| g.nodes.toList.zipIdx.map fun (n, p) =>
    if n.kind = .any ∨ n.kind = .sync then
      unlines (setLines g (number 4 p ++ " " ++ left 4 n.kind.label ++ ":") 10 n.set)
    else ""

/-! ## Symbols -/

/-- A row of the symbol table. -/
def symbolRow (number name kind production deletable line token : String) : String :=
  " ".intercalate [right 3 number, left 14 name, left 4 kind, right 5 production, left 5 deletable,
    right 5 line, token]

/-- The row of a symbol. -/
def symbolLine (g : Grammar) (s : SymbolId) : String :=
  let sym := g.sym s
  WhiteSpace.trimEnd <| symbolRow (toString sym.number) sym.name sym.kind.label
    ((sym.production.map toString).getD "") (if sym.deletable then "true" else "false")
    (toString sym.line) (if sym.kind = .nonterminal then "" else sym.tokenKind.label)

/-- The declaration of a literal. -/
def literalLine (g : Grammar) (l : Literal) : String :=
  (g.sym l.sym).name ++ " = \"" ++ Escape.escape l.text ++ "\"."

/-- All symbols by kind, and the literals. -/
def symbols (g : Grammar) : String :=
  let rows := (g.terminals ++ g.pragmas ++ g.nonterminals).map (symbolLine g)
  let literals := if g.literals.isEmpty then []
    else "" :: "Literal Tokens:" :: g.sortedLiterals.map (literalLine g)
  unlines (symbolRow "nr" "name" "typ" "graph" "del" "line" "tokenKind" :: rows ++ literals)

/-! ## Nodes -/

/-- A row of the table of nodes. -/
def nodeRow (number kind name next down sub line : String) : String :=
  " ".intercalate [right 4 number, left 4 kind, left 12 name, right 5 next, right 5 down,
    right 5 sub, right 5 line]

/-- What a node stands for. -/
def nodeName (g : Grammar) (n : Node) : String :=
  match n.kind with
  | .terminal s | .pragma s | .nonterminal s | .weak s => (g.sym s).name
  | .cls id _ => (g.charClass id).name
  | .char c _ => toString c
  | .action | .resolver =>
    (n.pos.map fun pos => toString pos.beg ++ ".." ++ toString pos.stop).getD ""
  | _ => ""

/-- The index of a node, if there is one. -/
def nodeRef (p : Option NodeId) : String :=
  (p.map toString).getD ""

/-- The successor of a node, marked if it lies outside the enclosing structure. -/
def nextRef (n : Node) : String :=
  match n.next with
  | some p => (if n.leaves then "^" else "") ++ toString p
  | none => ""

/-- The row of a node. -/
def nodeLine (g : Grammar) (n : Node) (p : NodeId) : String :=
  WhiteSpace.trimEnd <| nodeRow (toString p) n.kind.label (nodeName g n) (nextRef n)
    (nodeRef n.down) (nodeRef n.sub) (toString n.line)

/-- All nodes. -/
def nodes (g : Grammar) : String :=
  unlines (nodeRow "n" "type" "name" "next" "down" "sub" "line" ::
    g.nodes.toList.zipIdx.map fun (n, p) => nodeLine g n p)

/-! ## Cross reference -/

/-- The symbol that a node uses; pragmas are not used in productions. -/
def usedSymbol? (n : Node) : Option SymbolId :=
  match n.kind with
  | .terminal s | .weak s | .nonterminal s => some s
  | _ => none

/-- Adds a line to the entry of a symbol; a new entry stands at the end. -/
def addUse (entries : List (SymbolId × List Int)) (use : SymbolId × Int) :
    List (SymbolId × List Int) :=
  if entries.any fun e => e.1 == use.1 then
    entries.map fun e => if e.1 = use.1 then (e.1, e.2 ++ [use.2]) else e
  else entries ++ [(use.1, [use.2])]

/-- The lines of each symbol: the declaration of a nonterminal as a negative number, then the
uses. -/
def uses (g : Grammar) : List (SymbolId × List Int) :=
  let declared := g.nonterminals.map fun s => (s, -((g.sym s).line : Int))
  let used := g.nodes.toList.filterMap fun n => (usedSymbol? n).map fun s => (s, (n.line : Int))
  (declared ++ used).foldl addUse []

/-- Line numbers, twelve in a line. -/
def useLines (ls : List Int) : String :=
  String.join <| ls.zipIdx.map fun (l, i) =>
    (if 0 < i ∧ i % 12 = 0 then "\n" ++ blanks 14 else "") ++ right 5 (toString l)

/-- The lines on which symbols are used, in the order of their names. -/
def crossRef (g : Grammar) : String :=
  let name := fun s => (g.sym s).name
  let sorted := (uses g).mergeSort fun a b => !decide (name b.1 < name a.1)
  unlines (sorted.map fun e => "  " ++ left 12 (name e.1) ++ useLines e.2)

end Listing

end Ebnf
