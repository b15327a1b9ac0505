import Ebnf.CharSet
import Ebnf.Node

/-!
# Grammars

A grammar is the symbol table, the nodes of all productions and token
structures, the character classes and literals, and the diagnostics found so
far.  Symbols, nodes and classes are only ever appended, so an index once handed
out stays valid.
-/

namespace Ebnf

/-- A named set of characters. -/
structure CharClass where
  name : String
  set : CharSet
  deriving DecidableEq, Repr, Inhabited

/-- A literal text and the token that it declares. -/
structure Literal where
  text : String
  sym : SymbolId
  deriving DecidableEq, Repr

/-- Symbol table, nodes, classes, literals and diagnostics of a grammar. -/
structure Grammar where
  symbols : Array Symbol
  nodes : Array Node := #[]
  classes : Array CharClass := #[]
  /-- no text and no token occurs twice -/
  literals : List Literal := []
  /-- characters that may stand between tokens -/
  ignored : CharSet := ∅
  start : Option SymbolId := none
  eof : SymbolId := 0
  /-- stands for text that is no token -/
  unknown : Option SymbolId := none
  /-- union of the sets of all SYNC nodes -/
  syncUnion : BitSet := ∅
  diags : Diagnostics := []
  /-- number of class names made up so far -/
  madeUpNames : Nat := 0
  deriving Inhabited

namespace Grammar

/-! ## Access by index -/

/-- The symbol with an index. -/
def sym (g : Grammar) (s : SymbolId) : Symbol :=
  g.symbols.getD s default

/-- The node with an index. -/
def node (g : Grammar) (p : NodeId) : Node :=
  g.nodes.getD p default

/-- The character class with an index. -/
def charClass (g : Grammar) (c : ClassId) : CharClass :=
  g.classes.getD c default

/-- Changes one symbol. -/
def modifySym (g : Grammar) (s : SymbolId) (f : Symbol → Symbol) : Grammar :=
  { g with symbols := g.symbols.modify s f }

/-- Changes one node. -/
def modifyNode (g : Grammar) (p : NodeId) (f : Node → Node) : Grammar :=
  { g with nodes := g.nodes.modify p f }

/-- Appends a diagnostic. -/
def report (g : Grammar) (d : Diagnostic) : Grammar :=
  { g with diags := g.diags ++ [d] }

/-- Appends several diagnostics. -/
def reportAll (g : Grammar) (ds : List Diagnostic) : Grammar :=
  { g with diags := g.diags ++ ds }

theorem reportAll_reportAll {g : Grammar} {ds ds' : List Diagnostic} :
    (g.reportAll ds).reportAll ds' = g.reportAll (ds ++ ds') := by
  simp only [reportAll, List.append_assoc]

theorem errors_le_reportAll {g : Grammar} {ds : List Diagnostic} :
    g.diags.errors ≤ (g.reportAll ds).diags.errors := by
  rw [reportAll, Diagnostics.errors_append]
  exact Nat.le_add_right _ _

/-! ## Symbols -/

/-- The symbols of one kind, in the order of their declaration. -/
def ofKind (g : Grammar) (kind : SymbolKind) : List SymbolId :=
  (List.range g.symbols.size).filter fun s => (g.sym s).kind == kind

/-- The terminals by number. -/
def terminals (g : Grammar) : List SymbolId := g.ofKind .terminal

/-- The pragmas in the order of their declaration. -/
def pragmas (g : Grammar) : List SymbolId := g.ofKind .pragma

/-- The nonterminals by number. -/
def nonterminals (g : Grammar) : List SymbolId := g.ofKind .nonterminal

/-- The terminal with a number. -/
def terminal (g : Grammar) (n : Nat) : SymbolId :=
  g.terminals.getD n 0

/-- The nonterminal with a number. -/
def nonterminal (g : Grammar) (n : Nat) : SymbolId :=
  g.nonterminals.getD n 0

/-- Number that the next symbol of a kind gets.  Pragmas are numbered when all terminals are
declared. -/
def nextNumber (g : Grammar) : SymbolKind → Nat
  | .terminal => g.terminals.length
  | .pragma => 0
  | .nonterminal => g.nonterminals.length

/-- Declares a symbol.  A name of two quotes is an empty token. -/
def declareSymbol (g : Grammar) (kind : SymbolKind) (name : String) (line : Nat) :
    SymbolId × Grammar :=
  let g' := if name = "\"\"" then g.report (.errorOn line .emptyToken) else g
  let name' := if name = "\"\"" then "???" else name
  (g.symbols.size,
    { g' with
      symbols := g'.symbols.push { kind, name := name', number := g.nextNumber kind, line } })

/-- The grammar with which every declaration starts: only the end of the input is a terminal, and
only blanks are ignored. -/
def initial : Grammar :=
  let g := (({ symbols := #[] } : Grammar).declareSymbol .terminal "EOF" 0).2
  { g with ignored := g.ignored.insert ' '.toNat }

/-- The first symbol of a kind with a name. -/
def findOfKind (g : Grammar) (kind : SymbolKind) (name : String) : Option SymbolId :=
  (g.ofKind kind).find? fun s => (g.sym s).name == name

/-- The first terminal with a name, or else the first nonterminal. -/
def findSymbol (g : Grammar) (name : String) : Option SymbolId :=
  g.findOfKind .terminal name <|> g.findOfKind .nonterminal name

/-- The first symbol of a kind with a name, declared if there is none. -/
def internSymbol (g : Grammar) (kind : SymbolKind) (name : String) (line : Nat) :
    SymbolId × Grammar :=
  match g.findOfKind kind name with
  | some s => (s, g)
  | none => g.declareSymbol kind name line

/-- Declares the symbol for text that is no token.  All terminals have to be declared before. -/
def declareUnknown (g : Grammar) : SymbolId × Grammar :=
  let (s, g) := g.declareSymbol .terminal "???" 0
  (s, { g with unknown := some s })

/-- Numbers the pragmas, beginning behind the terminals. -/
def numberPragmas (g : Grammar) : Grammar :=
  (g.pragmas.zipIdx g.terminals.length).foldl
    (fun g entry => g.modifySym entry.1 fun s => { s with number := entry.2 }) g

/-- Lets every ANY stand for all terminals but the end of the input and the unknown token. -/
def fillAnys (g : Grammar) : Grammar :=
  let all := (BitSet.full g.terminals.length).erase (g.sym g.eof).number
  let set := match g.unknown with
    | some s => all.erase (g.sym s).number
    | none => all
  { g with nodes := g.nodes.map fun n => if n.kind = .any then { n with set } else n }

/-! ## Literals -/

/-- Reads a quoted text and reports its malformed escape sequences. -/
def readQuoted (g : Grammar) (quoted : String) : String × Grammar :=
  let (text, faults) := Escape.unescapeQuoted quoted
  (text, g.reportAll (faults.map fun f => .error (.escape f)))

/-- The token that an unquoted text declares. -/
def literalOf? (g : Grammar) (text : String) : Option SymbolId :=
  (g.literals.find? fun l => l.text == text).map Literal.sym

/-- The token that a quoted text declares. -/
def findLiteral (g : Grammar) (quoted : String) : Option SymbolId × Grammar :=
  let (text, g) := g.readQuoted quoted
  (g.literalOf? text, g)

/-- Declares a literal; nothing if its text or its token already occurs. -/
def addLiteral? (g : Grammar) (text : String) (s : SymbolId) : Option Grammar :=
  if g.literals.any fun l => l.text == text || l.sym == s then none
  else some { g with literals := g.literals ++ [⟨text, s⟩] }

theorem addLiteral?_eq_some {g g' : Grammar} {text : String} {s : SymbolId}
    (h : g.addLiteral? text s = some g') :
    (∀ l ∈ g.literals, l.text ≠ text) ∧ g' = { g with literals := g.literals ++ [⟨text, s⟩] } := by
  unfold addLiteral? at h
  split at h
  · cases h
  next hnone =>
    refine ⟨fun l hl heq => hnone (List.any_eq_true.2 ⟨l, hl, ?_⟩), (Option.some.inj h).symm⟩
    simp [heq]

/-- The literals in the order of their tokens. -/
def sortedLiterals (g : Grammar) : List Literal :=
  g.literals.mergeSort fun a b => a.sym ≤ b.sym

/-! ## Character classes -/

/-- The `n`-th made-up name: a letter while there are letters, then a number. -/
def madeUpName (n : Nat) : String :=
  if n < 26 then "#" ++ String.singleton (Char.ofNat ('A'.toNat + n)) else "#" ++ toString n

/-- Declares a character class.  The name `#` asks for a made-up name. -/
def declareClass (g : Grammar) (name : String) (set : CharSet) : ClassId × Grammar :=
  if name = "#" then
    (g.classes.size,
      { g with
        classes := g.classes.push ⟨madeUpName g.madeUpNames, set⟩
        madeUpNames := g.madeUpNames + 1 })
  else (g.classes.size, { g with classes := g.classes.push ⟨name, set⟩ })

/-- The first character class with a name. -/
def findClass (g : Grammar) (name : String) : Option ClassId :=
  g.classes.findIdx? fun c => c.name == name

/-- The first character class with the same members. -/
def findClassOf (g : Grammar) (set : CharSet) : Option ClassId :=
  g.classes.findIdx? fun c => c.set == set

/-- A character class with the given members, declared if there is none. -/
def internClass (g : Grammar) (set : CharSet) : ClassId × Grammar :=
  match g.findClassOf set with
  | some c => (c, g)
  | none => g.declareClass "#" set

end Grammar

end Ebnf
