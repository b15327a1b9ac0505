import Ebnf.Diagnostic
import Ebnf.Symbol

/-!
# Nodes of productions and token structures

A production or token is a chain of nodes.  Alternatives, options and iterations
hold their contents as chains of their own; the last nodes of such a chain have
the successor of the enclosing structure and are marked as leaving it.
-/

namespace Ebnf

/-- Whether a character belongs to a token's text or is only required behind it. -/
inductive Part
  | main
  | context
  deriving DecidableEq, Repr, Inhabited

/-- What a node stands for. -/
inductive NodeKind
  | terminal (sym : SymbolId)
  | pragma (sym : SymbolId)
  | nonterminal (sym : SymbolId)
  /-- a terminal at which an omitted token can be tolerated -/
  | weak (sym : SymbolId)
  | cls (id : ClassId) (part : Part)
  | char (c : Nat) (part : Part)
  | any
  | eps
  | sync
  /-- semantic action -/
  | action
  /-- decides a conflict by a condition -/
  | resolver
  | alt
  | iter
  | opt
  deriving DecidableEq, Repr, Inhabited

namespace NodeKind

/-- Short name for listings. -/
def label : NodeKind → String
  | terminal _ => "t"
  | pragma _ => "pr"
  | nonterminal _ => "nt"
  | weak _ => "wt"
  | cls _ _ => "clas"
  | char _ _ => "chr"
  | any => "any"
  | eps => "eps"
  | sync => "sync"
  | action => "sem"
  | resolver => "rslv"
  | alt => "alt"
  | iter => "iter"
  | opt => "opt"

/-- The symbol that a node refers to. -/
def symbol? : NodeKind → Option SymbolId
  | terminal s | pragma s | nonterminal s | weak s => some s
  | _ => none

/-- The same kind with its character, if it has one, required behind the token only. -/
def toContext : NodeKind → NodeKind
  | cls id _ => cls id .context
  | char c _ => char c .context
  | kind => kind

end NodeKind

/-- A node of a chain. -/
structure Node where
  kind : NodeKind
  /-- successor -/
  next : Option NodeId := none
  /-- the successor lies outside the enclosing structure -/
  leaves : Bool := false
  /-- next arm of an alternative -/
  down : Option NodeId := none
  /-- first node of an arm or body -/
  sub : Option NodeId := none
  /-- terminals of an ANY or SYNC -/
  set : BitSet := ∅
  line : Nat := 0
  pos : Option Position := none
  /-- machine state in which a token node is entered -/
  state : Option StateId := none
  deriving DecidableEq, Repr, Inhabited

end Ebnf
