import Ebnf.BitSet

/-!
# Symbols

Terminals, pragmas and nonterminals share one table and are told apart by their
kind.  A symbol's identity is its index in the table; its number counts within
its kind, and sets of symbols are sets of these numbers.
-/

namespace Ebnf

/-- Index of a symbol in the symbol table. -/
abbrev SymbolId := Nat

/-- Index of a node of the productions and token structures. -/
abbrev NodeId := Nat

/-- Index of a character class. -/
abbrev ClassId := Nat

/-- Index of a state of a token machine or scanner. -/
abbrev StateId := Nat

/-- The three kinds of symbols. -/
inductive SymbolKind
  | terminal
  | pragma
  | nonterminal
  deriving DecidableEq, Repr, Inhabited

/-- How a token is recognised. -/
inductive TokenKind
  /-- a structure of single characters -/
  | fixed
  /-- a structure with at least one character class -/
  | cls
  /-- a text that ends where a class token ends -/
  | literal
  /-- a class token whose text has to be looked up among the literals -/
  | clsLiteral
  deriving DecidableEq, Repr, Inhabited

/-- An entry of the symbol table. -/
structure Symbol where
  kind : SymbolKind
  name : String
  /-- counted within the kind -/
  number : Nat
  line : Nat
  /-- first node of a nonterminal's production -/
  production : Option NodeId := none
  tokenKind : TokenKind := .fixed
  /-- derives the empty string -/
  deletable : Bool := false
  /-- whether `first` is computed -/
  firstKnown : Bool := false
  /-- numbers of the terminals that start the symbol -/
  first : BitSet := ∅
  /-- numbers of the terminals that follow the symbol -/
  follow : BitSet := ∅
  /-- numbers of the nonterminals whose followers also follow this symbol -/
  inherits : BitSet := ∅
  deriving DecidableEq, Repr, Inhabited

end Ebnf
