import Ebnf.Scanner.Blank
import Ebnf.Text.Bytes

/-!
# Reading tokens

From every place the scanner takes the longest text that leads from the start to
a final state.  The context of a token is read with it and given back
afterwards.  A character with which no token begins is passed on by itself.
-/

namespace Ebnf

/-- What is found in the input; places are byte offsets. -/
inductive Item
  | token (sym : SymbolId) (text : String) (start stop : Nat)
  /-- a character with which no token begins -/
  | stray (c : Char) (start stop : Nat)
  deriving DecidableEq, Repr

/-- A token that was recognised: its text backwards, and the input behind it. -/
structure Recognised where
  sym : SymbolId
  read : List Char
  rest : List Char
  deriving DecidableEq, Repr

namespace Scanner

/-- The token recognised in a state after reading `read`, given backwards.  Where a context is
complete, its last `appendix` characters are given back. -/
def recognise? (st : ScannerState) (read : List Char) (appendix : Nat) (rest : List Char) :
    Option Recognised :=
  st.endOf.map fun sym =>
    let back := if st.endsContext then appendix else 0
    ⟨sym, read.drop back, (read.take back).reverse ++ rest⟩

/-- Number of context characters read last, after a further shift from the state `st`. -/
def nextAppendix (st : ScannerState) (shift : Shift) (appendix : Nat) : Nat :=
  if shift.part = .context then appendix + 1 else if st.context then 0 else appendix

/-- Reads on from the state `s`; `best` is the last token recognised on the way. -/
def longest (sc : Scanner) (s : StateId) (read : List Char) (appendix : Nat)
    (best : Option Recognised) : List Char → Option Recognised
  | [] => (recognise? (sc.state s) read appendix []).or best
  | c :: cs =>
    let found := (recognise? (sc.state s) read appendix (c :: cs)).or best
    match sc.findShift s c with
    | none => found
    | some shift =>
      sc.longest shift.target (c :: read) (nextAppendix (sc.state s) shift appendix) found cs

/-- The token that a text is: a literal, if texts of this token are looked up and there is one. -/
def classify (sc : Scanner) (sym : SymbolId) (text : String) : SymbolId :=
  if sc.classLiterals.contains sym then
    ((sc.literals.find? fun l => l.text == text).map Literal.sym).getD sym
  else sym

/-- The next item of an input of which `rest` is left from the byte `offset` on, and the place
behind the item. -/
def next? (sc : Scanner) (offset : Nat) (rest : List Char) : Option (Item × Nat × List Char) :=
  match sc.skip rest with
  | [] => none
  | c :: cs =>
    let start := offset + (byteLength rest - byteLength (c :: cs))
    match sc.longest Scanner.start [] 0 none (c :: cs) with
    | some found =>
      let text := String.ofList found.read.reverse
      let stop := start + byteLength found.read
      some (.token (sc.classify found.sym text) text start stop, stop, found.rest)
    | none =>
      let stop := start + c.utf8Size
      some (.stray c start stop, stop, cs)

/-- At most `limit` items, and whether the input ended before there were as many. -/
def itemsFrom (sc : Scanner) : Nat → Nat → List Char → List Item × Bool
  | 0, _, _ => ([], false)
  | limit + 1, offset, rest =>
    match sc.next? offset rest with
    | none => ([], true)
    | some (item, offset, rest) =>
      let (items, done) := sc.itemsFrom limit offset rest
      (item :: items, done)

/-- At most `limit` items of an input, and whether it ended before there were as many. -/
def items (sc : Scanner) (limit : Nat) (input : String) : List Item × Bool :=
  sc.itemsFrom limit 0 input.toList

end Scanner

end Ebnf
