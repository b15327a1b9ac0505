/-!
# Escape sequences

A backslash in a string or character literal starts an escape sequence: one of
eleven single letters and signs, or `u` or `x` with four characters that spell a
hexadecimal number.  `unescape` reads such text, `escape` writes it.

A malformed sequence yields no character and one fault, and reading goes on
behind it.  A sequence that the text ends in the middle of is malformed, and it
is the last one.
-/

namespace Ebnf.Escape

/-- What can be wrong with an escape sequence. -/
inductive Fault
  /-- The letter is unknown, or the text ends too early. -/
  | badSequence
  /-- The four characters spell no character. -/
  | badValue
  deriving DecidableEq, Repr

/-- The character that a backslash and one letter or sign stand for. -/
def letter? : Char → Option Char
  | '\\' => some '\\'
  | '\'' => some '\''
  | '"' => some '"'
  | 'r' => some '\r'
  | 'n' => some '\n'
  | 't' => some '\t'
  | '0' => some '\x00'
  | 'a' => some '\x07'
  | 'b' => some '\x08'
  | 'f' => some '\x0c'
  | 'v' => some '\x0b'
  | _ => none

/-- Value of a hexadecimal digit of either case. -/
def hexDigit? (c : Char) : Option Nat :=
  if '0' ≤ c ∧ c ≤ '9' then some (c.toNat - '0'.toNat)
  else if 'a' ≤ c ∧ c ≤ 'f' then some (c.toNat - 'a'.toNat + 10)
  else if 'A' ≤ c ∧ c ≤ 'F' then some (c.toNat - 'A'.toNat + 10)
  else none

/-- Value of a sequence of hexadecimal digits, continuing from `acc`. -/
def hexDigits? (acc : Nat) : List Char → Option Nat
  | [] => some acc
  | c :: cs => (hexDigit? c).bind fun d => hexDigits? (16 * acc + d) cs

/-- Value of a hexadecimal number: one or more digits, after at most one plus sign. -/
def hexNumber? : List Char → Option Nat
  | [] => none
  | '+' :: [] => none
  | '+' :: c :: cs => hexDigits? 0 (c :: cs)
  | c :: cs => hexDigits? 0 (c :: cs)

/-- The character with code point `n`; surrogates and numbers beyond the last plane have none. -/
def scalar? (n : Nat) : Option Char :=
  if n.isValidChar then some (Char.ofNat n) else none

/-- Puts the outcome of one sequence in front of what was read behind it. -/
def attach (piece : Except Fault Char) (rest : List Char × List Fault) : List Char × List Fault :=
  match piece with
  | .ok c => (c :: rest.1, rest.2)
  | .error f => (rest.1, f :: rest.2)

/-- Outcome of a sequence with a letter or sign. -/
def letterPiece (c : Char) : Except Fault Char :=
  match letter? c with
  | some d => .ok d
  | none => .error .badSequence

/-- Outcome of a sequence with four characters for the number. -/
def numberPiece (digits : List Char) : Except Fault Char :=
  match (hexNumber? digits).bind scalar? with
  | some c => .ok c
  | none => .error .badValue

/-- The characters that a text stands for, and a fault for each malformed sequence. -/
def unescapeChars : List Char → List Char × List Fault
  | [] => ([], [])
  | '\\' :: e :: rest =>
    if e = 'u' ∨ e = 'x' then
      match rest with
      | a :: b :: c :: d :: rest => attach (numberPiece [a, b, c, d]) (unescapeChars rest)
      | _ => ([], [.badSequence])
    else attach (letterPiece e) (unescapeChars rest)
  | c :: rest =>
    if c = '\\' then ([], [.badSequence]) else attach (.ok c) (unescapeChars rest)

/-- Reads a text with escape sequences. -/
def unescape (s : String) : String × List Fault :=
  let (cs, faults) := unescapeChars s.toList
  (String.ofList cs, faults)

/-- Reads the text between the first and the last character, which are its quotes. -/
def unescapeQuoted (s : String) : String × List Fault :=
  let (cs, faults) := unescapeChars (s.toList.drop 1).dropLast
  (String.ofList cs, faults)

/-- A number in hexadecimal with at least four digits. -/
def hexText (n : Nat) : List Char :=
  let digits := Nat.toDigits 16 n
  List.replicate (4 - digits.length) '0' ++ digits

/-- How a character is written: quotes, the backslash and some control characters by a letter or
sign, all else outside ASCII and the other control characters by their number. -/
def escapeChar (c : Char) : List Char :=
  if c = '\\' then ['\\', '\\']
  else if c = '\'' then ['\\', '\'']
  else if c = '"' then ['\\', '"']
  else if c = '\t' then ['\\', 't']
  else if c = '\r' then ['\\', 'r']
  else if c = '\n' then ['\\', 'n']
  else if c < ' ' ∨ '\x7f' < c then '\\' :: 'u' :: hexText c.toNat
  else [c]

/-- Writes a text with escape sequences. -/
def escape (s : String) : String :=
  String.ofList (s.toList.flatMap escapeChar)

end Ebnf.Escape
