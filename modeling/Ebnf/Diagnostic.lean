import Ebnf.Text.Escape

/-!
# Diagnostics

Every pass over a grammar appends what it finds to one list of diagnostics and
goes on, so a single run reports as many problems as possible.  A diagnostic is
a cause with a severity and a place; its wording is a function of the cause.
-/

namespace Ebnf

/-- A piece of grammar text: byte offsets of its begin and end, line and column of its begin. -/
structure Position where
  beg : Nat
  stop : Nat
  line : Nat
  col : Nat
  deriving DecidableEq, Repr, Inhabited

/-- Whether a problem makes the grammar unusable. -/
inductive Severity
  | error
  | warning
  deriving DecidableEq, Repr

/-- Where a problem was found. -/
inductive Place
  | unknown
  | line (n : Nat)
  | span (pos : Position)
  deriving DecidableEq, Repr

/-- What keeps one symbol of look-ahead from deciding. -/
inductive Conflict
  /-- The terminal starts more than one arm of an alternative. -/
  | alternatives (terminal : String)
  /-- The terminal starts an option or iteration and may also follow it. -/
  | successor (terminal : String)
  /-- No terminal is left for an ANY. -/
  | emptyAny
  /-- The body of an option or iteration may be empty. -/
  | deletableContents
  deriving DecidableEq, Repr

/-- What is wrong with the place of a resolver. -/
inductive Misplacement
  /-- An earlier arm takes the same terminals. -/
  | neverEvaluated
  /-- There is nothing to resolve. -/
  | noConflict
  /-- There is nothing to decide. -/
  | noAlternative
  deriving DecidableEq, Repr

/-- What a diagnostic complains about. -/
inductive Cause
  | escape (fault : Escape.Fault)
  | emptyToken
  | tokenMightBeEmpty
  | deletableLoop
  | deletableOption
  | literalDeclaredTwice
  | indistinguishable (first second : String)
  | delimiterSet
  | delimiterStructure
  | delimiterLength
  | deletable (name : String)
  | noProduction (name : String)
  | unreachable (name : String)
  | circular (left right : String)
  | notTerminating (name : String)
  | conflict (production : String) (what : Conflict)
  | resolver (what : Misplacement)
  | text (message : String)
  deriving DecidableEq, Repr

/-- Wording of a look-ahead conflict. -/
def Conflict.message : Conflict → String
  | .alternatives t => t ++ " is start of several alternatives"
  | .successor t => t ++ " is start & successor of deletable structure"
  | .emptyAny => "an ANY node that matches no symbol"
  | .deletableContents => "contents of [...] or \x7b...\x7d must not be deletable"

/-- Wording of a misplaced resolver. -/
def Misplacement.message : Misplacement → String
  | .neverEvaluated =>
    "Resolver will never be evaluated. Place it at previous conflicting alternative."
  | .noConflict => "Misplaced resolver: no LL(1) conflict."
  | .noAlternative => "Misplaced resolver: no alternative."

/-- Wording of a malformed escape sequence. -/
def Escape.Fault.message : Escape.Fault → String
  | .badSequence => "bad escape sequence in string or character"
  | .badValue => "bad character value"

/-- Wording of a cause. -/
def Cause.message : Cause → String
  | .escape fault => fault.message
  | .emptyToken => "empty token not allowed"
  | .tokenMightBeEmpty => "token might be empty"
  | .deletableLoop => "contents of \x7b...\x7d must not be deletable"
  | .deletableOption => "contents of [...] must not be deletable"
  | .literalDeclaredTwice => "token string declared twice"
  | .indistinguishable a b => "tokens " ++ a ++ " and " ++ b ++ " cannot be distinguished"
  | .delimiterSet => "character set contains more than 1 character"
  | .delimiterStructure => "comment delimiters may not be structured"
  | .delimiterLength => "comment delimiters must be 1 or 2 characters long"
  | .deletable name => name ++ " deletable"
  | .noProduction name => "No production for " ++ name
  | .unreachable name => name ++ " cannot be reached"
  | .circular left right => left ++ " --> " ++ right
  | .notTerminating name => name ++ " cannot be derived to terminals"
  | .conflict production what => "LL1 warning in " ++ production ++ ": " ++ what.message
  | .resolver what => what.message
  | .text message => message

/-- One problem that was found. -/
structure Diagnostic where
  severity : Severity
  cause : Cause
  place : Place
  deriving DecidableEq, Repr

namespace Diagnostic

/-- An error without a place. -/
def error (cause : Cause) : Diagnostic := ⟨.error, cause, .unknown⟩

/-- A warning without a place. -/
def warning (cause : Cause) : Diagnostic := ⟨.warning, cause, .unknown⟩

/-- An error on a line of the grammar; line 0 is unknown. -/
def errorOn (line : Nat) (cause : Cause) : Diagnostic := ⟨.error, cause, .line line⟩

/-- A warning on a line of the grammar; line 0 is unknown. -/
def warningOn (line : Nat) (cause : Cause) : Diagnostic := ⟨.warning, cause, .line line⟩

/-- An error at a piece of the grammar text. -/
def errorAt (pos : Position) (cause : Cause) : Diagnostic := ⟨.error, cause, .span pos⟩

/-- A warning at a piece of the grammar text. -/
def warningAt (pos : Position) (cause : Cause) : Diagnostic := ⟨.warning, cause, .span pos⟩

/-- The piece of text that a diagnostic points at. -/
def label? (d : Diagnostic) : Option Position :=
  match d.place with
  | .span pos => some pos
  | _ => none

/-- Says in words where the problem is. -/
def note? (d : Diagnostic) : Option String :=
  match d.place with
  | .unknown => none
  | .line 0 => none
  | .line n => some ("at line " ++ toString n)
  | .span pos => some ("at " ++ toString pos.line ++ ":" ++ toString pos.col)

/-- Word for the severity. -/
def severityText (d : Diagnostic) : String :=
  match d.severity with
  | .error => "error"
  | .warning => "warning"

/-- Severity and wording in one line. -/
def headline (d : Diagnostic) : String :=
  d.severityText ++ ": " ++ d.cause.message

end Diagnostic

/-- The diagnostics of a run, in the order in which they were found. -/
abbrev Diagnostics := List Diagnostic

namespace Diagnostics

/-- Number of errors. -/
def errors (ds : Diagnostics) : Nat :=
  ds.countP (·.severity == .error)

/-- Number of warnings. -/
def warnings (ds : Diagnostics) : Nat :=
  ds.countP (·.severity == .warning)

theorem errors_append {ds ds' : Diagnostics} : errors (ds ++ ds') = errors ds + errors ds' :=
  List.countP_append

/-- Whether there is an error. -/
def hasErrors (ds : Diagnostics) : Bool :=
  ds.errors != 0

end Diagnostics

end Ebnf
