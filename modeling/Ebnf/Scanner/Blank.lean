import Ebnf.Scanner

/-!
# Skipping between tokens

Blanks, ignored characters and comments may stand between tokens.  A comment
begins with its start delimiter and ends where as many stop delimiters as start
delimiters were read; start delimiters inside count only if comments nest.  A
comment that does not end is none.

Main results:

- Theorem `Comment.length_skip?`: a skipped comment makes the input shorter.
- Theorem `Scanner.skipPiece?_skip`: behind the skipped input nothing more can be
  skipped.
-/

namespace Ebnf

/-- What follows the text `start` at the beginning of a list. -/
def stripStart? : List Char → List Char → Option (List Char)
  | [], cs => some cs
  | _ :: _, [] => none
  | s :: ss, c :: cs => if s = c then stripStart? ss cs else none

/-- Whether a list begins with the text `start`. -/
def startsWith (start cs : List Char) : Bool :=
  (stripStart? start cs).isSome

theorem length_stripStart? {start cs rest : List Char} (h : stripStart? start cs = some rest) :
    rest.length ≤ cs.length := by
  induction start generalizing cs with
  | nil =>
    cases h
    exact Nat.le_refl _
  | cons s ss ih =>
    cases cs with
    | nil => simp [stripStart?] at h
    | cons c cs =>
      simp only [stripStart?] at h
      split at h
      · exact Nat.le_succ_of_le (ih h)
      · cases h

namespace Comment

/-- What follows a comment, from a place inside it: `pass` characters on the way belong to a
delimiter read already, and `level + 1` stop delimiters are missing behind them.  Delimiters have at
least one character. -/
def rest? (k : Comment) : Nat → Nat → List Char → Option (List Char)
  | _, _, [] => none
  | pass + 1, level, _ :: cs => k.rest? pass level cs
  | 0, level, c :: cs =>
    if startsWith k.stop.toList (c :: cs) then
      match level with
      | 0 => some (cs.drop (k.stop.length - 1))
      | level + 1 => k.rest? (k.stop.length - 1) level cs
    else if k.nested && startsWith k.start.toList (c :: cs) then
      k.rest? (k.start.length - 1) (level + 1) cs
    else k.rest? 0 level cs

/-- What follows the comment with which a text begins. -/
def skip? (k : Comment) (cs : List Char) : Option (List Char) :=
  (stripStart? k.start.toList cs).bind (k.rest? 0 0)

theorem length_rest? {k : Comment} {pass level : Nat} {cs rest : List Char}
    (h : k.rest? pass level cs = some rest) : rest.length < cs.length := by
  fun_induction k.rest? pass level cs with
  | case1 => cases h
  | case2 pass level c cs ih => exact Nat.lt_succ_of_lt (ih h)
  | case3 c cs =>
    rw [← Option.some.inj h]
    exact Nat.lt_succ_of_le (by simp)
  | case4 c cs _ level ih => exact Nat.lt_succ_of_lt (ih h)
  | case5 level c cs _ _ ih => exact Nat.lt_succ_of_lt (ih h)
  | case6 level c cs _ _ ih => exact Nat.lt_succ_of_lt (ih h)

theorem length_skip? {k : Comment} {cs rest : List Char} (h : k.skip? cs = some rest) :
    rest.length < cs.length := by
  obtain ⟨inside, hstart, hrest⟩ := Option.bind_eq_some_iff.1 h
  exact Nat.lt_of_lt_of_le (length_rest? hrest) (length_stripStart? hstart)

end Comment

namespace Scanner

/-- Whether a character may stand between tokens. -/
def isIgnored (sc : Scanner) (c : Char) : Bool :=
  c == ' ' || sc.ignored.contains c.toNat

/-- What follows the first kind of comment that a text begins with. -/
def skipComment? (sc : Scanner) (cs : List Char) : Option (List Char) :=
  sc.comments.findSome? fun k => k.skip? cs

/-- What follows one piece of what may stand between tokens. -/
def skipPiece? (sc : Scanner) : List Char → Option (List Char)
  | [] => none
  | c :: cs => if sc.isIgnored c then some cs else sc.skipComment? (c :: cs)

/-- The input behind at most `fuel` pieces of what may stand between tokens. -/
def skipWithin (sc : Scanner) : Nat → List Char → List Char
  | 0, cs => cs
  | fuel + 1, cs =>
    match sc.skipPiece? cs with
    | some rest => sc.skipWithin fuel rest
    | none => cs

/-- The input from the next token on.  Every piece has at least one character. -/
def skip (sc : Scanner) (cs : List Char) : List Char :=
  sc.skipWithin cs.length cs

theorem length_skipPiece? {sc : Scanner} {cs rest : List Char} (h : sc.skipPiece? cs = some rest) :
    rest.length < cs.length := by
  cases cs with
  | nil => cases h
  | cons c cs =>
    rw [skipPiece?] at h
    split at h
    · rw [← Option.some.inj h]
      exact Nat.lt_succ_self _
    · obtain ⟨k, _, hk⟩ := List.exists_of_findSome?_eq_some h
      exact Comment.length_skip? hk

theorem skipPiece?_skipWithin {sc : Scanner} {fuel : Nat} {cs : List Char}
    (hfuel : cs.length ≤ fuel) : sc.skipPiece? (sc.skipWithin fuel cs) = none := by
  induction fuel generalizing cs with
  | zero =>
    obtain rfl := List.length_eq_zero_iff.1 (Nat.le_zero.1 hfuel)
    rfl
  | succ fuel ih =>
    rw [skipWithin]
    split
    · next rest h =>
      have := length_skipPiece? h
      exact ih (by omega)
    · assumption

/-- Behind the skipped input nothing more can be skipped. -/
theorem skipPiece?_skip (sc : Scanner) (cs : List Char) : sc.skipPiece? (sc.skip cs) = none :=
  skipPiece?_skipWithin (Nat.le_refl _)

end Scanner

end Ebnf
