import Mathlib.Data.List.Forall2
import Mathlib.Data.Nat.Digits.Defs
import Ebnf.Proofs.Text.Escape

/-!
# The pieces of a text with escape sequences

From the left a text falls into pieces: plain characters, a backslash with the character
behind it, and a backslash with `u` or `x` and the four characters behind that.  A text can
end within the last piece.  A piece is well-formed if it denotes a character, and only
then something of it is read; a malformed one is a fault, however long it is, and the
piece behind it is read as if nothing had happened.

Main results:

- Theorem `Escape.hexNumber?_eq_some_iff`: which texts are numbers, and of what value.
- Theorem `Escape.outcome_eq_ok_iff`: which pieces denote a character.
- Theorem `Escape.Splits.unique`: a text falls into pieces in one way only.
- Theorem `Escape.unescape_exact`: a text is read as the characters that its well-formed
  pieces denote, with one fault for each malformed piece.
-/

namespace Ebnf.Escape

variable {c d : Char} {cs ds : List Char} {v n acc : Nat}

/-! ## Pieces -/

/-- What a text with escape sequences consists of. -/
inductive Piece
  | plain (c : Char)
  /-- a backslash and the character behind it -/
  | letter (c : Char)
  /-- a backslash, `u` or `x`, and the four characters behind it -/
  | number (mark a b c d : Char)
  /-- a backslash, `u` or `x`, and fewer than four characters up to the end of the text -/
  | short (mark : Char) (rest : List Char)
  /-- a backslash at the end of the text -/
  | lone
  deriving DecidableEq, Repr

/-- A text falls into pieces. -/
inductive Splits : List Char → List Piece → Prop
  | nil : Splits [] []
  | plain {c : Char} {cs : List Char} {ps : List Piece} (hc : c ≠ '\\') (hrest : Splits cs ps) :
      Splits (c :: cs) (.plain c :: ps)
  | letter {c : Char} {cs : List Char} {ps : List Piece} (hc : ¬ (c = 'u' ∨ c = 'x'))
      (hrest : Splits cs ps) : Splits ('\\' :: c :: cs) (.letter c :: ps)
  | number {mark a b c d : Char} {cs : List Char} {ps : List Piece} (hmark : mark = 'u' ∨ mark = 'x')
      (hrest : Splits cs ps) :
      Splits ('\\' :: mark :: a :: b :: c :: d :: cs) (.number mark a b c d :: ps)
  | short {mark : Char} {cs : List Char} (hmark : mark = 'u' ∨ mark = 'x') (hlength : cs.length < 4) :
      Splits ('\\' :: mark :: cs) [.short mark cs]
  | lone : Splits ['\\'] [.lone]

/-- The letters and signs behind a backslash, and the characters that they stand for. -/
def letters : List (Char × Char) :=
  [('\\', '\\'), ('\'', '\''), ('"', '"'), ('r', '\r'), ('n', '\n'), ('t', '\t'), ('0', '\x00'),
    ('a', '\x07'), ('b', '\x08'), ('f', '\x0c'), ('v', '\x0b')]

/-- A hexadecimal digit of either case and its value. -/
def IsDigit (c : Char) (v : Nat) : Prop :=
  v < 16 ∧ (c = Nat.digitChar v ∨ c = (Nat.digitChar v).toUpper)

instance (c : Char) (v : Nat) : Decidable (IsDigit c v) :=
  inferInstanceAs (Decidable (_ ∧ _))

/-- Hexadecimal digits, possibly behind a plus sign, and their value as a number. -/
def IsNumber (cs : List Char) (n : Nat) : Prop :=
  ∃ ds vs, ds ≠ [] ∧ (cs = ds ∨ cs = '+' :: ds) ∧ List.Forall₂ IsDigit ds vs ∧
    n = Nat.ofDigits 16 vs.reverse

namespace Piece

/-- The character that a well-formed piece stands for. -/
inductive Denotes : Piece → Char → Prop
  | plain (c : Char) : Denotes (.plain c) c
  | letter {c d : Char} (h : (c, d) ∈ letters) : Denotes (.letter c) d
  | number {mark a b c d e : Char} (h : IsNumber [a, b, c, d] e.toNat) :
      Denotes (.number mark a b c d) e

/-- The fault that a malformed piece is. -/
def fault : Piece → Fault
  | number _ _ _ _ _ => .badValue
  | _ => .badSequence

/-- What is read of a piece. -/
def outcome : Piece → Except Fault Char
  | plain c => .ok c
  | letter c => letterPiece c
  | number _ a b c d => numberPiece [a, b, c, d]
  | short _ _ | lone => .error .badSequence

end Piece

/-- The characters and the faults that a row of pieces is read as. -/
inductive Yields : List Piece → List Char → List Fault → Prop
  | nil : Yields [] [] []
  | char {p : Piece} {c : Char} {ps : List Piece} {cs : List Char} {fs : List Fault}
      (h : p.Denotes c) (hrest : Yields ps cs fs) : Yields (p :: ps) (c :: cs) fs
  | fault {p : Piece} {ps : List Piece} {cs : List Char} {fs : List Fault}
      (h : ¬ ∃ c, p.Denotes c) (hrest : Yields ps cs fs) : Yields (p :: ps) cs (p.fault :: fs)

/-! ## Numbers -/

theorem hexDigit?_toUpper : ∀ v < 16, hexDigit? (Nat.digitChar v).toUpper = some v := by
  decide

/-- Digits are characters before `g`. -/
theorem toNat_lt_of_hexDigit? (h : hexDigit? c = some v) : c.toNat < 103 := by
  unfold hexDigit? at h
  split at h
  next hc => exact Nat.lt_of_le_of_lt (UInt32.le_iff_toNat_le.1 hc.2) (by decide)
  next =>
    split at h
    next hc => exact Nat.lt_of_le_of_lt (UInt32.le_iff_toNat_le.1 hc.2) (by decide)
    next =>
      split at h
      next hc => exact Nat.lt_of_le_of_lt (UInt32.le_iff_toNat_le.1 hc.2) (by decide)
      next => cases h

theorem isDigit_of_mem_hexDigit? :
    ∀ k < 103, ∀ v ∈ hexDigit? (Char.ofNat k), IsDigit (Char.ofNat k) v := by
  decide +kernel

theorem hexDigit?_eq_some_iff : hexDigit? c = some v ↔ IsDigit c v := by
  constructor
  · intro h
    have hdigit := isDigit_of_mem_hexDigit? c.toNat (toNat_lt_of_hexDigit? h)
    rw [Char.ofNat_toNat] at hdigit
    exact hdigit v h
  · rintro ⟨hv, rfl | rfl⟩
    · exact hexDigit?_digitChar v hv
    · exact hexDigit?_toUpper v hv

/-- What is read of digits, continuing from a number, is the value with the number as one more digit in
front. -/
theorem hexDigits?_eq_some_iff : hexDigits? acc cs = some n ↔
    ∃ vs, List.Forall₂ IsDigit cs vs ∧ n = Nat.ofDigits 16 (vs.reverse ++ [acc]) := by
  induction cs generalizing acc with
  | nil => simp [hexDigits?, List.forall₂_nil_left_iff, eq_comm]
  | cons c cs ih =>
    simp only [hexDigits?, Option.bind_eq_some_iff, hexDigit?_eq_some_iff, ih]
    constructor
    · rintro ⟨v, hv, vs, hvs, rfl⟩
      refine ⟨v :: vs, .cons hv hvs, ?_⟩
      simp only [List.reverse_cons, List.append_assoc, Nat.ofDigits_append, Nat.ofDigits_cons,
        Nat.ofDigits_nil, List.singleton_append]
      ring
    · rintro ⟨vs, hvs, rfl⟩
      cases hvs with
      | cons hv hvs =>
        refine ⟨_, hv, _, hvs, ?_⟩
        simp only [List.reverse_cons, List.append_assoc, Nat.ofDigits_append, Nat.ofDigits_cons,
          Nat.ofDigits_nil, List.singleton_append]
        ring

/-- One or more digits spell their value. -/
theorem hexDigits?_zero_iff : ds ≠ [] ∧ hexDigits? 0 ds = some n ↔
    ds ≠ [] ∧ ∃ vs, List.Forall₂ IsDigit ds vs ∧ n = Nat.ofDigits 16 vs.reverse := by
  simp [hexDigits?_eq_some_iff, Nat.ofDigits_append]

/-- At most one plus sign stands in front of the digits; it is no digit itself. -/
theorem hexNumber?_eq_some_iff_digits : hexNumber? cs = some n ↔
    ∃ ds, (cs = ds ∨ cs = '+' :: ds) ∧ ds ≠ [] ∧ hexDigits? 0 ds = some n := by
  have hplus : hexDigit? '+' = none := by decide
  cases cs with
  | nil => simp [hexNumber?]
  | cons c cs =>
    by_cases hc : c = '+'
    · subst hc
      cases cs with
      | nil => simp [hexNumber?, hexDigits?, hplus]
      | cons d cs => simp [hexNumber?, hexDigits?, hplus]
    · simp [hexNumber?, hc]

/-- A number is one or more digits, possibly behind a plus sign. -/
theorem hexNumber?_eq_some_iff : hexNumber? cs = some n ↔ IsNumber cs n := by
  simp only [hexNumber?_eq_some_iff_digits, IsNumber, hexDigits?_zero_iff]
  constructor
  · rintro ⟨ds, hds, hne, vs, hvs, rfl⟩
    exact ⟨ds, vs, hne, hds, hvs, rfl⟩
  · rintro ⟨ds, vs, hne, hds, hvs, rfl⟩
    exact ⟨ds, hds, hne, vs, hvs, rfl⟩

/-! ## Single pieces -/

theorem letterPiece_of_mem_letters : ∀ p ∈ letters, letterPiece p.1 = .ok p.2 := by
  decide

theorem letterPiece_eq_ok_iff : letterPiece c = .ok d ↔ (c, d) ∈ letters := by
  constructor
  · intro h
    have hletter : letter? c = some d := by
      unfold letterPiece at h
      split at h
      next heq => rwa [Except.ok.inj h] at heq
      next => cases h
    unfold letter? at hletter
    split at hletter <;> cases hletter
    all_goals decide
  · exact letterPiece_of_mem_letters (c, d)

/-- Only the code point of a character is one. -/
theorem scalar?_eq_some_iff : scalar? n = some c ↔ n = c.toNat := by
  constructor
  · intro h
    unfold scalar? at h
    split at h
    next hvalid =>
      rw [← Option.some.inj h, Char.ofNat, dif_pos hvalid]
      rfl
    next => cases h
  · rintro rfl
    exact scalar?_toNat c

theorem numberPiece_eq_ok_iff : numberPiece cs = .ok c ↔ IsNumber cs c.toNat := by
  have hvalue : (hexNumber? cs).bind scalar? = some c ↔ IsNumber cs c.toNat := by
    simp [Option.bind_eq_some_iff, scalar?_eq_some_iff, hexNumber?_eq_some_iff]
  rw [← hvalue]
  unfold numberPiece
  cases (hexNumber? cs).bind scalar? <;> simp

namespace Piece

variable {p : Piece}

/-- Of a piece the character is read that it denotes. -/
theorem outcome_eq_ok_iff : p.outcome = .ok c ↔ p.Denotes c := by
  cases p with
  | plain b =>
    constructor
    · intro h
      rw [← Except.ok.inj h]
      exact .plain b
    · rintro ⟨⟩
      rfl
  | letter b =>
    rw [outcome, letterPiece_eq_ok_iff]
    exact ⟨.letter, fun | .letter h => h⟩
  | number m a b d e =>
    rw [outcome, numberPiece_eq_ok_iff]
    exact ⟨.number, fun | .number h => h⟩
  | short m cs | lone => exact ⟨nofun, nofun⟩

/-- A piece that denotes nothing is a fault. -/
theorem outcome_eq_error (h : ¬ ∃ c, p.Denotes c) : p.outcome = .error p.fault := by
  cases hread : p.outcome with
  | ok c => exact absurd ⟨c, outcome_eq_ok_iff.1 hread⟩ h
  | error f =>
    cases p with
    | plain b => cases hread
    | letter b =>
      rw [outcome, letterPiece] at hread
      split at hread <;> cases hread
      rfl
    | number m a b d e =>
      rw [outcome, numberPiece] at hread
      split at hread <;> cases hread
      rfl
    | short m cs | lone => rw [← hread]; rfl

theorem Denotes.unique (hc : p.Denotes c) (hd : p.Denotes d) : d = c := by
  have heq := outcome_eq_ok_iff.2 hd
  rw [outcome_eq_ok_iff.2 hc] at heq
  exact (Except.ok.inj heq).symm

end Piece

/-! ## Rows of pieces -/

/-- A piece in front of others is read before them. -/
theorem Yields.attach {p : Piece} {ps : List Piece} {r : List Char × List Fault}
    (h : Yields ps r.1 r.2) : Yields (p :: ps) (attach p.outcome r).1 (attach p.outcome r).2 := by
  by_cases hp : ∃ c, p.Denotes c
  · obtain ⟨c, hc⟩ := hp
    rw [Piece.outcome_eq_ok_iff.2 hc]
    exact .char hc h
  · rw [Piece.outcome_eq_error hp]
    exact .fault hp h

/-- Each text falls into pieces, and is read as they are. -/
theorem exists_splits (cs : List Char) :
    ∃ ps, Splits cs ps ∧ Yields ps (unescapeChars cs).1 (unescapeChars cs).2 := by
  fun_induction unescapeChars cs with
  | case1 => exact ⟨[], .nil, .nil⟩
  | case2 mark hmark a b c d rest ih =>
    obtain ⟨ps, hps, hread⟩ := ih
    exact ⟨.number mark a b c d :: ps, .number hmark hps, hread.attach⟩
  | case3 mark rest hmark hshort =>
    have hlength : rest.length < 4 := by
      match rest, hshort with
      | a :: b :: c :: d :: rest, hshort => exact absurd rfl (hshort a b c d rest)
      | [], _ | [_], _ | [_, _], _ | [_, _, _], _ => simp
    exact ⟨[.short mark rest], .short hmark hlength, .fault (by rintro ⟨_, ⟨⟩⟩) .nil⟩
  | case4 e rest he ih =>
    obtain ⟨ps, hps, hread⟩ := ih
    exact ⟨.letter e :: ps, .letter he hps, hread.attach⟩
  | case5 rest hrest =>
    cases rest with
    | nil => exact ⟨[.lone], .lone, .fault (by rintro ⟨_, ⟨⟩⟩) .nil⟩
    | cons e rest => exact (hrest e rest rfl rfl).elim
  | case6 c rest hrest hc ih =>
    obtain ⟨ps, hps, hread⟩ := ih
    exact ⟨.plain c :: ps, .plain hc hps, hread.attach⟩

/-- A text falls into pieces in one way only. -/
theorem Splits.unique {cs : List Char} {ps qs : List Piece} (h : Splits cs ps) (h' : Splits cs qs) :
    ps = qs := by
  induction h generalizing qs with
  | nil =>
    cases h'
    rfl
  | plain hc _ ih =>
    cases h' with
    | plain _ hrest => rw [ih hrest]
    | letter | number | short | lone => exact absurd rfl hc
  | letter hc _ ih =>
    cases h' with
    | plain hslash => exact absurd rfl hslash
    | letter _ hrest => rw [ih hrest]
    | number hmark | short hmark => exact absurd hmark hc
  | number hmark _ ih =>
    cases h' with
    | plain hslash => exact absurd rfl hslash
    | letter hc => exact absurd hmark hc
    | number _ hrest => rw [ih hrest]
    | short _ hlength =>
      simp only [List.length_cons] at hlength
      omega
  | short hmark hlength =>
    cases h' with
    | plain hslash => exact absurd rfl hslash
    | letter hc => exact absurd hmark hc
    | number =>
      simp only [List.length_cons] at hlength
      omega
    | short => rfl
  | lone =>
    cases h' with
    | plain hslash => exact absurd rfl hslash
    | lone => rfl

/-- A row of pieces is read in one way only. -/
theorem Yields.unique {ps : List Piece} {cs cs' : List Char} {fs fs' : List Fault}
    (h : Yields ps cs fs) (h' : Yields ps cs' fs') : cs' = cs ∧ fs' = fs := by
  induction h generalizing cs' fs' with
  | nil =>
    cases h'
    exact ⟨rfl, rfl⟩
  | char hc _ ih =>
    cases h' with
    | char hc' hrest => simp [hc.unique hc', ih hrest]
    | fault hnone => exact absurd ⟨_, hc⟩ hnone
  | fault hnone _ ih =>
    cases h' with
    | char hc => exact absurd ⟨_, hc⟩ hnone
    | fault _ hrest => simp [ih hrest]

/-- There is no fault if and only if all pieces are well-formed. -/
theorem Yields.faults_eq_nil_iff {ps : List Piece} {cs : List Char} {fs : List Fault}
    (h : Yields ps cs fs) : fs = [] ↔ ∀ p ∈ ps, ∃ c, p.Denotes c := by
  induction h with
  | nil => simp
  | char hc _ ih =>
    rw [ih, List.forall_mem_cons]
    exact (and_iff_right ⟨_, hc⟩).symm
  | fault hnone => simp [hnone]

/-- A text falls into pieces in one way, and from the left to the right each piece is read as the one
character that it denotes, or as one fault if it denotes none.  There is no fault if and only if all
pieces are well-formed. -/
theorem unescape_exact (s : String) : ∃ ps, (∀ qs, Splits s.toList qs ↔ qs = ps) ∧
    (∀ cs fs, Yields ps cs fs ↔ cs = (unescape s).1.toList ∧ fs = (unescape s).2) ∧
    ((unescape s).2 = [] ↔ ∀ p ∈ ps, ∃ c, p.Denotes c) := by
  obtain ⟨ps, hps, hread⟩ := exists_splits s.toList
  have hchars : (unescapeChars s.toList).1 = (unescape s).1.toList := String.toList_ofList.symm
  rw [hchars] at hread
  refine ⟨ps, fun qs => ⟨fun h => h.unique hps, fun h => h ▸ hps⟩, fun cs fs => ⟨hread.unique, ?_⟩,
    hread.faults_eq_nil_iff⟩
  rintro ⟨rfl, rfl⟩
  exact hread

/-- Malformed pieces take two characters, six, or all that remain, backslashes included. -/
example : unescape "\\\\u+041\\u+041\\q\\u\\n41\\x12" =
    ("\\u+041A", [.badSequence, .badValue, .badSequence]) := by
  decide +kernel

end Ebnf.Escape
