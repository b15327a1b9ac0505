import Mathlib.Data.Nat.Digits.Defs
import Ebnf.Text.Escape

/-!
# Reading back what was written with escape sequences

A character is written with as many hexadecimal digits as its number has, but at least
four, while a number is read from exactly four of them.  So what was written is read
back as long as four digits are enough.  A character beyond them is read as the one
that its first four digits spell, if there is one, and its other digits are read as
characters of their own.

Main results:

- Theorem `Escape.hexDigits?_hexText`: the written digits have the value of the number.
- Theorems `Escape.unescapeChars_escapeChar` and `Escape.unescapeChars_escapeChar_of_long`:
  what a written character is read as, with any text behind it.
- Theorem `Escape.unescape_escape_iff`: a text is read back exactly if it has no
  character beyond U+FFFF.
-/

namespace Ebnf.Escape

variable {c : Char} {cs ds rest : List Char} {n acc : Nat}

/-! ## Hexadecimal numbers -/

theorem hexDigit?_digitChar : ∀ d < 16, hexDigit? (Nat.digitChar d) = some d := by
  decide

theorem hexDigits?_append (acc : Nat) (cs ds : List Char) :
    hexDigits? acc (cs ++ ds) = (hexDigits? acc cs).bind fun n => hexDigits? n ds := by
  induction cs generalizing acc with
  | nil => rfl
  | cons c cs ih =>
    simp only [List.cons_append, hexDigits?, ih, Option.bind_assoc]

/-- Digits spell the number that they were made from. -/
theorem hexDigits?_toDigits (n : Nat) : hexDigits? 0 (Nat.toDigits 16 n) = some n := by
  induction n using Nat.strongRecOn with
  | ind n ih =>
    rw [Nat.toDigits_eq_if (by decide)]
    split
    next hlt => simp [hexDigits?, hexDigit?_digitChar n hlt]
    next hge =>
      have hlast : hexDigit? (Nat.digitChar (n % 16)) = some (n % 16) :=
        hexDigit?_digitChar _ (Nat.mod_lt n (by decide))
      rw [hexDigits?_append, ih (n / 16) (by omega)]
      simp only [Option.bind_some, hexDigits?, hlast]
      rw [Nat.div_add_mod]

theorem hexDigits?_replicate_zero (k : Nat) (ds : List Char) :
    hexDigits? 0 (List.replicate k '0' ++ ds) = hexDigits? 0 ds := by
  have hzero : hexDigit? '0' = some 0 := by decide
  induction k with
  | zero => rfl
  | succ k ih =>
    rw [List.replicate_succ, List.cons_append, hexDigits?, hzero]
    exact ih

/-- The written digits have the value of the number. -/
theorem hexDigits?_hexText (n : Nat) : hexDigits? 0 (hexText n) = some n := by
  rw [hexText, hexDigits?_replicate_zero, hexDigits?_toDigits]

theorem length_hexText_of_lt (h : n < 0x10000) : (hexText n).length = 4 := by
  have hle : (Nat.toDigits 16 n).length ≤ 4 :=
    (Nat.length_toDigits_le_iff (by decide) (by decide)).2 h
  simp only [hexText, List.length_append, List.length_replicate]
  omega

theorem lt_length_hexText (h : 0x10000 ≤ n) : 4 < (hexText n).length := by
  have hlt : ¬ (Nat.toDigits 16 n).length ≤ 4 := by
    rw [Nat.length_toDigits_le_iff (by decide) (by decide)]
    exact Nat.not_lt.2 h
  simp only [hexText, List.length_append, List.length_replicate]
  omega

/-- Everything that was written for a number is a digit. -/
theorem isSome_hexDigit?_of_mem (hspell : hexDigits? acc ds = some n) :
    ∀ d ∈ ds, (hexDigit? d).isSome = true := by
  induction ds generalizing acc with
  | nil => exact nofun
  | cons d ds ih =>
    obtain ⟨v, hv, hrest⟩ := Option.bind_eq_some_iff.1 hspell
    refine List.forall_mem_cons.2 ⟨?_, ih hrest⟩
    rw [hv, Option.isSome_some]

/-- Digits are a number; none of them is a plus sign. -/
theorem hexNumber?_of_hexDigits? (hne : ds ≠ []) (hspell : hexDigits? 0 ds = some n) :
    hexNumber? ds = some n := by
  have hplus : hexDigit? '+' = none := by decide
  unfold hexNumber?
  split
  · exact absurd rfl hne
  · simp [hexDigits?, hplus] at hspell
  · simp [hexDigits?, hplus] at hspell
  · exact hspell

theorem scalar?_toNat (c : Char) : scalar? c.toNat = some c := by
  have hvalid : c.toNat.isValidChar := c.valid
  rw [scalar?, if_pos hvalid, Char.ofNat_toNat]

/-! ## One character -/

@[simp]
theorem unescapeChars_cons_of_ne (h : c ≠ '\\') :
    unescapeChars (c :: rest) = attach (.ok c) (unescapeChars rest) := by
  rw [unescapeChars.eq_def]
  split
  next heq => cases heq
  next heq => exact absurd (List.cons.inj heq).1 h
  next heq =>
    obtain ⟨rfl, rfl⟩ := List.cons.inj heq
    rw [if_neg h]

theorem unescapeChars_letter {e : Char} (hu : e ≠ 'u') (hx : e ≠ 'x') :
    unescapeChars ('\\' :: e :: rest) = attach (letterPiece e) (unescapeChars rest) := by
  rw [unescapeChars.eq_def]
  exact if_neg (not_or.2 ⟨hu, hx⟩)

/-- The four characters behind `u` are read as a number. -/
theorem unescapeChars_number (h : ds.length = 4) :
    unescapeChars ('\\' :: 'u' :: (ds ++ rest)) = attach (numberPiece ds) (unescapeChars rest) := by
  obtain ⟨a, b, c, d, rfl⟩ : ∃ a b c d, ds = [a, b, c, d] := by
    match ds, h with
    | [a, b, c, d], _ => exact ⟨a, b, c, d, rfl⟩
  rw [unescapeChars.eq_def]
  exact if_pos (.inl rfl)

/-- Text without backslashes is read as it stands. -/
theorem unescapeChars_append_of_forall_ne (h : ∀ d ∈ ds, d ≠ '\\') :
    unescapeChars (ds ++ rest) = (ds ++ (unescapeChars rest).1, (unescapeChars rest).2) := by
  induction ds with
  | nil => rfl
  | cons d ds ih =>
    obtain ⟨hd, hds⟩ := List.forall_mem_cons.1 h
    rw [List.cons_append, unescapeChars_cons_of_ne hd, ih hds]
    rfl

/-- How a character is written: by a letter or sign, by its number, or as it stands; only ASCII
characters are not written by their number. -/
theorem escapeChar_cases (c : Char) :
    (∃ e, e ≠ 'u' ∧ e ≠ 'x' ∧ letterPiece e = .ok c ∧ escapeChar c = ['\\', e] ∧ c.toNat < 0x80) ∨
      escapeChar c = '\\' :: 'u' :: hexText c.toNat ∨
      (c ≠ '\\' ∧ escapeChar c = [c] ∧ c.toNat < 0x80) := by
  by_cases hsign : c = '\\' ∨ c = '\'' ∨ c = '"' ∨ c = '\t' ∨ c = '\r' ∨ c = '\n'
  · refine .inl ?_
    rcases hsign with rfl | rfl | rfl | rfl | rfl | rfl
    · exact ⟨'\\', by decide⟩
    · exact ⟨'\'', by decide⟩
    · exact ⟨'"', by decide⟩
    · exact ⟨'t', by decide⟩
    · exact ⟨'r', by decide⟩
    · exact ⟨'n', by decide⟩
  · simp only [not_or] at hsign
    obtain ⟨hslash, hquote, hquotes, htab, hreturn, hnewline⟩ := hsign
    refine .inr ?_
    unfold escapeChar
    rw [if_neg hslash, if_neg hquote, if_neg hquotes, if_neg htab, if_neg hreturn, if_neg hnewline]
    split
    · exact .inl rfl
    next hplain =>
      have hle : c.toNat ≤ 0x7f := UInt32.le_iff_toNat_le.1 (Char.not_lt.1 (not_or.1 hplain).2)
      exact .inr ⟨hslash, rfl, Nat.lt_succ_of_le hle⟩

/-- A character for which four digits are enough is read back. -/
theorem unescapeChars_escapeChar (h : c.toNat < 0x10000) (rest : List Char) :
    unescapeChars (escapeChar c ++ rest) = attach (.ok c) (unescapeChars rest) := by
  rcases escapeChar_cases c with ⟨e, hu, hx, hpiece, heq, _⟩ | heq | ⟨hslash, heq, _⟩
  · rw [heq, ← hpiece]
    exact unescapeChars_letter hu hx
  · have hlength := length_hexText_of_lt h
    have hnumber : hexNumber? (hexText c.toNat) = some c.toNat :=
      hexNumber?_of_hexDigits? (List.ne_nil_of_length_pos (by omega)) (hexDigits?_hexText c.toNat)
    have hpiece : numberPiece (hexText c.toNat) = .ok c := by
      rw [numberPiece, hnumber, Option.bind_some, scalar?_toNat]
    rw [heq, List.cons_append, List.cons_append, unescapeChars_number hlength, hpiece]
  · rw [heq]
    exact unescapeChars_cons_of_ne hslash

theorem escapeChar_of_long (h : 0x10000 ≤ c.toNat) :
    escapeChar c = '\\' :: 'u' :: hexText c.toNat := by
  rcases escapeChar_cases c with ⟨_, _, _, _, _, hascii⟩ | heq | ⟨_, _, hascii⟩
  · omega
  · exact heq
  · omega

/-- A character with more than four digits is read as what its first four digits spell, and the
other digits are read as they stand. -/
theorem unescapeChars_escapeChar_of_long (h : 0x10000 ≤ c.toNat) (rest : List Char) :
    unescapeChars (escapeChar c ++ rest) = attach (numberPiece ((hexText c.toNat).take 4))
      ((hexText c.toNat).drop 4 ++ (unescapeChars rest).1, (unescapeChars rest).2) := by
  have hlength := lt_length_hexText h
  have htake : ((hexText c.toNat).take 4).length = 4 := by
    rw [List.length_take]
    omega
  have hplain : ∀ d ∈ (hexText c.toNat).drop 4, d ≠ '\\' := by
    rintro d hd rfl
    have hdigit := isSome_hexDigit?_of_mem (hexDigits?_hexText c.toNat) _ (List.mem_of_mem_drop hd)
    exact absurd hdigit (by decide)
  rw [escapeChar_of_long h, List.cons_append, List.cons_append,
    ← List.take_append_drop 4 (hexText c.toNat), List.append_assoc, unescapeChars_number htake,
    unescapeChars_append_of_forall_ne hplain, List.take_append_drop]

/-! ## Texts -/

theorem unescapeChars_flatMap (h : ∀ c ∈ cs, c.toNat < 0x10000) :
    unescapeChars (cs.flatMap escapeChar) = (cs, []) := by
  induction cs with
  | nil => rfl
  | cons c cs ih =>
    obtain ⟨hc, hcs⟩ := List.forall_mem_cons.1 h
    rw [List.flatMap_cons, unescapeChars_escapeChar hc, ih hcs]
    rfl

/-- Number of characters and faults that a text is read as. -/
def pieces (cs : List Char) : Nat :=
  (unescapeChars cs).1.length + (unescapeChars cs).2.length

theorem length_attach (piece : Except Fault Char) (r : List Char × List Fault) :
    (attach piece r).1.length + (attach piece r).2.length = r.1.length + r.2.length + 1 := by
  cases piece with
  | ok c => simp only [attach, List.length_cons]; omega
  | error f => simp only [attach, List.length_cons]; omega

theorem pieces_escapeChar (h : c.toNat < 0x10000) (rest : List Char) :
    pieces (escapeChar c ++ rest) = pieces rest + 1 := by
  rw [pieces, unescapeChars_escapeChar h, length_attach, pieces]

/-- The digits behind the fourth one are too much. -/
theorem lt_pieces_escapeChar (h : 0x10000 ≤ c.toNat) (rest : List Char) :
    pieces rest + 1 < pieces (escapeChar c ++ rest) := by
  have hlength := lt_length_hexText h
  rw [pieces, pieces, unescapeChars_escapeChar_of_long h, length_attach]
  simp only [List.length_append, List.length_drop]
  omega

theorem length_le_pieces (cs : List Char) : cs.length ≤ pieces (cs.flatMap escapeChar) := by
  induction cs with
  | nil => exact Nat.zero_le _
  | cons c cs ih =>
    rw [List.flatMap_cons, List.length_cons]
    rcases Nat.lt_or_ge c.toNat 0x10000 with hc | hc
    · rw [pieces_escapeChar hc]
      exact Nat.succ_le_succ ih
    · have := lt_pieces_escapeChar hc (cs.flatMap escapeChar)
      omega

/-- With a character beyond four digits there are more pieces than characters. -/
theorem length_lt_pieces (hc : c ∈ cs) (hlong : 0x10000 ≤ c.toNat) :
    cs.length < pieces (cs.flatMap escapeChar) := by
  induction cs with
  | nil => exact absurd hc List.not_mem_nil
  | cons d cs ih =>
    rw [List.flatMap_cons, List.length_cons]
    rcases Nat.lt_or_ge d.toNat 0x10000 with hd | hd
    · have hmem : c ∈ cs := (List.mem_cons.1 hc).resolve_left fun heq => by
        rw [heq] at hlong
        omega
      rw [pieces_escapeChar hd]
      exact Nat.succ_lt_succ (ih hmem)
    · have hle := length_le_pieces cs
      have hlt := lt_pieces_escapeChar hd (cs.flatMap escapeChar)
      omega

/-- What was written is read back without a fault exactly if no character lies beyond U+FFFF. -/
theorem unescape_escape_iff (s : String) :
    unescape (escape s) = (s, []) ↔ ∀ c ∈ s.toList, c.toNat ≤ 0xFFFF := by
  have hread : unescape (escape s) = (String.ofList (unescapeChars (s.toList.flatMap escapeChar)).1,
      (unescapeChars (s.toList.flatMap escapeChar)).2) := by
    rw [unescape, escape, String.toList_ofList]
  rw [hread]
  constructor
  · intro heq c hc
    by_contra hlong
    obtain ⟨hchars, hfaults⟩ := Prod.mk.inj heq
    have hlt := length_lt_pieces hc (Nat.not_le.1 hlong)
    have hlist := congrArg String.toList hchars
    rw [String.toList_ofList] at hlist
    rw [pieces, hlist, hfaults] at hlt
    exact Nat.lt_irrefl _ hlt
  · intro hshort
    rw [unescapeChars_flatMap fun c hc => Nat.lt_succ_of_le (hshort c hc), String.ofList_toList]

/-- Beyond U+FFFF, digits are left over, and the first four can be those of a surrogate. -/
theorem not_unescape_escape :
    escape "😀" = "\\u1f600" ∧ unescape (escape "😀") = ("ὠ0", []) ∧
      unescape (escape "😀") ≠ ("😀", []) ∧
      unescape (escape (String.singleton (Char.ofNat 0xD8000))) = ("0", [.badValue]) := by
  decide +kernel

end Ebnf.Escape
