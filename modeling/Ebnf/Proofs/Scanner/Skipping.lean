import Ebnf.Proofs.Machine.Declared
import Ebnf.Scanner.Blank

/-!
# What is skipped between tokens

Whether a comment is complete depends on where it stands: a delimiter may begin
inside the comment and end behind it.  So a comment is complete before a given rest
of the input, and what is skipped is a sequence of ignored characters and comments,
each complete before all that follows it.

Main results:

- Theorem `Comment.skip?_eq_some_iff`: what is skipped as a comment is exactly the
  comment that is complete there.
- Theorem `Scanner.skip_exact`: what is skipped consists of ignored characters and
  complete comments, and goes on until there is none of them.
-/

namespace Ebnf

theorem stripStart?_eq_some {start cs rest : List Char} :
    stripStart? start cs = some rest ↔ cs = start ++ rest := by
  induction start generalizing cs with
  | nil => simp [stripStart?]
  | cons s ss ih =>
    cases cs with
    | nil => simp [stripStart?]
    | cons c cs =>
      rw [stripStart?]
      split
      next heq => simp [ih, heq]
      next hne => simp [Ne.symm hne]

theorem startsWith_iff {start cs : List Char} :
    startsWith start cs = true ↔ ∃ rest, cs = start ++ rest := by
  simp only [startsWith, Option.isSome_iff_exists, stripStart?_eq_some]

namespace Comment

variable {k : Comment} {level : Nat} {cs rest : List Char}

/-! ## Inside a comment -/

/-- A delimiter that is not empty begins with a character, and what is passed behind it is the rest of
the delimiter. -/
theorem exists_cons_of_ne {delimiter : String} (h : delimiter ≠ "") :
    ∃ c tail, delimiter.toList = c :: tail ∧ delimiter.length - 1 = tail.length := by
  have hne : delimiter.toList ≠ [] := by simpa using h
  obtain ⟨c, tail, heq⟩ := List.exists_cons_of_ne_nil hne
  refine ⟨c, tail, heq, ?_⟩
  rw [← String.length_toList, heq, List.length_cons, Nat.add_sub_cancel]

theorem rest?_pass (skipped : List Char) :
    k.rest? skipped.length level (skipped ++ cs) = k.rest? 0 level cs := by
  induction skipped with
  | nil => rfl
  | cons c skipped ih => exact ih

/-- The last stop delimiter ends the comment. -/
theorem rest?_stop_zero (hk : k.Delimited) : k.rest? 0 0 (k.stop.toList ++ cs) = some cs := by
  have hstop : startsWith k.stop.toList (k.stop.toList ++ cs) = true := startsWith_iff.2 ⟨cs, rfl⟩
  obtain ⟨c, tail, heq, hlen⟩ := exists_cons_of_ne hk.2
  rw [heq, List.cons_append] at hstop ⊢
  rw [rest?, heq, if_pos hstop, hlen, List.drop_left]

/-- After any other one as many are missing as before, less one. -/
theorem rest?_stop_succ (hk : k.Delimited) :
    k.rest? 0 (level + 1) (k.stop.toList ++ cs) = k.rest? 0 level cs := by
  have hstop : startsWith k.stop.toList (k.stop.toList ++ cs) = true := startsWith_iff.2 ⟨cs, rfl⟩
  obtain ⟨c, tail, heq, hlen⟩ := exists_cons_of_ne hk.2
  rw [heq, List.cons_append] at hstop ⊢
  rw [rest?, heq, if_pos hstop, hlen, rest?_pass]

/-- Where no stop delimiter begins. -/
theorem rest?_of_not_stop {c : Char} (hstop : startsWith k.stop.toList (c :: cs) = false) :
    k.rest? 0 level (c :: cs) =
      if k.nested && startsWith k.start.toList (c :: cs) then
        k.rest? (k.start.length - 1) (level + 1) cs
      else k.rest? 0 level cs := by
  cases level <;> rw [rest?, if_neg (by simp [hstop])]

/-- After a start delimiter one more stop delimiter is missing, if comments nest. -/
theorem rest?_start (hk : k.Delimited) (hnested : k.nested = true)
    (hstop : startsWith k.stop.toList (k.start.toList ++ cs) = false) :
    k.rest? 0 level (k.start.toList ++ cs) = k.rest? 0 (level + 1) cs := by
  have hstart : startsWith k.start.toList (k.start.toList ++ cs) = true :=
    startsWith_iff.2 ⟨cs, rfl⟩
  obtain ⟨c, tail, heq, hlen⟩ := exists_cons_of_ne hk.1
  rw [heq, List.cons_append] at hstart hstop ⊢
  rw [rest?_of_not_stop hstop, heq, if_pos (by simp [hnested, hstart]), hlen, rest?_pass]

/-- From a place inside a comment, where `level` stop delimiters are missing, the text goes to the
first place where none is; there stands `rest`.  Where a stop delimiter begins, it counts; otherwise a
start delimiter does, if comments nest. -/
inductive Closes (k : Comment) (rest : List Char) : Nat → List Char → Prop
  | done : Closes k rest 0 []
  | stop {level : Nat} {cs : List Char} (h : Closes k rest level cs) :
      Closes k rest (level + 1) (k.stop.toList ++ cs)
  | start {level : Nat} {cs : List Char} (hnested : k.nested = true)
      (hstop : startsWith k.stop.toList (k.start.toList ++ (cs ++ rest)) = false)
      (h : Closes k rest (level + 2) cs) : Closes k rest (level + 1) (k.start.toList ++ cs)
  | char {level : Nat} {c : Char} {cs : List Char}
      (hstop : startsWith k.stop.toList (c :: (cs ++ rest)) = false)
      (hstart : (k.nested && startsWith k.start.toList (c :: (cs ++ rest))) = false)
      (h : Closes k rest (level + 1) cs) : Closes k rest (level + 1) (c :: cs)

/-- A comment that is complete before `rest`: a start delimiter, and what is inside up to the stop
delimiter behind which none is missing. -/
def CompletesBefore (k : Comment) (rest text : List Char) : Prop :=
  ∃ inside, text = k.start.toList ++ inside ∧ k.Closes rest 1 inside

theorem Closes.rest?_eq {inside : List Char} (hk : k.Delimited)
    (h : k.Closes rest (level + 1) inside) : k.rest? 0 level (inside ++ rest) = some rest := by
  generalize hn : level + 1 = n at h
  induction h generalizing level with
  | done => cases hn
  | @stop n cs h ih =>
    obtain rfl : level = n := Nat.succ.inj hn
    rw [List.append_assoc]
    cases level with
    | zero =>
      cases h
      exact rest?_stop_zero hk
    | succ level =>
      rw [rest?_stop_succ hk]
      exact ih rfl
  | @start n cs hnested hstop h ih =>
    obtain rfl : level = n := Nat.succ.inj hn
    rw [List.append_assoc, rest?_start hk hnested hstop]
    exact ih rfl
  | @char n c cs hstop hstart h ih =>
    rw [List.cons_append, rest?_of_not_stop hstop, if_neg (by simp [hstart])]
    exact ih hn

/-- What follows a comment, from a place inside of it. -/
theorem rest?_eq_some_iff (hk : k.Delimited) : k.rest? 0 level cs = some rest ↔
    ∃ inside, cs = inside ++ rest ∧ k.Closes rest (level + 1) inside := by
  constructor
  · intro h
    induction hlen : cs.length using Nat.strongRecOn generalizing level cs with
    | ind n ih =>
      subst hlen
      have hshort : ∀ {delimiter : String} {after : List Char}, delimiter ≠ "" →
          after.length < (delimiter.toList ++ after).length := by
        intro delimiter after hne
        rw [List.length_append]
        exact Nat.lt_add_of_pos_left (List.length_pos_iff.2 (by simpa using hne))
      cases hcs : cs with
      | nil =>
        rw [hcs] at h
        cases h
      | cons c tail =>
        rw [← hcs]
        cases hstop : startsWith k.stop.toList cs with
        | true =>
          obtain ⟨after, rfl⟩ := startsWith_iff.1 hstop
          cases level with
          | zero =>
            obtain rfl : after = rest := Option.some.inj ((rest?_stop_zero hk).symm.trans h)
            exact ⟨k.stop.toList ++ [], by simp, .stop .done⟩
          | succ level =>
            rw [rest?_stop_succ hk] at h
            obtain ⟨inside, rfl, hcloses⟩ := ih after.length (hshort hk.2) h rfl
            exact ⟨k.stop.toList ++ inside, by simp, .stop hcloses⟩
        | false =>
          cases hstart : k.nested && startsWith k.start.toList cs with
          | true =>
            obtain ⟨hnested, hbegins⟩ := Bool.and_eq_true_iff.1 hstart
            obtain ⟨after, rfl⟩ := startsWith_iff.1 hbegins
            rw [rest?_start hk hnested hstop] at h
            obtain ⟨inside, rfl, hcloses⟩ := ih after.length (hshort hk.1) h rfl
            exact ⟨k.start.toList ++ inside, by simp, .start hnested hstop hcloses⟩
          | false =>
            subst hcs
            rw [rest?_of_not_stop hstop, if_neg (by simp [hstart])] at h
            obtain ⟨inside, rfl, hcloses⟩ := ih tail.length (Nat.lt_succ_self _) h rfl
            exact ⟨c :: inside, rfl, .char hstop hstart hcloses⟩
  · rintro ⟨inside, rfl, hcloses⟩
    exact hcloses.rest?_eq hk

/-- What is skipped as a comment is what is complete there. -/
theorem skip?_eq_some_iff (hk : k.Delimited) : k.skip? cs = some rest ↔
    ∃ text, cs = text ++ rest ∧ k.CompletesBefore rest text := by
  rw [skip?, Option.bind_eq_some_iff]
  constructor
  · rintro ⟨behind, hstart, hrest⟩
    obtain ⟨inside, rfl, hcloses⟩ := (rest?_eq_some_iff hk).1 hrest
    refine ⟨k.start.toList ++ inside, ?_, inside, rfl, hcloses⟩
    rw [stripStart?_eq_some.1 hstart, List.append_assoc]
  · rintro ⟨text, rfl, inside, rfl, hcloses⟩
    refine ⟨inside ++ rest, stripStart?_eq_some.2 (List.append_assoc ..), ?_⟩
    exact (rest?_eq_some_iff hk).2 ⟨inside, rfl, hcloses⟩

/-- Where no comment is complete, nothing is skipped. -/
theorem skip?_eq_none_iff (hk : k.Delimited) : k.skip? cs = none ↔
    ∀ text rest, cs = text ++ rest → ¬ k.CompletesBefore rest text := by
  simp only [Option.eq_none_iff_forall_ne_some, Ne, skip?_eq_some_iff hk]
  constructor
  · exact fun h text rest heq htext => h rest ⟨text, heq, htext⟩
  · rintro h rest ⟨text, heq, htext⟩
    exact h text rest heq htext

end Comment

namespace Scanner

variable {sc : Scanner} {cs rest : List Char}

/-! ## Between tokens -/

/-- A sequence of blanks, ignored characters and comments, before `rest`; each comment is complete
before all that follows it. -/
inductive Skips (sc : Scanner) (rest : List Char) : List Char → Prop
  | nil : Skips sc rest []
  | ignored {c : Char} {cs : List Char} (hc : c = ' ' ∨ sc.ignored.contains c.toNat = true)
      (h : Skips sc rest cs) : Skips sc rest (c :: cs)
  | comment {k : Comment} {text cs : List Char} (hk : k ∈ sc.comments)
      (htext : k.CompletesBefore (cs ++ rest) text) (h : Skips sc rest cs) :
      Skips sc rest (text ++ cs)

/-- The input ends, or it goes on with a character that is neither blank nor ignored, where no comment
is complete. -/
def Stops (sc : Scanner) (cs : List Char) : Prop :=
  cs = [] ∨ (∃ c tail, cs = c :: tail ∧ c ≠ ' ' ∧ sc.ignored.contains c.toNat = false) ∧
    ∀ k ∈ sc.comments, ∀ text rest, cs = text ++ rest → ¬ k.CompletesBefore rest text

theorem isIgnored_iff {c : Char} :
    sc.isIgnored c = true ↔ c = ' ' ∨ sc.ignored.contains c.toNat = true := by
  simp [isIgnored]

theorem skipPiece?_eq_none_iff (h : ∀ k ∈ sc.comments, k.Delimited) :
    sc.skipPiece? cs = none ↔ sc.Stops cs := by
  cases cs with
  | nil => exact iff_of_true rfl (.inl rfl)
  | cons c tail =>
    have hcomment : sc.skipComment? (c :: tail) = none ↔ ∀ k ∈ sc.comments, ∀ text rest,
        c :: tail = text ++ rest → ¬ k.CompletesBefore rest text := by
      rw [skipComment?, List.findSome?_eq_none_iff]
      exact forall₂_congr fun k hk => Comment.skip?_eq_none_iff (h k hk)
    rw [skipPiece?]
    cases hc : sc.isIgnored c with
    | true =>
      refine iff_of_false (by simp) ?_
      rintro (hnil | ⟨⟨c', tail', heq, hblank, hignored⟩, _⟩)
      · cases hnil
      · cases heq
        simp [isIgnored, hblank, hignored] at hc
    | false =>
      have hhere : c ≠ ' ' ∧ sc.ignored.contains c.toNat = false := by
        simpa [isIgnored] using hc
      rw [if_neg Bool.false_ne_true, hcomment]
      constructor
      · exact fun hnone => .inr ⟨⟨c, tail, rfl, hhere⟩, hnone⟩
      · exact fun hstops => (hstops.resolve_left (List.cons_ne_nil c tail)).2

/-- One piece is a blank, an ignored character or a complete comment. -/
theorem Skips.piece (h : ∀ k ∈ sc.comments, k.Delimited) {text : List Char}
    (hpiece : sc.skipPiece? cs = some (text ++ rest)) (htext : sc.Skips rest text) :
    ∃ text, cs = text ++ rest ∧ sc.Skips rest text := by
  cases cs with
  | nil => cases hpiece
  | cons c tail =>
    rw [skipPiece?] at hpiece
    split at hpiece
    next hc =>
      obtain rfl := Option.some.inj hpiece
      exact ⟨c :: text, rfl, .ignored (isIgnored_iff.1 hc) htext⟩
    next =>
      obtain ⟨k, hk, hskip⟩ := List.exists_of_findSome?_eq_some hpiece
      obtain ⟨comment, heq, hcomment⟩ := (Comment.skip?_eq_some_iff (h k hk)).1 hskip
      refine ⟨comment ++ text, ?_, .comment hk hcomment htext⟩
      rw [heq, List.append_assoc]

theorem exists_skips (h : ∀ k ∈ sc.comments, k.Delimited) (cs : List Char) :
    ∃ text, cs = text ++ sc.skip cs ∧ sc.Skips (sc.skip cs) text := by
  unfold skip
  generalize cs.length = fuel
  induction fuel generalizing cs with
  | zero => exact ⟨[], rfl, .nil⟩
  | succ fuel ih =>
    rw [skipWithin]
    split
    next rest hpiece =>
      obtain ⟨text, heq, htext⟩ := ih rest
      refine htext.piece h ?_
      rw [hpiece, ← heq]
    next => exact ⟨[], rfl, .nil⟩

/-- Where nothing can be skipped, nothing is. -/
theorem skip_of_stops (h : ∀ k ∈ sc.comments, k.Delimited) (hstops : sc.Stops cs) :
    sc.skip cs = cs := by
  have hpiece := (skipPiece?_eq_none_iff h).2 hstops
  unfold skip
  cases cs with
  | nil => rfl
  | cons c tail => rw [List.length_cons, skipWithin, hpiece]

/-- Skipping passes blanks, ignored characters and complete comments, and stops at the end of the input
or where there is neither of them.  A comment that is not complete is not passed, and skipping once
more passes nothing. -/
theorem skip_exact (h : ∀ k ∈ sc.comments, k.Delimited) (cs : List Char) :
    (∃ text, cs = text ++ sc.skip cs ∧ sc.Skips (sc.skip cs) text) ∧
    sc.Stops (sc.skip cs) ∧
    (∀ k ∈ sc.comments, k.skip? cs = none ↔
      ∀ text rest, cs = text ++ rest → ¬ k.CompletesBefore rest text) ∧
    (sc.Stops cs → sc.skip cs = cs) ∧
    sc.skip (sc.skip cs) = sc.skip cs := by
  have hstops : sc.Stops (sc.skip cs) := (skipPiece?_eq_none_iff h).1 (sc.skipPiece?_skip cs)
  exact ⟨exists_skips h cs, hstops, fun k hk => Comment.skip?_eq_none_iff (h k hk),
    skip_of_stops h, skip_of_stops h hstops⟩

/-- Comments that nest, and comments up to the end of a line. -/
def commenting : Scanner :=
  { states := #[], comments := [⟨"/*", "*/", true⟩, ⟨"//", "\n", false⟩] }

/-- Nested comments are passed, and a comment that does not end is not. -/
theorem skip_exact_commenting :
    (∀ k ∈ commenting.comments, k.Delimited) ∧
      ∃ text, " /*a/*b*/*/// c\n/*d".toList = text ++ "/*d".toList ∧
        commenting.Skips "/*d".toList text ∧ commenting.Stops "/*d".toList := by
  have hdelimited : ∀ k ∈ commenting.comments, k.Delimited := by
    simp [commenting, Comment.Delimited]
  have hskip : commenting.skip " /*a/*b*/*/// c\n/*d".toList = "/*d".toList := by decide +kernel
  obtain ⟨hpassed, hstops, _⟩ := skip_exact hdelimited " /*a/*b*/*/// c\n/*d".toList
  rw [hskip] at hpassed hstops
  obtain ⟨text, heq, htext⟩ := hpassed
  exact ⟨hdelimited, text, heq, htext, hstops⟩

end Scanner

end Ebnf
