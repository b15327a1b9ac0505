import Ebnf.Proofs.Scanner.Plain
import Ebnf.Proofs.Scanner.Skipping
import Ebnf.Scanner.Tokens

/-!
# What a scanner does with its input

A plain scanner cuts its input into gaps and items: a gap consists of ignored
characters and complete comments, an item is a token or a stray character.  Nothing
is lost, nothing is read twice, and as every item has at least one character, the
input comes to an end.

Main results:

- Theorem `Comment.CompletesBefore.complete`: what is skipped as a comment is a complete
  comment, whatever stands behind it.
- Theorem `Scanner.longest_spec`: a token is a beginning of the input that is not empty.
- Theorem `Scanner.Plain.exists_items`: a plain scanner cuts every input into gaps and
  items.
- Theorem `Draft.Declared.exists_scans`: so does the scanner of declared tokens without
  contexts, unless a token ends in the start state; none does if tokens are declared at
  nodes of complete structures.
-/

namespace Ebnf

/-! ## Comments -/

namespace Comment

variable {k : Comment}

/-- What is left of a comment inside of it, up to the end of the comment: `level + 1` stop delimiters
are missing. -/
inductive Inside (k : Comment) : Nat → List Char → Prop
  | stop : Inside k 0 k.stop.toList
  | close {level : Nat} {cs : List Char} (h : Inside k level cs) :
      Inside k (level + 1) (k.stop.toList ++ cs)
  | nest {level : Nat} {cs : List Char} (hnested : k.nested = true)
      (hstop : ¬ startsWith k.stop.toList (k.start.toList ++ cs) = true)
      (h : Inside k (level + 1) cs) : Inside k level (k.start.toList ++ cs)
  | char {level : Nat} {c : Char} {cs : List Char}
      (hstop : ¬ startsWith k.stop.toList (c :: cs) = true)
      (hstart : ¬ (k.nested && startsWith k.start.toList (c :: cs)) = true)
      (h : Inside k level cs) : Inside k level (c :: cs)

/-- A complete comment: a start delimiter, and what is inside up to the last stop delimiter. -/
def Complete (k : Comment) (cs : List Char) : Prop :=
  ∃ inside, k.Inside 0 inside ∧ cs = k.start.toList ++ inside

/-- A text does not begin with what a longer one does not begin with. -/
theorem not_startsWith_of_append {start cs : List Char} (rest : List Char)
    (h : ¬ startsWith start (cs ++ rest) = true) : ¬ startsWith start cs = true := by
  intro hcs
  obtain ⟨after, rfl⟩ := startsWith_iff.1 hcs
  exact h (startsWith_iff.2 ⟨after ++ rest, by simp⟩)

/-- What closes a comment where it stands, closes it by itself. -/
theorem Closes.inside {rest cs : List Char} {level : Nat} (h : k.Closes rest (level + 1) cs) :
    k.Inside level cs := by
  generalize hn : level + 1 = n at h
  induction h generalizing level with
  | done => cases hn
  | @stop n cs h ih =>
    obtain rfl : level = n := Nat.succ.inj hn
    cases level with
    | zero =>
      cases h
      rw [List.append_nil]
      exact .stop
    | succ level => exact .close (ih rfl)
  | @start n cs hnested hstop h ih =>
    obtain rfl : level = n := Nat.succ.inj hn
    refine .nest hnested (not_startsWith_of_append rest ?_) (ih rfl)
    simpa using hstop
  | @char n c cs hstop hstart h ih =>
    refine .char (not_startsWith_of_append rest (by simpa using hstop)) ?_ (ih hn)
    rw [Bool.and_eq_true, not_and]
    refine fun hnested => not_startsWith_of_append rest ?_
    simpa [hnested] using hstart

/-- A comment that is complete where it stands is complete by itself. -/
theorem CompletesBefore.complete {rest text : List Char} (h : k.CompletesBefore rest text) :
    k.Complete text := by
  obtain ⟨inside, rfl, hcloses⟩ := h
  exact ⟨inside, hcloses.inside, rfl⟩

end Comment

namespace Scanner

variable {sc : Scanner}

/-! ## Gaps -/

/-- A sequence of ignored characters and complete comments. -/
inductive Gap (sc : Scanner) : List Char → Prop
  | nil : Gap sc []
  | ignored {c : Char} {cs : List Char} (hc : sc.isIgnored c = true) (h : Gap sc cs) : Gap sc (c :: cs)
  | comment {k : Comment} {text cs : List Char} (hk : k ∈ sc.comments) (htext : k.Complete text)
      (h : Gap sc cs) : Gap sc (text ++ cs)

theorem Skips.gap {text rest : List Char} (h : sc.Skips rest text) : sc.Gap text := by
  induction h with
  | nil => exact .nil
  | ignored hc _ ih => exact .ignored (isIgnored_iff.2 hc) ih
  | comment hk htext _ ih => exact .comment hk htext.complete ih

/-- What is skipped between items is a gap. -/
theorem exists_gap (h : ∀ k ∈ sc.comments, k.Delimited) (cs : List Char) :
    ∃ gap, sc.Gap gap ∧ cs = gap ++ sc.skip cs := by
  obtain ⟨text, heq, htext⟩ := exists_skips h cs
  exact ⟨text, htext.gap, heq⟩

/-! ## Tokens -/

/-- A token is a beginning of the input that is not empty. -/
structure Begins (found : Recognised) (input : List Char) : Prop where
  nonempty : found.read ≠ []
  input_eq : found.read.reverse ++ found.rest = input

variable {s : StateId} {read cs input : List Char} {best : Option Recognised}

/-- What is recognised in a state is what was read, so it is not empty. -/
theorem begins_or (h : sc.Plain) (hbest : ∀ found ∈ best, Begins found input)
    (hread : read = [] → s = start) (hinput : read.reverse ++ cs = input) :
    ∀ found ∈ (recognise? (sc.state s) read 0 cs).or best, Begins found input := by
  intro found hfound
  rcases Option.or_eq_some_iff.1 hfound with hfound | ⟨_, hfound⟩
  · obtain ⟨sym, hsym, rfl⟩ := Option.map_eq_some_iff.1 hfound
    rw [ite_self]
    refine ⟨fun hnil => ?_, ?_⟩
    · rw [hread hnil, h.endOf_start] at hsym
      cases hsym
    · simpa using hinput
  · exact hbest found hfound

/-- Without contexts no characters are given back. -/
theorem NoContext.nextAppendix_eq (h : sc.NoContext) {c : Char} {shift : Shift}
    (hfind : sc.findShift s c = some shift) : nextAppendix (sc.state s) shift 0 = 0 := by
  have hpart : shift.part = .main := h s shift (List.mem_of_find?_eq_some hfind)
  simp [nextAppendix, hpart]

theorem Plain.nextAppendix_eq (h : sc.Plain) {c : Char} {shift : Shift}
    (hfind : sc.findShift s c = some shift) : nextAppendix (sc.state s) shift 0 = 0 :=
  h.noContext.nextAppendix_eq hfind

theorem longest_spec (h : sc.Plain) (hbest : ∀ found ∈ best, Begins found input)
    (hread : read = [] → s = start) (hinput : read.reverse ++ cs = input) :
    ∀ found ∈ sc.longest s read 0 best cs, Begins found input := by
  induction cs generalizing s read best with
  | nil => exact begins_or h hbest hread hinput
  | cons c cs ih =>
    have hhere := begins_or h hbest hread hinput
    rw [longest]
    cases hfind : sc.findShift s c with
    | none => exact hhere
    | some shift =>
      dsimp only
      rw [h.nextAppendix_eq hfind]
      exact ih hhere nofun (by simpa using hinput)

/-! ## Items -/

end Scanner

namespace Item

/-- The byte at which an item begins. -/
def start : Item → Nat
  | token _ _ start _ => start
  | stray _ start _ => start

/-- The byte behind an item. -/
def stop : Item → Nat
  | token _ _ _ stop => stop
  | stray _ _ stop => stop

/-- The item consists of the characters `text`, from the byte `start` on. -/
inductive Spans : Item → Nat → List Char → Prop
  | token (sym : SymbolId) (start : Nat) (text : List Char) :
      Spans (.token sym (String.ofList text) start (start + byteLength text)) start text
  | stray (start : Nat) (c : Char) : Spans (.stray c start (start + c.utf8Size)) start [c]

variable {item : Item} {start : Nat} {text : List Char}

theorem Spans.start_eq (h : item.Spans start text) : item.start = start := by
  cases h <;> rfl

theorem Spans.stop_eq (h : item.Spans start text) : item.stop = start + byteLength text := by
  cases h <;> rfl

end Item

namespace Scanner

variable {sc : Scanner} {offset limit : Nat} {rest : List Char}

/-- The input from the byte `offset` on is cut into gaps and items that are not empty. -/
inductive Covers (sc : Scanner) : Nat → List Char → List Item → Prop
  | done {offset : Nat} {gap : List Char} (hgap : sc.Gap gap) : Covers sc offset gap []
  | item {offset : Nat} {gap text rest : List Char} {item : Item} {items : List Item}
      (hgap : sc.Gap gap) (hne : text ≠ [])
      (hitem : item.Spans (offset + byteLength gap) text)
      (h : Covers sc (offset + byteLength gap + byteLength text) rest items) :
      Covers sc offset (gap ++ (text ++ rest)) (item :: items)

/-- The next item stands behind a gap and is not empty. -/
theorem next?_spec (h : sc.Plain) (offset : Nat) (rest : List Char) :
    (sc.next? offset rest = none ∧ sc.Gap rest) ∨
      ∃ gap text rest' item, rest = gap ++ (text ++ rest') ∧ sc.Gap gap ∧ text ≠ [] ∧
        item.Spans (offset + byteLength gap) text ∧
        sc.next? offset rest = some (item, offset + byteLength gap + byteLength text, rest') := by
  obtain ⟨gap, hgap, hrest⟩ := exists_gap h.delimited rest
  unfold next?
  cases hskip : sc.skip rest with
  | nil =>
    rw [hskip, List.append_nil] at hrest
    exact .inl ⟨rfl, hrest ▸ hgap⟩
  | cons c cs =>
    rw [hskip] at hrest
    have hstart : byteLength rest - byteLength (c :: cs) = byteLength gap := by
      rw [hrest, byteLength_append, Nat.add_sub_cancel]
    refine .inr ⟨gap, ?_⟩
    dsimp only
    rw [hstart]
    cases hlongest : sc.longest start [] 0 none (c :: cs) with
    | some found =>
      obtain ⟨hne, hinput⟩ := longest_spec h (by simp) (fun _ => rfl) rfl found hlongest
      dsimp only
      rw [← byteLength_reverse found.read]
      refine ⟨found.read.reverse, found.rest, _, ?_, hgap, by simpa using hne, .token .., rfl⟩
      rw [hinput]
      exact hrest
    | none =>
      refine ⟨[c], cs, _, hrest, hgap, List.cons_ne_nil _ _, .stray _ c, ?_⟩
      simp [byteLength]

/-- What is found in the input is a list of items that cover it; fewer of them are its beginning. -/
theorem exists_covers (h : sc.Plain) (offset : Nat) (rest : List Char) :
    ∃ items, sc.Covers offset rest items ∧
      ∀ limit, sc.itemsFrom limit offset rest = (items.take limit, decide (items.length < limit)) := by
  induction hlen : rest.length using Nat.strongRecOn generalizing offset rest with
  | ind n ih =>
    rcases next?_spec h offset rest with ⟨hnext, hgap⟩ | ⟨gap, text, rest', item, rfl, hgap, hne, hitem, hnext⟩
    · refine ⟨[], .done hgap, fun limit => ?_⟩
      cases limit with
      | zero => rfl
      | succ limit => simp [itemsFrom, hnext]
    · have hlt : rest'.length < n := by
        have := List.length_pos_iff.2 hne
        simp only [List.length_append] at hlen
        omega
      obtain ⟨items, hcovers, hitems⟩ := ih rest'.length hlt (offset + byteLength gap + byteLength text)
        rest' rfl
      refine ⟨item :: items, .item hgap hne hitem hcovers, fun limit => ?_⟩
      cases limit with
      | zero => rfl
      | succ limit => simp [itemsFrom, hnext, hitems]

/-! ## Whole inputs -/

theorem byteLength_pos {text : List Char} (h : text ≠ []) : 0 < byteLength text := by
  obtain ⟨c, cs, rfl⟩ := List.exists_cons_of_ne_nil h
  exact Nat.add_pos_left c.utf8Size_pos _

namespace Covers

variable {items : List Item}

/-- No item is empty. -/
theorem nonempty (h : sc.Covers offset rest items) : ∀ item ∈ items, item.start < item.stop := by
  induction h with
  | done => exact nofun
  | item _ hne hitem _ ih =>
    refine List.forall_mem_cons.2 ⟨?_, ih⟩
    rw [hitem.start_eq, hitem.stop_eq]
    exact Nat.lt_add_of_pos_right (byteLength_pos hne)

theorem le_start (h : sc.Covers offset rest items) : ∀ item ∈ items, offset ≤ item.start := by
  induction h with
  | done => exact nofun
  | item _ _ hitem _ ih =>
    refine List.forall_mem_cons.2 ⟨?_, fun item hmem => ?_⟩
    · rw [hitem.start_eq]
      exact Nat.le_add_right ..
    · exact Nat.le_trans (Nat.le_trans (Nat.le_add_right ..) (Nat.le_add_right ..)) (ih item hmem)

/-- Items follow one another. -/
theorem ascending (h : sc.Covers offset rest items) : items.Pairwise fun a b => a.stop ≤ b.start := by
  induction h with
  | done => exact .nil
  | item _ _ hitem h ih =>
    refine List.pairwise_cons.2 ⟨fun b hb => ?_, ih⟩
    rw [hitem.stop_eq]
    exact h.le_start b hb

/-- An item consists of the characters that stand at its place. -/
theorem exists_text (h : sc.Covers offset rest items) :
    ∀ item ∈ items, ∃ before text after, rest = before ++ (text ++ after) ∧
      item.Spans (offset + byteLength before) text := by
  induction h with
  | done => exact nofun
  | @item _ gap text rest _ _ _ _ hitem _ ih =>
    refine List.forall_mem_cons.2 ⟨⟨gap, text, rest, rfl, hitem⟩, fun item hmem => ?_⟩
    obtain ⟨before, text', after, rfl, hitem'⟩ := ih item hmem
    refine ⟨gap ++ (text ++ before), text', after, by simp only [List.append_assoc], ?_⟩
    simpa only [byteLength_append, Nat.add_assoc] using hitem'

end Covers

/-- The items of an input are finitely many.  They are not empty, follow one another, and consist of the
characters at their places; what stands before, between and behind them are gaps. -/
structure Scans (sc : Scanner) (input : String) (items : List Item) : Prop where
  items_eq : ∀ limit, sc.items limit input = (items.take limit, decide (items.length < limit))
  nonempty : ∀ item ∈ items, item.start < item.stop
  ascending : items.Pairwise fun a b => a.stop ≤ b.start
  exists_text : ∀ item ∈ items, ∃ before text after,
    input.toList = before ++ (text ++ after) ∧ item.Spans (byteLength before) text
  covers : sc.Covers 0 input.toList items

/-- A plain scanner cuts every input into gaps and items. -/
theorem Plain.exists_items (h : sc.Plain) (input : String) : ∃ items, sc.Scans input items := by
  obtain ⟨items, hcovers, hitems⟩ := exists_covers h 0 input.toList
  refine ⟨items, hitems, hcovers.nonempty, hcovers.ascending, fun item hitem => ?_, hcovers⟩
  simpa only [Nat.zero_add] using hcovers.exists_text item hitem

end Scanner

namespace Draft

variable {d : Draft} {ok : Grammar → NodeId → Prop}

/-- The scanner of declared tokens without contexts cuts every input into gaps and items, if no token
ends in the start state; none does if tokens are declared at nodes of complete structures. -/
theorem Declared.exists_scans (h : d.Declared ok) (hcontext : d.NoContext)
    (hstart : (d.machine.state Machine.start).endOf = none ∨ ∀ g p, ok g p → g.InStructure p)
    (input : String) : ∃ items, d.toScanner.1.Scans input items := by
  have hend : (d.machine.state Machine.start).endOf = none :=
    hstart.elim id fun hok => (h.mono hok).endOf_start
  have hwf := h.sound.wellFormed
  have hplain : d.Plain d.machine.comments := ⟨hwf.size_pos, hend, hcontext, rfl⟩
  exact (hplain.toScanner hwf h.delimited).exists_items input

/-- The comment delimiters `/*` and `*/`, and the character `a`. -/
def delimiters : Grammar :=
  let g := (Grammar.initial.addString "\"/*\"" 1).2
  let g := (g.addString "\"*/\"" 1).2
  (g.addLeaf { kind := .char 97 .main }).2

/-- A token, a literal that begins with it, and nested comments. -/
theorem Declared.exists_scans_comments :
    let d := (((⟨.initial, delimiters⟩ : Draft).addToken 4 1).addLiteral "\"ab\"" 2).addComment 0 2 true
    d.Declared Grammar.InStructure ∧ d.NoContext ∧
      ∃ items, d.toScanner.1.Scans "a/*b/*c*/*/ab?" items := by
  intro d
  have hfit : delimiters.Fit 1 :=
    Grammar.fit_of_isFresh (fun _ => CharSet.canonical_empty) (by decide +kernel)
  have hdeclared : d.Declared Grammar.InStructure := by
    refine (((Declared.initial hfit).token ⟨.leaf 4, false, ?_, ?_, ?_⟩ 1).literal _ 2).comment 0 2 true
    · refine ⟨?_, ?_, ?_⟩ <;> decide +kernel
    · decide
    · exact List.mem_cons_self
  have hcontext : d.NoContext := noContext_of_forall (by decide +kernel)
  exact ⟨hdeclared, hcontext, hdeclared.exists_scans hcontext (.inr fun _ _ => id) _⟩

/-! ## An empty token -/

/-- The character `a` or nothing, or else `c`, and then `b`; the optional character is closed once more
after the whole is complete. -/
def cutOption : Grammar :=
  let (a, g) := Grammar.initial.addLeaf { kind := .char 97 .main }
  let (option, g) := g.option a
  let (c, g) := g.addLeaf { kind := .char 99 .main }
  let (arms, g) := g.firstArm option
  let (arms, g) := g.addArm arms c
  let (b, g) := g.addLeaf { kind := .char 98 .main }
  let (whole, g) := g.sequence arms b
  let g := (g.declareSymbol .terminal "T" 1).2
  (g.close whole).close option

/-- The token of which a part was closed. -/
def cut : Draft :=
  (⟨.initial, cutOption⟩ : Draft).addToken 3 1

/-- A token that ends in the start state is found without end where no other character can be read. -/
theorem Declared.not_scans_cut :
    cut.Declared (fun _ _ => True) ∧ cut.NoContext ∧ cut.grammar.diags = [] ∧
      ¬ ∃ items, cut.toScanner.1.Scans "zb" items := by
  have hfit : cutOption.Fit 1 :=
    Grammar.fit_of_isFresh (fun _ => CharSet.canonical_empty) (by decide +kernel)
  refine ⟨(Declared.initial hfit).token trivial 1, noContext_of_forall (by decide +kernel),
    by decide +kernel, ?_⟩
  have hnext : cut.toScanner.1.next? 0 "zb".toList = some (.token 1 "" 0 0, 0, "zb".toList) := by
    decide +kernel
  have hdone : ∀ limit, (cut.toScanner.1.items limit "zb").2 = false := by
    intro limit
    unfold Scanner.items
    induction limit with
    | zero => rfl
    | succ limit ih =>
      rw [Scanner.itemsFrom, hnext]
      exact ih
  rintro ⟨items, hscans⟩
  have hall := hdone (items.length + 1)
  rw [hscans.items_eq] at hall
  simp at hall

end Draft

end Ebnf
