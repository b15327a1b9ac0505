import Ebnf.Proofs.Scanner.Literals

/-!
# Literals that are texts of class tokens

A literal whose text is recognised as a class token should borrow the end of this
token.  It does so where the walk along the first moves finds the end.  The walk
goes one of the ways that the text can take, so it can miss the end: then the
literal gets a path of its own, and it cannot be told from the class token any
more.  Which way is the first one depends on the order of the declarations.
Where no state along the text can go on in two ways, the order does not matter.

Main results:

- Theorem `Draft.addLiteral_eq_borrow` and `Draft.addLiteral_eq_ownPath`: what a literal does
  according to what the walk finds.
- Theorem `Draft.Unforked.found`: along a text without forks the walk finds the end.
- Theorem `Draft.Declared.folds_iff`: a literal that is a text of a class token is looked up if
  the walk finds the end of the token, and else it is reported.
-/

namespace Ebnf

namespace Draft

variable {d d' : Draft} {tok a : SymbolId} {s t : StateId} {w : List Nat} {text quoted : String}
  {ok : Grammar → NodeId → Prop}

/-! ## What the walk finds -/

/-- The token that ends where the walk along the first moves leads. -/
def found (d : Draft) (w : List Nat) : Option SymbolId :=
  (d.machine.follow d.grammar Machine.start none w).bind fun r => (d.machine.state r.1).endOf

theorem follow_congr {m : Machine} {g g' : Grammar} {part : Option Part}
    (h : ∀ on c, g'.triggers on c = g.triggers on c) : m.follow g' s part w = m.follow g s part w := by
  induction w generalizing s part with
  | nil => rfl
  | cons c w ih =>
    have hfind : m.findMove g' s c = m.findMove g s c := by
      simp only [Machine.findMove, h]
    simp only [Machine.follow, hfind, ih]

/-- Without contexts the walk ends with none. -/
theorem NoContext.follow_ne {part part' : Option Part} (h : d.NoContext)
    (hpart : part ≠ some .context)
    (hfollow : d.machine.follow d.grammar s part w = some (t, part')) : part' ≠ some .context := by
  induction w generalizing s part with
  | nil =>
    obtain ⟨_, rfl⟩ := Prod.mk.inj (Option.some.inj hfollow)
    exact hpart
  | cons c w ih =>
    rw [Machine.follow] at hfollow
    obtain ⟨move, hfind, hfollow⟩ := Option.bind_eq_some_iff.1 hfollow
    obtain ⟨target, _, hfollow⟩ := Option.bind_eq_some_iff.1 hfollow
    refine ih ?_ hfollow
    rw [h s move (List.mem_of_find?_eq_some hfind)]
    simp

theorem accepts_of_found (h : d.found w = some a) : d.Accepts a Machine.start w := by
  obtain ⟨⟨s, part⟩, hfollow, hend⟩ := Option.bind_eq_some_iff.1 h
  exact ⟨s, leads_of_follow hfollow, hend⟩

/-- A readable text that is no literal yet is entered, placed, and given an end. -/
theorem addLiteral_eq (hread : Escape.unescapeQuoted quoted = (text, [])) (htext : text ≠ "")
    (hnew : ∀ l ∈ d.grammar.literals, l.text ≠ text) (hfresh : d.Fresh tok) :
    d.addLiteral quoted tok =
      let r := (d.enter [] ⟨text, tok⟩).placeLiteral tok (text.toList.map Char.toNat)
      r.2.2.endLiteral tok r.1 r.2.1 := by
  have hadd : (d.grammar.reportAll []).addLiteral? text tok =
      some (d.enter [] ⟨text, tok⟩).grammar := by
    refine if_neg fun hany => ?_
    obtain ⟨l, hl, hsame⟩ := List.any_eq_true.1 hany
    simp only [Bool.or_eq_true, beq_iff_eq] at hsame
    exact hsame.elim (hnew l hl) (hfresh.not_literal l hl)
  have hempty : ¬ text.isEmpty = true := by simpa using htext
  simp only [addLiteral, Grammar.readQuoted, hread, List.map_nil, if_neg hempty, hadd]
  rfl

theorem found_enter {l : Literal} : (d.enter [] l).found w = d.found w := by
  have hfollow : (d.enter [] l).machine.follow (d.enter [] l).grammar Machine.start none w =
      d.machine.follow d.grammar Machine.start none w := follow_congr fun _ _ => rfl
  exact congrArg (Option.bind · fun r => (d.machine.state r.1).endOf) hfollow

/-- A literal borrows the end of a class token that the walk finds. -/
theorem addLiteral_eq_borrow (hcontext : d.NoContext)
    (hread : Escape.unescapeQuoted quoted = (text, [])) (htext : text ≠ "")
    (hnew : ∀ l ∈ d.grammar.literals, l.text ≠ text) (hfresh : d.Fresh tok)
    (hfound : d.found (text.toList.map Char.toNat) = some a)
    (hkind : (d.grammar.sym a).tokenKind ≠ .fixed) :
    d.addLiteral quoted tok = (d.enter [] ⟨text, tok⟩).borrow tok a := by
  rw [addLiteral_eq hread htext hnew hfresh]
  rw [← found_enter (l := ⟨text, tok⟩)] at hfound
  have hcontext' : (d.enter [] ⟨text, tok⟩).NoContext := hcontext
  have hkind' : ((d.enter [] ⟨text, tok⟩).grammar.sym a).tokenKind ≠ .fixed := hkind
  generalize d.enter [] ⟨text, tok⟩ = e at hfound hcontext' hkind' ⊢
  obtain ⟨⟨s, part⟩, hfollow, hend⟩ := Option.bind_eq_some_iff.1 hfound
  have hpart := hcontext'.follow_ne (by simp) hfollow
  simp only at hend
  simp only [placeLiteral, hfollow, Option.filter_some, hend, Option.isSome_some, if_true, endLiteral,
    hkind', hpart, or_self, if_false, borrow]

/-- A literal gets a path of its own if the walk finds nothing. -/
theorem addLiteral_eq_ownPath (hread : Escape.unescapeQuoted quoted = (text, [])) (htext : text ≠ "")
    (hnew : ∀ l ∈ d.grammar.literals, l.text ≠ text) (hfresh : d.Fresh tok)
    (hfound : d.found (text.toList.map Char.toNat) = none) :
    d.addLiteral quoted tok =
      (d.enter [] ⟨text, tok⟩).ownPath tok (text.toList.map Char.toNat) := by
  rw [addLiteral_eq hread htext hnew hfresh]
  rw [← found_enter (l := ⟨text, tok⟩)] at hfound
  have hw : text.toList.map Char.toNat ≠ [] := by simpa using htext
  generalize d.enter [] ⟨text, tok⟩ = e at hfound ⊢
  generalize text.toList.map Char.toNat = w at hfound hw ⊢
  have hknown : (e.machine.follow e.grammar Machine.start none w).filter
      (fun r => (e.machine.state r.1).endOf.isSome) = none := by
    unfold found at hfound
    cases hfollow : e.machine.follow e.grammar Machine.start none w with
    | none => rfl
    | some r =>
      rw [hfollow, Option.bind_some] at hfound
      simp [Option.filter_some, hfound]
  simp only [placeLiteral, hknown, endLiteral, endOf_addPath_last hw, ownPath, endIn]

/-! ## Texts without forks -/

/-- No state along a text can go on in two ways. -/
def Unforked (d : Draft) : StateId → List Nat → Prop
  | _, [] => True
  | s, c :: w => (∀ t u, d.Steps s c t → d.Steps s c u → t = u) ∧ ∀ t, d.Steps s c t → d.Unforked t w

/-- Without forks the walk goes where the text leads. -/
theorem Unforked.follow {part : Option Part} (h : d.Unforked s w) (hsingle : d.Single)
    (hleads : d.Leads s w t) :
    ∃ part', d.machine.follow d.grammar s part w = some (t, part') := by
  induction w generalizing s part with
  | nil =>
    obtain rfl : s = t := hleads
    exact ⟨part, rfl⟩
  | cons c w ih =>
    obtain ⟨u, hstep, hrest⟩ := hleads
    obtain ⟨hunique, hnext⟩ := h
    have hsome : (d.machine.findMove d.grammar s c).isSome = true := by
      obtain ⟨move, hmove, hon, _⟩ := hstep
      exact List.find?_isSome.2 ⟨move, hmove, hon⟩
    obtain ⟨move, hfind⟩ := Option.isSome_iff_exists.1 hsome
    have hmove := List.mem_of_find?_eq_some hfind
    have hon : d.grammar.triggers move.on c = true :=
      List.find?_some (p := fun move : Move => d.grammar.triggers move.on c) hfind
    obtain ⟨v, htargets⟩ := hsingle s move hmove
    have hmem : v ∈ move.targets := by
      rw [htargets]
      exact BitSet.mem_singleton.2 rfl
    have hv : d.Steps s c v := ⟨move, hmove, hon, hmem⟩
    obtain rfl := hunique v u hv hstep
    have hmin : move.targets.min? = some v := by
      refine (Scanner.mem_iff_min? ?_).1 hmem
      rw [htargets]
      exact Merging.length_toList_singleton v
    obtain ⟨part', hfollow⟩ :
        ∃ part', d.machine.follow d.grammar v (some move.part) w = some (t, part') :=
      ih (hnext v hv) hrest
    refine ⟨part', ?_⟩
    rw [Machine.follow, hfind, Option.bind_eq_bind, Option.bind_some, hmin, Option.bind_eq_bind,
      Option.bind_some, hfollow]

theorem Unforked.found (h : d.Unforked Machine.start w) (hsingle : d.Single)
    (haccepts : d.Accepts a Machine.start w) : d.found w = some a := by
  obtain ⟨s, hleads, hend⟩ := haccepts
  obtain ⟨part, hfollow⟩ := h.follow hsingle hleads
  rw [Draft.found, hfollow, Option.bind_some, hend]

/-! ## Folding -/

/-- Without changed moves and classes a text leads where it led. -/
theorem leads_congr (hmoves : ∀ s, (d'.machine.state s).moves = (d.machine.state s).moves)
    (htriggers : ∀ on c, d'.grammar.triggers on c = d.grammar.triggers on c) :
    d'.Leads s w t ↔ d.Leads s w t := by
  induction w generalizing s with
  | nil => rfl
  | cons c w ih =>
    have hsteps : ∀ u, d'.Steps s c u ↔ d.Steps s c u := by
      intro u
      simp only [Steps, Grammar.Offers, hmoves, htriggers]
    simp only [Leads, hsteps, ih]

theorem ambiguous_congr (hmoves : ∀ s, (d'.machine.state s).moves = (d.machine.state s).moves)
    (htriggers : ∀ on c, d'.grammar.triggers on c = d.grammar.triggers on c)
    (hend : ∀ s, (d'.machine.state s).endOf = (d.machine.state s).endOf) :
    d'.Ambiguous s ↔ d.Ambiguous s := by
  simp only [Ambiguous, leads_congr hmoves htriggers, hend]

/-- No two tokens can be recognised in the same text, if there is no complaint. -/
theorem Declared.accepts_unique {b : SymbolId} (h : d.Declared ok)
    (hclean : d.toScanner.2.diags = d.grammar.diags) (ha : d.Accepts a s w)
    (hb : d.Accepts b s w) : a = b := by
  by_contra hne
  obtain ⟨x, hx, hxa⟩ := ha
  obtain ⟨y, hy, hyb⟩ := hb
  exact (diags_toScanner_eq_iff h.sound.wellFormed h.single.full).1 hclean s
    ⟨w, x, y, a, b, hx, hy, hxa, hyb, hne⟩

/-- Only errors are reported, so their number tells whether something is. -/
theorem WellFormed.diags_eq_of_errors_eq (h : d.WellFormed)
    (herrors : d.toScanner.2.diags.errors = d.grammar.diags.errors) :
    d.toScanner.2.diags = d.grammar.diags := by
  by_contra hne
  exact Nat.ne_of_gt ((errors_lt_toScanner_iff h).2 hne) herrors

/-- Borrowing an end makes no two tokens indistinguishable. -/
theorem Declared.errors_borrow (h : d.Declared ok)
    (hclean : d.toScanner.2.diags = d.grammar.diags) (h' : d'.Declared ok) {l : Literal}
    (heq : d' = (d.enter [] l).borrow tok a) : d'.toScanner.2.diags = d.grammar.diags := by
  have hdiags : d'.grammar.diags = d.grammar.diags := by
    rw [heq]
    exact List.append_nil _
  rw [← hdiags]
  refine (diags_toScanner_eq_iff h'.sound.wellFormed h'.single.full).2 fun s => ?_
  have hsame : d'.Ambiguous s ↔ d.Ambiguous s := by
    rw [heq]
    exact ambiguous_congr (fun _ => rfl) (fun _ _ => rfl) fun _ => rfl
  rw [hsame]
  exact (diags_toScanner_eq_iff h.sound.wellFormed h.single.full).1 hclean s

/-- A path for a text that is recognised already is reported. -/
theorem Declared.errors_ownPath (h : d.Declared ok)
    (hstart : (d.machine.state Machine.start).endOf = none) (hfresh : d.Fresh tok)
    (htext : text ≠ "") (haccepts : d.Accepts a Machine.start (text.toList.map Char.toNat))
    (heq : d.addLiteral quoted tok =
      (d.enter [] ⟨text, tok⟩).ownPath tok (text.toList.map Char.toNat)) :
    d.grammar.diags.errors < (d.addLiteral quoted tok).toScanner.2.diags.errors := by
  have hadmits : d.Admits ⟨text, tok⟩ (d.addLiteral quoted tok) :=
    h.sound.admits_ownPath hstart hfresh htext heq (edits_addLiteral d quoted tok)
  have hold := hadmits.declares.accepts a _ haccepts
  have hown : (d.addLiteral quoted tok).Accepts tok Machine.start (text.toList.map Char.toNat) := by
    rw [heq]
    exact (h.sound.enter [] ⟨text, tok⟩).accepts_ownPath tok _
  have hne : a ≠ tok := by
    obtain ⟨s, _, hend⟩ := haccepts
    intro hsame
    exact hfresh.not_ends s (hsame ▸ hend)
  have h' : (d.addLiteral quoted tok).Declared ok := h.literal quoted tok
  have hmore : (d.addLiteral quoted tok).toScanner.2.diags ≠ (d.addLiteral quoted tok).grammar.diags :=
    fun hclean => hne (h'.accepts_unique hclean hold hown)
  have hle := (continues_addLiteral d quoted tok).errors_le
  have hlt := (errors_lt_toScanner_iff h'.sound.wellFormed).2 hmore
  omega

/-- A literal that is a text of a class token is looked up among its texts, without a complaint, if
and only if the walk along the first moves finds the end of the token.  If not, the two tokens cannot
be distinguished, and this is reported.  Along a text without forks the walk finds the end. -/
theorem Declared.folds_iff (h : d.Declared ok) (hcontext : d.NoContext)
    (hstart : (d.machine.state Machine.start).endOf = none ∨ ∀ g p, ok g p → g.InStructure p)
    (hclean : d.toScanner.2.diags.errors = d.grammar.diags.errors)
    (hread : Escape.unescapeQuoted quoted = (text, []))
    (haccepts : d.Accepts a Machine.start (text.toList.map Char.toNat))
    (ha : a ∈ d.grammar.terminals)
    (hkind : (d.grammar.sym a).tokenKind = .cls ∨ (d.grammar.sym a).tokenKind = .clsLiteral)
    (hfresh : d.Fresh tok) (hnew : ∀ l ∈ d.grammar.literals, l.text ≠ text) :
    let g := (d.addLiteral quoted tok).toScanner.2
    ((g.diags.errors = d.grammar.diags.errors ∧ (g.sym a).tokenKind = .clsLiteral ∧
        (g.sym tok).tokenKind = .literal) ↔ d.found (text.toList.map Char.toNat) = some a) ∧
      (d.found (text.toList.map Char.toNat) ≠ some a →
        d.grammar.diags.errors < g.diags.errors ∧
          (g.sym a).tokenKind = (d.grammar.sym a).tokenKind ∧ (g.sym tok).tokenKind = .fixed) ∧
      (d.Unforked Machine.start (text.toList.map Char.toNat) →
        d.found (text.toList.map Char.toNat) = some a) := by
  intro g
  have hend : (d.machine.state Machine.start).endOf = none :=
    hstart.elim id fun hok => (h.mono hok).endOf_start
  have hdiags := h.sound.wellFormed.diags_eq_of_errors_eq hclean
  have hne : a ≠ tok := by
    obtain ⟨s, _, hs⟩ := haccepts
    intro hsame
    exact hfresh.not_ends s (hsame ▸ hs)
  have htext : text ≠ "" := by
    rintro rfl
    obtain ⟨s, rfl, hs⟩ := haccepts
    rw [hend] at hs
    cases hs
  have hfolds : d.found (text.toList.map Char.toNat) = some a →
      g.diags.errors = d.grammar.diags.errors ∧ (g.sym a).tokenKind = .clsLiteral ∧
        (g.sym tok).tokenKind = .literal := by
    intro hfound
    have hfixed : (d.grammar.sym a).tokenKind ≠ .fixed := by
      rcases hkind with hkind | hkind <;> simp [hkind]
    have heq := addLiteral_eq_borrow hcontext hread htext hnew hfresh hfound hfixed
    refine ⟨?_, ?_, ?_⟩
    · rw [h.errors_borrow hdiags (h.literal quoted tok) heq]
    · rw [sym_toScanner, heq]
      exact tokenKind_borrow_class hne (Grammar.mem_ofKind.1 ha).1
    · rw [sym_toScanner, heq]
      exact tokenKind_borrow (Grammar.mem_ofKind.1 hfresh.terminal).1
  have hrefuses : d.found (text.toList.map Char.toNat) ≠ some a →
      d.grammar.diags.errors < g.diags.errors ∧
        (g.sym a).tokenKind = (d.grammar.sym a).tokenKind ∧ (g.sym tok).tokenKind = .fixed := by
    intro hmissed
    -- what the walk finds could only be the same token
    have hnone : d.found (text.toList.map Char.toNat) = none := by
      refine Option.eq_none_iff_forall_ne_some.2 fun b hb => hmissed ?_
      rw [hb, h.accepts_unique hdiags haccepts (accepts_of_found hb)]
    have heq := addLiteral_eq_ownPath hread htext hnew hfresh hnone
    refine ⟨h.errors_ownPath hend hfresh htext haccepts heq, ?_, ?_⟩
    · rw [sym_toScanner, heq, grammar_ownPath]
      rfl
    · rw [sym_toScanner, heq, grammar_ownPath]
      exact hfresh.fixed
  refine ⟨⟨fun hall => ?_, hfolds⟩, hrefuses, fun hunforked => hunforked.found h.single haccepts⟩
  by_contra hmissed
  exact Nat.ne_of_gt (hrefuses hmissed).1 hall.1

/-! ## Two orders -/

/-- Letters with a sharp sign behind them, identifiers, and the terminal of a literal. -/
def notes : Grammar :=
  let (letter, g) := Grammar.initial.declareClass "letter" (.ofRange 97 122)
  let (first, g) := g.addLeaf { kind := .cls letter .main }
  let (sharp, g) := g.addLeaf { kind := .char 35 .main }
  let (note, g) := g.sequence first sharp
  let g := g.close note
  let (first, g) := g.addLeaf { kind := .cls letter .main }
  let (more, g) := g.addLeaf { kind := .cls letter .main }
  let (more, g) := g.iteration more
  let (ident, g) := g.sequence first more
  let g := g.close ident
  let g := (g.declareSymbol .terminal "note" 1).2
  let g := (g.declareSymbol .terminal "ident" 2).2
  (g.declareSymbol .terminal "if" 3).2

/-- The identifiers are declared after the notes. -/
def notesFirst : Draft :=
  ((⟨.initial, notes⟩ : Draft).addToken 0 1).addToken 2 2

/-- The identifiers are declared before the notes. -/
def identsFirst : Draft :=
  ((⟨.initial, notes⟩ : Draft).addToken 2 2).addToken 0 1

theorem fit_notes : notes.Fit 1 := by
  refine Grammar.fit_of_isFresh (fun id => ?_) (by decide +kernel)
  match id with
  | 0 => exact canonical_letters
  | id + 1 => exact CharSet.canonical_empty

/-- If the notes come first, the second move of the start state leads to the identifiers. -/
theorem notesFirst_spec :
    notesFirst.Declared Grammar.InStructure ∧ notesFirst.NoContext ∧
      notesFirst.toScanner.2.diags = [] ∧ notesFirst.Accepts 2 Machine.start [105, 102] ∧
      (notesFirst.grammar.sym 2).tokenKind = .cls ∧ notesFirst.Fresh 3 := by
  have hdeclared : notesFirst.Declared Grammar.InStructure := by
    refine ((Declared.initial fit_notes).token ⟨.seq (.leaf 0) (.leaf 1), false, ?_, by decide,
      List.mem_cons_self⟩ 1).token ⟨.seq (.leaf 2) (.iter 4 (.leaf 3)), false, ?_, by decide,
      List.mem_cons_self⟩ 2
    · refine ⟨⟨?_, ?_, ?_⟩, ?_, ?_, ?_⟩ <;> decide +kernel
    · refine ⟨⟨?_, ?_, ?_⟩, ⟨?_, ?_⟩, ?_, ?_, ?_⟩ <;> decide +kernel
  have haccepts : notesFirst.Accepts 2 Machine.start [105, 102] := by
    refine ⟨3, ⟨3, ⟨⟨.cls 0, .main, .singleton 3⟩, ?_, ?_, BitSet.mem_singleton.2 rfl⟩, 3,
      ⟨⟨.cls 0, .main, .singleton 3⟩, ?_, ?_, BitSet.mem_singleton.2 rfl⟩, rfl⟩, ?_⟩ <;>
    decide +kernel
  have hfresh : notesFirst.Fresh 3 := by
    apply fresh_of_forall <;> decide +kernel
  have hcontext : notesFirst.NoContext := noContext_of_forall (by decide +kernel)
  exact ⟨hdeclared, hcontext, by decide +kernel, haccepts, by decide +kernel, hfresh⟩

/-- If the identifiers come first, the first move does. -/
theorem identsFirst_spec :
    identsFirst.Declared Grammar.InStructure ∧ identsFirst.NoContext ∧
      identsFirst.toScanner.2.diags = [] ∧ identsFirst.Accepts 2 Machine.start [105, 102] ∧
      (identsFirst.grammar.sym 2).tokenKind = .cls ∧ identsFirst.Fresh 3 := by
  have hdeclared : identsFirst.Declared Grammar.InStructure := by
    refine ((Declared.initial fit_notes).token ⟨.seq (.leaf 2) (.iter 4 (.leaf 3)), false, ?_,
      by decide, List.mem_cons_self⟩ 2).token ⟨.seq (.leaf 0) (.leaf 1), false, ?_, by decide,
      List.mem_cons_self⟩ 1
    · refine ⟨⟨?_, ?_, ?_⟩, ⟨?_, ?_⟩, ?_, ?_, ?_⟩ <;> decide +kernel
    · refine ⟨⟨?_, ?_, ?_⟩, ?_, ?_, ?_⟩ <;> decide +kernel
  have haccepts : identsFirst.Accepts 2 Machine.start [105, 102] := by
    refine ⟨1, ⟨1, ⟨⟨.cls 0, .main, .singleton 1⟩, ?_, ?_, BitSet.mem_singleton.2 rfl⟩, 1,
      ⟨⟨.cls 0, .main, .singleton 1⟩, ?_, ?_, BitSet.mem_singleton.2 rfl⟩, rfl⟩, ?_⟩ <;>
    decide +kernel
  have hfresh : identsFirst.Fresh 3 := by
    apply fresh_of_forall <;> decide +kernel
  have hcontext : identsFirst.NoContext := noContext_of_forall (by decide +kernel)
  exact ⟨hdeclared, hcontext, by decide +kernel, haccepts, by decide +kernel, hfresh⟩

/-- The literal `if` is looked up among the identifiers if these are declared first, and reported if
not. -/
theorem Declared.folds_iff_notes :
    let g := (identsFirst.addLiteral "\"if\"" 3).toScanner.2
    let g' := (notesFirst.addLiteral "\"if\"" 3).toScanner.2
    (g.diags.errors = 0 ∧ (g.sym 2).tokenKind = .clsLiteral ∧ (g.sym 3).tokenKind = .literal) ∧
      0 < g'.diags.errors ∧ (g'.sym 2).tokenKind = .cls ∧ (g'.sym 3).tokenKind = .fixed := by
  have hread : Escape.unescapeQuoted "\"if\"" = ("if", []) := by decide +kernel
  have hidents : identsFirst.grammar.diags.errors = 0 := by decide +kernel
  have hnotes : notesFirst.grammar.diags.errors = 0 := by decide +kernel
  obtain ⟨hdeclared, hcontext, hclean, haccepts, hcls, hfresh⟩ := identsFirst_spec
  obtain ⟨hfolds, _⟩ := hdeclared.folds_iff hcontext (.inr fun _ _ => id)
    (by rw [hclean, hidents]; rfl) hread haccepts (by decide +kernel) (.inl hcls) hfresh
    (by decide +kernel)
  rw [hidents] at hfolds
  obtain ⟨hdeclared, hcontext, hclean, haccepts, hcls, hfresh⟩ := notesFirst_spec
  obtain ⟨_, hrefuses, _⟩ := hdeclared.folds_iff hcontext (.inr fun _ _ => id)
    (by rw [hclean, hnotes]; rfl) hread haccepts (by decide +kernel) (.inl hcls) hfresh
    (by decide +kernel)
  rw [hnotes, hcls] at hrefuses
  exact ⟨hfolds.2 (by decide +kernel), hrefuses (by decide +kernel)⟩

/-- The notes and identifiers have no context and give no complaint, and `if` is an identifier; still
the literal `if` is reported and is not looked up, because a note can begin like it. -/
theorem Declared.not_folds_notesFirst :
    (notesFirst.Declared Grammar.InStructure ∧ notesFirst.NoContext ∧
      notesFirst.toScanner.2.diags = [] ∧ notesFirst.Accepts 2 Machine.start [105, 102] ∧
      (notesFirst.grammar.sym 2).tokenKind = .cls ∧ notesFirst.Fresh 3) ∧
    let g := (notesFirst.addLiteral "\"if\"" 3).toScanner.2
    g.diags = [.error (.indistinguishable "ident" "if")] ∧ (g.sym 2).tokenKind = .cls ∧
      (g.sym 3).tokenKind = .fixed :=
  ⟨notesFirst_spec, by decide +kernel⟩

end Draft

end Ebnf
