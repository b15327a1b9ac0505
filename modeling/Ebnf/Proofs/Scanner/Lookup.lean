import Ebnf.Proofs.Scanner.Folding

/-!
# Which tokens are looked up

Tokens and literals are declared for terminals and for pragmas alike.  A literal
whose text leads to the end of a class token shares this end, and both tokens
change their kinds: the texts of the class token have to be looked up, and the
literal is one of those that may be found.  The table of literals is made for
symbols of any kind; but only terminals are noted as tokens to look up, so that a
pragma which shares its end with a literal is recognised in its place.

Main results:

- Theorem `Draft.DeclaredApart.lookups`: the kinds of the tokens tell which of them
  share ends with literals.
- Theorem `Draft.DeclaredApart.mem_classLiterals_iff`: of these, exactly the terminals
  are looked up.
- Theorem `Draft.DeclaredApart.not_mem_classLiterals_digits`: a pragma is not, although
  a literal is declared for one of its texts.
-/

namespace Ebnf

theorem Grammar.fixed_of_forall {g : Grammar}
    (h : ∀ sym ∈ g.symbols.toList, sym.tokenKind = .fixed) (a : SymbolId) :
    (g.sym a).tokenKind = .fixed := by
  by_cases ha : a < g.symbols.size
  · refine h _ ?_
    simp [Grammar.sym, ha]
  · rw [Grammar.sym, Array.getD_eq_getD_getElem?, Array.getElem?_eq_none (Nat.le_of_not_lt ha)]
    rfl

namespace Draft

variable {d d' : Draft} {tok a : SymbolId} {own : SymbolId → Prop} {s : StateId}
  {ok : Grammar → NodeId → Prop}

/-! ## Declarations for symbols of any kind -/

/-- Nothing is declared for the symbol yet. -/
structure Unused (d : Draft) (tok : SymbolId) : Prop where
  lt_size : tok < d.grammar.symbols.size
  fixed : (d.grammar.sym tok).tokenKind = .fixed
  not_ends : ∀ s, (d.machine.state s).endOf ≠ some tok
  not_literal : ∀ l ∈ d.grammar.literals, l.sym ≠ tok

theorem unused_of_forall (hlt : tok < d.grammar.symbols.size)
    (hfixed : (d.grammar.sym tok).tokenKind = .fixed)
    (hends : ∀ st ∈ d.machine.states.toList, st.endOf ≠ some tok)
    (hliteral : ∀ l ∈ d.grammar.literals, l.sym ≠ tok) : d.Unused tok :=
  ⟨hlt, hfixed, endOf_ne_of_forall hends, hliteral⟩

/-- The drafts that arise from the machine without tokens by declaring tokens, literals and
comments, each token or literal for a symbol of any kind for which nothing is declared yet.  Tokens
are declared at nodes as `ok` says. -/
inductive DeclaredApart (ok : Grammar → NodeId → Prop) : Draft → Prop
  | initial {g : Grammar} (hfit : g.Fit 1) (hnone : g.literals = [])
      (hfixed : ∀ a, (g.sym a).tokenKind = .fixed) : DeclaredApart ok ⟨.initial, g⟩
  | token {d : Draft} (h : DeclaredApart ok d) {p : NodeId} (hp : ok d.grammar p) {tok : SymbolId}
      (hunused : d.Unused tok) : DeclaredApart ok (d.addToken p tok)
  | literal {d : Draft} (h : DeclaredApart ok d) (quoted : String) {tok : SymbolId}
      (hunused : d.Unused tok) : DeclaredApart ok (d.addLiteral quoted tok)
  | comment {d : Draft} (h : DeclaredApart ok d) (start stop : NodeId) (nested : Bool) :
      DeclaredApart ok (d.addComment start stop nested)
  /-- other declarations in between: symbols may be added, classes and kinds of tokens stay -/
  | revise {d : Draft} (h : DeclaredApart ok d) {g : Grammar} (hfit : g.Fit d.machine.states.size)
      (hgrammar : d.grammar.Continues (fun _ => True) g)
      (hsize : d.grammar.symbols.size ≤ g.symbols.size)
      (hkinds : ∀ a, (g.sym a).tokenKind = (d.grammar.sym a).tokenKind)
      (hliterals : g.literals = d.grammar.literals) : DeclaredApart ok { d with grammar := g }

theorem DeclaredApart.declared (h : d.DeclaredApart ok) : d.Declared ok := by
  induction h with
  | initial hfit _ _ => exact .initial hfit
  | token _ hp _ ih => exact ih.token hp _
  | literal _ quoted _ ih => exact ih.literal quoted _
  | comment _ start stop nested ih => exact ih.comment start stop nested
  | revise _ hfit hgrammar _ _ _ ih => exact ih.revise hfit hgrammar.size_le

/-! ## Shared ends -/

/-- The text of the literal leads to an end of the token. -/
def Shares (d : Draft) (a : SymbolId) (l : Literal) : Prop :=
  d.Accepts a Machine.start (l.text.toList.map Char.toNat)

/-- The tokens that are looked up and the literals that may be found belong together, and no token
of such a literal has an end. -/
structure Lookups (d : Draft) : Prop where
  ends : ∀ s a, (d.machine.state s).endOf = some a →
    a < d.grammar.symbols.size ∧ (d.grammar.sym a).tokenKind ≠ .literal
  exists_literal : ∀ a, (d.grammar.sym a).tokenKind = .clsLiteral →
    ∃ l ∈ d.grammar.literals, (d.grammar.sym l.sym).tokenKind = .literal ∧ d.Shares a l
  exists_class : ∀ l ∈ d.grammar.literals, (d.grammar.sym l.sym).tokenKind = .literal →
    ∃ a, (d.grammar.sym a).tokenKind = .clsLiteral ∧ d.Shares a l

/-- What was recognised still is, and all that is new concerns the symbols in `own`, none of which
shares an end. -/
structure Spares (d : Draft) (own : SymbolId → Prop) (d' : Draft) : Prop where
  size_le : d.grammar.symbols.size ≤ d'.grammar.symbols.size
  kind_eq : ∀ a, ¬ own a → (d'.grammar.sym a).tokenKind = (d.grammar.sym a).tokenKind
  kind_own : ∀ a, own a → (d'.grammar.sym a).tokenKind ≠ .literal ∧
    (d'.grammar.sym a).tokenKind ≠ .clsLiteral
  literals_eq : ∃ ls : List Literal, (∀ l ∈ ls, own l.sym) ∧
    d'.grammar.literals = d.grammar.literals ++ ls
  accepts : ∀ a w, d.Accepts a Machine.start w → d'.Accepts a Machine.start w
  endOf_cases : ∀ s a, (d'.machine.state s).endOf = some a →
    (d.machine.state s).endOf = some a ∨ own a

/-- A declaration that shares no end leaves the tokens and literals that do as they are. -/
theorem Lookups.spares (h : d.Lookups) (hspares : d.Spares own d')
    (hunused : ∀ a, own a → d.Unused a) : d'.Lookups := by
  obtain ⟨ls, hls, hliterals⟩ := hspares.literals_eq
  refine ⟨fun s a hend => ?_, fun a hkind => ?_, fun l hl hkind => ?_⟩
  · rcases hspares.endOf_cases s a hend with hold | hown
    · have hnot : ¬ own a := fun hown => (hunused a hown).not_ends s hold
      rw [hspares.kind_eq a hnot]
      exact ⟨Nat.lt_of_lt_of_le (h.ends s a hold).1 hspares.size_le, (h.ends s a hold).2⟩
    · exact ⟨Nat.lt_of_lt_of_le (hunused a hown).lt_size hspares.size_le,
        (hspares.kind_own a hown).1⟩
  · have hnot : ¬ own a := fun hown => (hspares.kind_own a hown).2 hkind
    rw [hspares.kind_eq a hnot] at hkind
    obtain ⟨l, hl, hliteral, hshares⟩ := h.exists_literal a hkind
    have hnot : ¬ own l.sym := fun hown => (hunused _ hown).not_literal l hl rfl
    refine ⟨l, ?_, ?_, hspares.accepts a _ hshares⟩
    · rw [hliterals]
      exact List.mem_append_left _ hl
    · rw [hspares.kind_eq _ hnot]
      exact hliteral
  · have hnot : ¬ own l.sym := fun hown => (hspares.kind_own _ hown).1 hkind
    rw [hliterals] at hl
    have hl := (List.mem_append.1 hl).resolve_right fun hl => hnot (hls l hl)
    rw [hspares.kind_eq _ hnot] at hkind
    obtain ⟨a, hclass, hshares⟩ := h.exists_class l hl hkind
    have hnot : ¬ own a := fun hown => by
      rw [(hunused a hown).fixed] at hclass
      cases hclass
    exact ⟨a, (hspares.kind_eq a hnot).trans hclass, hspares.accepts a _ hshares⟩

/-- A token shares no end. -/
theorem Unused.spares_addToken (hunused : d.Unused tok) (hd : d.WellFormed)
    (hstart : (d.machine.state Machine.start).endOf = none) (p : NodeId) :
    d.Spares (· = tok) (d.addToken p tok) where
  size_le := Nat.le_of_eq (size_symbols_addToken d p tok).symm
  kind_eq _ hne := tokenKind_addToken_of_ne p hne
  kind_own := by
    rintro _ rfl
    rcases tokenKind_addToken_cases p hunused.fixed with hkind | hkind <;> simp [hkind]
  literals_eq := ⟨[], by simp, by rw [literals_addToken, List.append_nil]⟩
  accepts _ _ haccepts := (edits_addToken_new d p tok).accepts_mono (fun _ => id) hd hstart
    (continues_addToken d p tok) haccepts
  endOf_cases _ _ hend := (edits_addToken d p tok).endOf_cases hend

/-- Neither does a literal that is refused or gets a path of its own. -/
theorem Unused.spares_addLiteral {quoted : String} {ls : List Literal} (hunused : d.Unused tok)
    (hd : d.WellFormed) (hstart : (d.machine.state Machine.start).endOf = none)
    (hsymbols : (d.addLiteral quoted tok).grammar.symbols = d.grammar.symbols)
    (hls : ∀ l ∈ ls, l.sym = tok)
    (hliterals : (d.addLiteral quoted tok).grammar.literals = d.grammar.literals ++ ls) :
    d.Spares (· = tok) (d.addLiteral quoted tok) := by
  have hsym : ∀ a, (d.addLiteral quoted tok).grammar.sym a = d.grammar.sym a := fun a => by
    rw [Grammar.sym, Grammar.sym, hsymbols]
  have hedits := edits_addLiteral d quoted tok
  refine ⟨Nat.le_of_eq (by rw [hsymbols]), fun a _ => by rw [hsym], ?_, ⟨ls, hls, hliterals⟩,
    fun a w => hedits.accepts_mono (fun _ => .inl) hd hstart (continues_addLiteral d quoted tok),
    fun s a => hedits.endOf_cases⟩
  rintro a rfl
  simp [hsym, hunused.fixed]

/-- What was recognised still is, and all that is new is that the literal `l` shares an end of the
token `a`. -/
structure Borrows (d : Draft) (l : Literal) (a : SymbolId) (d' : Draft) : Prop where
  size_eq : d'.grammar.symbols.size = d.grammar.symbols.size
  kind_class : (d'.grammar.sym a).tokenKind = .clsLiteral
  kind_literal : (d'.grammar.sym l.sym).tokenKind = .literal
  kind_eq : ∀ b, b ≠ a → b ≠ l.sym → (d'.grammar.sym b).tokenKind = (d.grammar.sym b).tokenKind
  literals_eq : d'.grammar.literals = d.grammar.literals ++ [l]
  accepts : ∀ b w, d.Accepts b Machine.start w → d'.Accepts b Machine.start w
  endOf_eq : ∀ s, (d'.machine.state s).endOf = (d.machine.state s).endOf
  shares : d'.Shares a l

/-- Sharing an end with a further literal leaves the others as they are. -/
theorem Lookups.borrows {l : Literal} (h : d.Lookups) (hborrows : d.Borrows l a d')
    (hunused : d.Unused l.sym) (ha : (d.grammar.sym a).tokenKind ≠ .literal) : d'.Lookups := by
  have hother : ∀ b, (d.grammar.sym b).tokenKind = .clsLiteral → b ≠ l.sym := by
    rintro b hb rfl
    rw [hunused.fixed] at hb
    cases hb
  refine ⟨fun t b hb => ?_, fun b hb => ?_, fun l' hl' hb => ?_⟩
  · rw [hborrows.endOf_eq] at hb
    rw [hborrows.size_eq]
    refine ⟨(h.ends t b hb).1, ?_⟩
    by_cases hba : b = a
    · rw [hba, hborrows.kind_class]
      nofun
    · rw [hborrows.kind_eq b hba fun hbl => hunused.not_ends t (hbl ▸ hb)]
      exact (h.ends t b hb).2
  · rw [hborrows.literals_eq]
    -- the token `a` now has the new literal, whether or not it had one before
    by_cases hba : b = a
    · exact ⟨l, List.mem_append_right _ List.mem_cons_self, hborrows.kind_literal,
        hba ▸ hborrows.shares⟩
    · have hbl : b ≠ l.sym := by
        rintro rfl
        rw [hborrows.kind_literal] at hb
        cases hb
      rw [hborrows.kind_eq b hba hbl] at hb
      obtain ⟨l', hl', hkind, hshares⟩ := h.exists_literal b hb
      refine ⟨l', List.mem_append_left _ hl', ?_, hborrows.accepts b _ hshares⟩
      rw [hborrows.kind_eq _ (fun heq => ha (heq ▸ hkind)) (hunused.not_literal l' hl')]
      exact hkind
  · rw [hborrows.literals_eq] at hl'
    rcases List.mem_append.1 hl' with hold | hnew
    · have hla : l'.sym ≠ a := by
        intro heq
        rw [heq, hborrows.kind_class] at hb
        cases hb
      rw [hborrows.kind_eq _ hla (hunused.not_literal l' hold)] at hb
      obtain ⟨b, hb, hshares⟩ := h.exists_class l' hold hb
      refine ⟨b, ?_, hborrows.accepts b _ hshares⟩
      by_cases hba : b = a
      · rw [hba, hborrows.kind_class]
      · rw [hborrows.kind_eq b hba (hother b hb)]
        exact hb
    · rw [List.mem_singleton.1 hnew]
      exact ⟨a, hborrows.kind_class, hborrows.shares⟩

/-- A literal borrows the end of a class token. -/
theorem Unused.borrows {l : Literal} {faults : List Diagnostic} (hunused : d.Unused l.sym)
    (hd : d.Sound) (ha : a < d.grammar.symbols.size)
    (hleads : (d.enter faults l).Leads Machine.start (l.text.toList.map Char.toNat) s)
    (hend : (d.machine.state s).endOf = some a) :
    d.Borrows l a ((d.enter faults l).borrow l.sym a) := by
  have hne : a ≠ l.sym := by
    rintro rfl
    exact hunused.not_ends s hend
  have hcontinues := continues_borrow (d := d.enter faults l) l.sym a
  refine ⟨Grammar.size_modifySym.trans Grammar.size_modifySym,
    tokenKind_borrow_class (d := d.enter faults l) hne ha,
    tokenKind_borrow (d := d.enter faults l) hunused.lt_size,
    fun b => tokenKind_borrow_of_ne (d := d.enter faults l), rfl, ?_, fun _ => rfl, ?_⟩
  · rintro b w ⟨t, ht, hb⟩
    exact ⟨t, ht.mono hd.wellFormed (fun _ _ => id) ((continues_enter faults l).trans hcontinues), hb⟩
  · exact ⟨s, hleads.mono (hd.enter faults l).wellFormed (fun _ _ => id) hcontinues, hend⟩

/-- Declarations that change neither states nor kinds. -/
theorem Lookups.of_state (h : d.Lookups) (hd : d.WellFormed)
    (hstate : ∀ s, d'.machine.state s = d.machine.state s)
    (hgrammar : d.grammar.Continues (fun _ => True) d'.grammar)
    (hsize : d.grammar.symbols.size ≤ d'.grammar.symbols.size)
    (hkinds : ∀ a, (d'.grammar.sym a).tokenKind = (d.grammar.sym a).tokenKind)
    (hliterals : d'.grammar.literals = d.grammar.literals) : d'.Lookups := by
  have hspares : d.Spares (fun _ => False) d' := by
    refine ⟨hsize, fun a _ => hkinds a, fun _ => False.elim,
      ⟨[], by simp, by rw [hliterals, List.append_nil]⟩, ?_, fun s a hend => ?_⟩
    · rintro a w ⟨t, ht, hend⟩
      refine ⟨t, ht.mono hd (fun s m hm => ?_) hgrammar, ?_⟩ <;> rwa [hstate]
    · rw [hstate] at hend
      exact .inl hend
  exact h.spares hspares fun _ => False.elim

/-- A literal is refused, gets a path of its own, or borrows an end. -/
theorem Lookups.addLiteral (h : d.Lookups) (hd : d.Sound)
    (hstart : (d.machine.state Machine.start).endOf = none) (hunused : d.Unused tok)
    (quoted : String) : (d.addLiteral quoted tok).Lookups := by
  have hlookups : ∀ ls : List Literal, (∀ l ∈ ls, l.sym = tok) →
      (d.addLiteral quoted tok).grammar.symbols = d.grammar.symbols →
      (d.addLiteral quoted tok).grammar.literals = d.grammar.literals ++ ls →
      (d.addLiteral quoted tok).Lookups := by
    intro ls hls hsymbols hliterals
    have hspares := hunused.spares_addLiteral hd.wellFormed hstart hsymbols hls hliterals
    exact h.spares hspares fun _ hown => hown ▸ hunused
  rcases d.addLiteral_inv quoted tok with
    hrefuses | ⟨text, faults, _, _, hown | ⟨s, a, hleads, hend, _, hborrow⟩⟩
  · -- the text of a refused literal may be in the table, but its token stays a fixed one
    obtain ⟨faults, ls, hls, heq⟩ := hrefuses.exists_eq
    refine hlookups ls hls ?_ ?_ <;> rw [heq]
    rfl
  · refine hlookups [⟨text, tok⟩] (by simp) ?_ ?_ <;> rw [hown, grammar_ownPath] <;> rfl
  · obtain ⟨ha, hkind⟩ := h.ends s a hend
    rw [hborrow]
    exact h.borrows (hunused.borrows hd ha hleads hend) hunused hkind

/-- As long as no token ends in the start state, the kinds of the tokens tell which of them share
ends with literals. -/
theorem DeclaredApart.lookups (h : d.DeclaredApart ok)
    (hstart : (d.machine.state Machine.start).endOf = none) : d.Lookups := by
  induction h with
  | @initial g _ hnone hfixed =>
    refine ⟨fun s a hend => ?_, fun a hkind => ?_, ?_⟩
    · cases s <;> cases hend
    · have hkind : (g.sym a).tokenKind = .clsLiteral := hkind
      rw [hfixed a] at hkind
      cases hkind
    · simp [hnone]
  | @token d h p _ tok hunused ih =>
    have hbefore := (edits_addToken d p tok).endOf_start_eq_none hstart
    refine (ih hbefore).spares (hunused.spares_addToken h.declared.sound.wellFormed hbefore p) ?_
    exact fun _ hown => hown ▸ hunused
  | @literal d h quoted tok hunused ih =>
    have hbefore := (edits_addLiteral d quoted tok).endOf_start_eq_none hstart
    exact (ih hbefore).addLiteral h.declared.sound hbefore hunused quoted
  | @comment d h start stop nested ih =>
    obtain ⟨faults, hgrammar⟩ := d.exists_grammar_addComment start stop nested
    rw [state_addComment] at hstart
    refine (ih hstart).of_state h.declared.sound.wellFormed (fun _ => state_addComment) ?_ ?_ ?_ ?_
    · rw [hgrammar]
      exact Grammar.continues_reportAll faults
    all_goals rw [hgrammar]
    · exact Nat.le_refl _
    · exact fun _ => rfl
    · rfl
  | @revise d h g _ hgrammar hsize hkinds hliterals ih =>
    exact (ih hstart).of_state h.declared.sound.wellFormed (fun _ => rfl) hgrammar hsize hkinds
      hliterals

/-! ## The table of the scanner -/

/-- The tokens that are looked up are the terminals which share an end with a literal; a pragma that
does is recognised in place of the literal.  The kinds tell, as long as no token ends in the start
state; none does if tokens are declared at nodes of complete structures.  Without an error it is the
end to which the text of the literal leads in the scanner. -/
theorem DeclaredApart.mem_classLiterals_iff (h : d.DeclaredApart ok) :
    let sc := d.toScanner.1
    let g := d.toScanner.2
    (∀ a, a ∈ sc.classLiterals ↔ a ∈ g.terminals ∧ (g.sym a).tokenKind = .clsLiteral) ∧
      (∀ a, a ∉ g.terminals → ∀ text, sc.classify a text = a) ∧
      ((d.machine.state Machine.start).endOf = none ∨ (∀ g p, ok g p → g.InStructure p) →
        (∀ a, (g.sym a).tokenKind = .clsLiteral → ∃ l ∈ sc.literals, d.Shares a l) ∧
        (∀ l ∈ sc.literals, ∃ a, (g.sym a).tokenKind = .clsLiteral ∧ d.Shares a l) ∧
        (g.diags.errors = d.grammar.diags.errors → ∀ a, (g.sym a).tokenKind = .clsLiteral ↔
          ∃ l ∈ sc.literals, ∃ q, sc.run Scanner.start l.text.toList = some q ∧
            (sc.state q).endOf = some a)) := by
  intro sc g
  have hmem : ∀ a, a ∈ sc.classLiterals ↔
      a ∈ g.terminals ∧ (g.sym a).tokenKind = .clsLiteral := by
    intro a
    rw [mem_classLiterals_toScanner, sym_toScanner, Grammar.terminals, Grammar.terminals,
      Grammar.mem_ofKind, Grammar.mem_ofKind, sym_toScanner, d.tables_toScanner.1]
  refine ⟨hmem, fun a ha text => ?_, fun hstart => ?_⟩
  · have hnot : a ∉ sc.classLiterals := fun hlooked => ha ((hmem a).1 hlooked).1
    rw [Scanner.classify, if_neg (by simpa using hnot)]
  · have hend : (d.machine.state Machine.start).endOf = none :=
      hstart.elim id fun hok => (h.declared.mono hok).endOf_start
    have hlookups := h.lookups hend
    have hwf := h.declared.sound.wellFormed
    have hliteral : ∀ a, (g.sym a).tokenKind = .clsLiteral → ∃ l ∈ sc.literals, d.Shares a l := by
      intro a hkind
      rw [sym_toScanner] at hkind
      obtain ⟨l, hl, hkind, hshares⟩ := hlookups.exists_literal a hkind
      exact ⟨l, mem_literals_toScanner.2 ⟨hl, hkind⟩, hshares⟩
    have hclass : ∀ l ∈ sc.literals, ∃ a, (g.sym a).tokenKind = .clsLiteral ∧ d.Shares a l := by
      intro l hl
      obtain ⟨hl, hkind⟩ := mem_literals_toScanner.1 hl
      obtain ⟨a, hkind, hshares⟩ := hlookups.exists_class l hl hkind
      exact ⟨a, (sym_toScanner a).symm ▸ hkind, hshares⟩
    refine ⟨hliteral, hclass, fun herrors a => ⟨fun hkind => ?_, ?_⟩⟩
    · obtain ⟨l, hl, hshares⟩ := hliteral a hkind
      exact ⟨l, hl, hwf.exists_run_toScanner (hwf.diags_eq_of_errors_eq herrors) hshares⟩
    · rintro ⟨l, hl, q, hrun, hfinal⟩
      have hclean := hwf.diags_eq_of_errors_eq herrors
      obtain ⟨b, hkind, hshares⟩ := hclass l hl
      -- the end belongs to one token only
      rw [h.declared.accepts_unique hclean (hwf.accepts_of_run hclean hrun hfinal) hshares]
      exact hkind

/-! ## A pragma that shares its end -/

/-- Letters and digits, a terminal for a letter, a pragma for a digit, and the terminals of two
literals. -/
def digits : Grammar :=
  let (letter, g) := Grammar.initial.declareClass "letter" (.ofRange 97 122)
  let (digit, g) := g.declareClass "digit" (.ofRange 48 57)
  let (name, g) := g.addLeaf { kind := .cls letter .main }
  let g := g.close name
  let (number, g) := g.addLeaf { kind := .cls digit .main }
  let g := g.close number
  let g := (g.declareSymbol .terminal "name" 1).2
  let g := (g.declareSymbol .pragma "number" 2).2
  let g := (g.declareSymbol .terminal "x" 3).2
  (g.declareSymbol .terminal "one" 4).2

/-- A literal for a letter and one for a digit. -/
def signs : Draft :=
  ((((⟨.initial, digits⟩ : Draft).addToken 0 1).addToken 1 2).addLiteral "\"x\"" 3).addLiteral
    "\"1\"" 4

theorem fit_digits : digits.Fit 1 := by
  refine Grammar.fit_of_isFresh (fun id => ?_) (by decide +kernel)
  match id with
  | 0 => exact canonical_letters
  | 1 => exact ⟨by decide, by decide⟩
  | id + 2 => exact CharSet.canonical_empty

theorem declaredApart_signs : signs.DeclaredApart Grammar.InStructure := by
  have hinitial : DeclaredApart Grammar.InStructure ⟨.initial, digits⟩ :=
    .initial fit_digits rfl (Grammar.fixed_of_forall (by decide +kernel))
  refine (((hinitial.token ?_ ?_).token ?_ ?_).literal _ ?_).literal _ ?_
  · refine ⟨.leaf 0, false, ⟨?_, ?_, ?_⟩, ?_, ?_⟩ <;> decide +kernel
  · apply unused_of_forall <;> decide +kernel
  · refine ⟨.leaf 1, false, ⟨?_, ?_, ?_⟩, ?_, ?_⟩ <;> decide +kernel
  · apply unused_of_forall <;> decide +kernel
  · apply unused_of_forall <;> decide +kernel
  · apply unused_of_forall <;> decide +kernel

/-- Both class tokens share an end with a literal, but only the terminal is looked up. -/
theorem DeclaredApart.mem_classLiterals_iff_digits :
    signs.DeclaredApart Grammar.InStructure ∧ 1 ∈ signs.toScanner.1.classLiterals ∧
      2 ∉ signs.toScanner.1.classLiterals ∧
      (∀ text, signs.toScanner.1.classify 2 text = 2) ∧
      (∃ l ∈ signs.toScanner.1.literals, signs.Shares 2 l) ∧
      ∃ l ∈ signs.toScanner.1.literals, ∃ q,
        signs.toScanner.1.run Scanner.start l.text.toList = some q ∧
          (signs.toScanner.1.state q).endOf = some 2 := by
  obtain ⟨hmem, hself, hshared⟩ := declaredApart_signs.mem_classLiterals_iff
  obtain ⟨hliteral, _, hends⟩ := hshared (.inr fun _ _ => id)
  have hpragma : 2 ∉ signs.toScanner.2.terminals := by decide +kernel
  have hkind : (signs.toScanner.2.sym 2).tokenKind = .clsLiteral := by decide +kernel
  exact ⟨declaredApart_signs, (hmem 1).2 (by decide +kernel), fun h => hpragma ((hmem 2).1 h).1,
    hself 2 hpragma, hliteral 2 hkind, (hends (by decide +kernel) 2).1 hkind⟩

/-- The scanner of the example recognises the pragma in a state and knows that its texts have to be
looked up, but it does not look them up: the literal for the digit is not found. -/
theorem DeclaredApart.not_mem_classLiterals_digits :
    signs.DeclaredApart Grammar.InStructure ∧
      (∃ q, (signs.toScanner.1.state q).endOf = some 2) ∧
      (signs.toScanner.2.sym 2).tokenKind = .clsLiteral ∧ 2 ∉ signs.toScanner.1.classLiterals ∧
      (⟨"1", 4⟩ : Literal) ∈ signs.toScanner.1.literals ∧
      (signs.toScanner.1.items 3 "x 1").1 = [.token 3 "x" 0 1, .token 2 "1" 2 3] :=
  ⟨declaredApart_signs, ⟨2, by decide +kernel⟩, by decide +kernel⟩

end Draft

end Ebnf
