import Ebnf.Proofs.Machine.Literals
import Ebnf.Proofs.Scanner.Ambiguity
import Ebnf.Proofs.Scanner.Items

/-!
# Literals in the input

The scanner of a machine finds every literal that the machine spells.  It reads the text to
its end, where it recognises the token of the literal or the class token that the literal
borrows from; there the literal is looked up in a table that is taken over from the grammar.

Main results:

- Theorem `Draft.toScanner_keeps`: the grammar only gets classes and complaints while the scanner
  is made.
- Theorem `Scanner.Plain.longest_of_run`: a text that leads to an end is one token.
- Theorem `Draft.DeclaredOnce.scans_literal`: every literal is scanned as itself.
-/

namespace Ebnf

/-! ## What making a scanner leaves alone -/

section Keeps

variable {P : Grammar → Prop} (hclass : ∀ g set, P g → P (g.declareClass "#" set).2)

include hclass

namespace Grammar

variable {g : Grammar}

theorem triggerFor_keeps (set : CharSet) (hg : P g) : P (g.triggerFor set).2 := by
  unfold triggerFor
  split
  · exact hg
  · unfold internClass
    dsimp only
    split
    · exact hg
    · exact hclass g set hg

theorem separateWithin_keeps (fuel : Nat) (ms : List Move) (hg : P g) :
    P (g.separateWithin fuel ms).2 := by
  have htrigger : ∀ {g g' : Grammar} {set : CharSet} {on : Trigger},
      g.triggerFor set = (on, g') → P g → P g' := by
    intro g g' set on hon hg
    have hkeeps := triggerFor_keeps hclass set hg
    rwa [hon] at hkeeps
  refine separateWithin_induction (P := fun g _ => P g) (fun g o _ hg => ?_) fuel hg
  obtain ⟨ns, hns, -⟩ := g.exists_resolves o
  generalize (g.resolve o).2 = g' at hns ⊢
  cases hns with
  | same => exact hg
  | first _ _ hon => exact htrigger hon hg
  | second _ _ hon => exact htrigger hon hg
  | neither _ _ honX honY honC => exact htrigger honC (htrigger honY (htrigger honX hg))

end Grammar

namespace Scanner

variable {g : Grammar}

theorem joinShifts_keeps (s : Shift) (ss : List Shift) (hg : P g) : P (joinShifts g s ss).2.2 := by
  induction ss generalizing g s with
  | nil => exact hg
  | cons t ss ih =>
    rw [joinShifts]
    split
    · exact ih _ (Grammar.triggerFor_keeps hclass _ hg)
    · exact ih s hg

theorem mergeAllShifts_grammar_keeps (sts : List ScannerState) (hg : P g) :
    P (mergeAllShifts g sts).2 := by
  have hmerge : ∀ fuel {g : Grammar} (ss : List Shift), P g →
      P (mergeShiftsWithin g fuel ss).2 := by
    intro fuel
    induction fuel with
    | zero => exact fun _ hg => hg
    | succ fuel ih =>
      intro g ss hg
      cases ss with
      | nil => exact hg
      | cons s ss => exact ih _ (joinShifts_keeps hclass s ss hg)
  induction sts generalizing g with
  | nil => exact hg
  | cons st sts ih => exact ih (hmerge _ st.shifts hg)

end Scanner

variable (hreport : ∀ g ds, P g → P (g.reportAll ds))

include hreport

theorem Merging.kept_grammar : Kept fun d => P d.grammar where
  mark _ hd := hd
  separate _ _ hd := Grammar.separateWithin_keeps hclass _ _ hd
  report _ _ hd := hreport _ _ hd
  add _ _ _ hm := hm
  retarget _ _ _ _ hm := hm

namespace Draft

variable {d : Draft}

/-- What further classes and complaints keep, making the scanner keeps. -/
theorem toScanner_keeps (hd : P d.grammar) : P d.toScanner.2 := by
  unfold toScanner
  exact Scanner.mergeAllShifts_grammar_keeps hclass _ ((Merging.kept_grammar hclass hreport).mergeStates hd)

end Draft

end Keeps

namespace Draft

variable {d : Draft} {a : SymbolId} {l : Literal}

/-- The symbols and literals of the grammar stay as they are. -/
theorem tables_toScanner (d : Draft) :
    d.toScanner.2.symbols = d.grammar.symbols ∧ d.toScanner.2.literals = d.grammar.literals := by
  have hclass : ∀ (g : Grammar) set, g.symbols = d.grammar.symbols ∧
      g.literals = d.grammar.literals → (g.declareClass "#" set).2.symbols = d.grammar.symbols ∧
      (g.declareClass "#" set).2.literals = d.grammar.literals := by
    intro g set hg
    rw [Grammar.grows_declareClass.eq]
    exact hg
  exact toScanner_keeps hclass (fun _ _ hg => hg) ⟨rfl, rfl⟩

theorem sym_toScanner (s : SymbolId) : d.toScanner.2.sym s = d.grammar.sym s := by
  rw [Grammar.sym, Grammar.sym, d.tables_toScanner.1]

/-- The literals that the scanner looks up. -/
theorem mem_literals_toScanner : l ∈ d.toScanner.1.literals ↔
    l ∈ d.grammar.literals ∧ (d.grammar.sym l.sym).tokenKind = .literal := by
  obtain ⟨sc, hsc⟩ := d.exists_withTables
  rw [hsc, Scanner.withTables, List.mem_filter, d.tables_toScanner.2, sym_toScanner, beq_iff_eq]

/-- The tokens whose texts the scanner looks up. -/
theorem mem_classLiterals_toScanner : a ∈ d.toScanner.1.classLiterals ↔
    a ∈ d.grammar.terminals ∧ (d.grammar.sym a).tokenKind = .clsLiteral := by
  obtain ⟨sc, hsc⟩ := d.exists_withTables
  rw [hsc, Scanner.withTables, List.mem_filter, Grammar.terminals, Grammar.terminals,
    Grammar.mem_ofKind, Grammar.mem_ofKind, sym_toScanner, d.tables_toScanner.1, beq_iff_eq]

end Draft

/-! ## One token -/

namespace Scanner

variable {sc : Scanner} {s q : StateId} {read cs : List Char} {best : Option Recognised}
  {a : SymbolId} {input : String}

/-- A text that leads to an end is one token. -/
theorem Plain.longest_of_run (h : sc.Plain) (hrun : sc.run s cs = some q)
    (hend : (sc.state q).endOf = some a) :
    sc.longest s read 0 best cs = some ⟨a, cs.reverse ++ read, []⟩ := by
  induction cs generalizing s read best with
  | nil =>
    obtain rfl := Option.some.inj hrun
    simp [longest, recognise?, hend]
  | cons c cs ih =>
    obtain ⟨shift, hfind, hrun⟩ := Option.bind_eq_some_iff.1 hrun
    rw [longest, hfind]
    dsimp only
    rw [h.nextAppendix_eq hfind, ih hrun]
    simp

/-- A text that begins with no gap is not skipped. -/
theorem skip_eq_self (h : ∀ k ∈ sc.comments, k.Delimited)
    (hgap : ∀ gap rest, sc.Gap gap → cs = gap ++ rest → gap = []) : sc.skip cs = cs := by
  obtain ⟨gap, hskipped, heq⟩ := exists_gap h cs
  rw [hgap gap _ hskipped heq] at heq
  exact heq.symm

/-- A text begins with no gap if it begins neither with an ignored character nor with a
delimiter. -/
theorem Gap.eq_nil {gap rest : List Char} (h : sc.Gap gap) (heq : cs = gap ++ rest)
    (hignored : ∀ c ∈ cs.head?, sc.isIgnored c = false)
    (hcomments : ∀ k ∈ sc.comments, startsWith k.start.toList cs = false) : gap = [] := by
  subst heq
  cases h with
  | nil => rfl
  | @ignored c _ hc _ =>
    rw [hignored c rfl] at hc
    cases hc
  | @comment k text behind hk htext _ =>
    obtain ⟨inside, _, rfl⟩ := htext
    have hstart : startsWith k.start.toList (k.start.toList ++ inside ++ behind ++ rest) = true :=
      startsWith_iff.2 ⟨inside ++ (behind ++ rest), by simp⟩
    rw [hcomments k hk] at hstart
    cases hstart

/-- An input that begins with no gap and leads to an end is scanned as one token. -/
theorem Plain.scans_of_run (h : sc.Plain) (hne : input ≠ "")
    (hgap : ∀ gap rest, sc.Gap gap → input.toList = gap ++ rest → gap = [])
    (hrun : sc.run start input.toList = some q) (hend : (sc.state q).endOf = some a) :
    sc.Scans input [.token (sc.classify a input) input 0 (byteLength input.toList)] := by
  have hskip := skip_eq_self h.delimited hgap
  have hnext : sc.next? 0 input.toList = some (.token (sc.classify a input) input 0
      (byteLength input.toList), byteLength input.toList, []) := by
    have hlongest : sc.longest start [] 0 none input.toList =
        some ⟨a, input.toList.reverse ++ [], []⟩ := h.longest_of_run hrun hend
    unfold next?
    rw [hskip]
    cases hcs : input.toList with
    | nil => exact absurd (String.toList_eq_nil_iff.1 hcs) hne
    | cons c cs =>
      rw [hcs] at hlongest
      dsimp only
      rw [hlongest]
      dsimp only
      rw [List.append_nil, List.reverse_reverse, ← hcs, String.ofList_toList, byteLength_reverse,
        Nat.sub_self, Nat.zero_add, Nat.zero_add]
  -- the input is used up behind the first item
  have htwo : sc.items 2 input = ([.token (sc.classify a input) input 0 (byteLength input.toList)],
      true) := by
    rw [items, itemsFrom, hnext]
    rfl
  obtain ⟨items, hscans⟩ := h.exists_items input
  have hitems := hscans.items_eq 2
  rw [htwo, Prod.mk.injEq, true_eq_decide_iff] at hitems
  have hall : items.take 2 = items := List.take_of_length_le (Nat.le_of_lt hitems.2)
  rw [hitems.1, hall]
  exact hscans

end Scanner

/-! ## Every literal -/

namespace Draft

variable {d : Draft} {a : SymbolId} {l : Literal}

/-- Unless tokens cannot be told apart, the scanner recognises a text as what the machine does. -/
theorem WellFormed.exists_run_toScanner {w : List Char} (h : d.WellFormed)
    (hclean : d.toScanner.2.diags = d.grammar.diags)
    (haccepts : d.Accepts a Machine.start (w.map Char.toNat)) :
    ∃ q, d.toScanner.1.run Scanner.start w = some q ∧ (d.toScanner.1.state q).endOf = some a := by
  obtain ⟨⟨R, htracks⟩, _⟩ := exists_tracks_toScanner h
  obtain ⟨hdefined, hstate⟩ := htracks.run (fun _ _ => triggers_toScanner) htracks.start w
  obtain ⟨s, hleads, hend⟩ := haccepts
  have hmem : s ∈ Scanner.afterText d (w.map Char.toNat) {Machine.start} := ⟨_, rfl, hleads⟩
  obtain ⟨q, hq⟩ := Option.isSome_iff_exists.1 (hdefined.2 ⟨s, hmem⟩)
  exact ⟨q, hq, (htracks.endOf_iff hclean (hstate q hq) a).2 ⟨s, hmem, hend⟩⟩

/-- Unless tokens cannot be told apart, the machine recognises a text as what the scanner does. -/
theorem WellFormed.accepts_of_run {w : List Char} {q : StateId} (h : d.WellFormed)
    (hclean : d.toScanner.2.diags = d.grammar.diags)
    (hrun : d.toScanner.1.run Scanner.start w = some q)
    (hend : (d.toScanner.1.state q).endOf = some a) :
    d.Accepts a Machine.start (w.map Char.toNat) := by
  obtain ⟨⟨R, htracks⟩, _⟩ := exists_tracks_toScanner h
  obtain ⟨_, hstate⟩ := htracks.run (fun _ _ => triggers_toScanner) htracks.start w
  obtain ⟨s, ⟨_, rfl, hleads⟩, hs⟩ := (htracks.endOf_iff hclean (hstate q hrun) a).1 hend
  exact ⟨s, hleads, hs⟩

/-- The scanner recognises the text of a literal as a token that is classified as the literal. -/
theorem Recorded.exists_classify (h : d.Recorded) (hl : l ∈ d.grammar.literals) :
    ∃ a, d.Accepts a Machine.start (l.text.toList.map Char.toNat) ∧
      d.toScanner.1.classify a l.text = l.sym := by
  obtain ⟨_, _, a, ha, haccepts, hkinds⟩ := h.spelled l hl
  refine ⟨a, haccepts, ?_⟩
  rcases hkinds with ⟨heq, hfixed⟩ | ⟨hclass, hliteral⟩
  · -- its own token is not looked up
    have hnot : ¬ a ∈ d.toScanner.1.classLiterals := by
      rw [mem_classLiterals_toScanner, hfixed]
      simp
    rw [Scanner.classify, if_neg (by simpa using hnot)]
    exact heq
  · have hmem : a ∈ d.toScanner.1.classLiterals := mem_classLiterals_toScanner.2 ⟨ha, hclass⟩
    have hlooked : l ∈ d.toScanner.1.literals := mem_literals_toScanner.2 ⟨hl, hliteral⟩
    rw [Scanner.classify, if_pos (by simpa using hmem)]
    have hsome : (d.toScanner.1.literals.find? fun l' => l'.text == l.text).isSome = true :=
      List.find?_isSome.2 ⟨l, hlooked, BEq.refl _⟩
    obtain ⟨found, hfound⟩ := Option.isSome_iff_exists.1 hsome
    have htext : found.text = l.text := by simpa using List.find?_some hfound
    have hfoundMem := (mem_literals_toScanner.1 (List.mem_of_find?_eq_some hfound)).1
    have heq : found = l := List.inj_on_of_nodup_map h.distinct hfoundMem hl htext
    rw [hfound, heq]
    rfl

/-- Every literal that begins with no gap is scanned as itself, if there is no error, no context,
and no token that ends in the start state; none does if tokens are declared at nodes of complete
structures. -/
theorem DeclaredOnce.scans_literal {ok : Grammar → NodeId → Prop} (h : d.DeclaredOnce ok)
    (hcontext : d.NoContext)
    (hstart : (d.machine.state Machine.start).endOf = none ∨ ∀ g p, ok g p → g.InStructure p)
    (hclean : d.toScanner.2.diags.errors = 0) (hl : l ∈ d.grammar.literals)
    (hgap : ∀ gap rest, d.toScanner.1.Gap gap → l.text.toList = gap ++ rest → gap = []) :
    d.toScanner.1.Scans l.text [.token l.sym l.text 0 (byteLength l.text.toList)] := by
  have hwf := h.declared.sound.wellFormed
  have hend : (d.machine.state Machine.start).endOf = none :=
    hstart.elim id fun hok => (h.declared.mono hok).endOf_start
  have hplain : d.Plain d.machine.comments := ⟨hwf.size_pos, hend, hcontext, rfl⟩
  -- no token was found that cannot be told from another one
  have hdiags : d.toScanner.2.diags = d.grammar.diags := by
    by_contra hne
    have hmore := (errors_lt_toScanner_iff hwf).2 hne
    omega
  have hrecorded := h.recorded (hdiags ▸ hclean) hend
  obtain ⟨a, haccepts, hclassify⟩ := hrecorded.exists_classify hl
  obtain ⟨q, hrun, hfinal⟩ := hwf.exists_run_toScanner hdiags haccepts
  have hscanner := hplain.toScanner hwf h.declared.delimited
  rw [← hclassify]
  exact hscanner.scans_of_run (hrecorded.spelled l hl).2.1 hgap hrun hfinal

/-- Identifiers of small letters, the terminals of two literals, and the delimiters of comments. -/
def words : Grammar :=
  let (letter, g) := Grammar.initial.declareClass "letter" (.ofRange 97 122)
  let (first, g) := g.addLeaf { kind := .cls letter .main }
  let (more, g) := g.addLeaf { kind := .cls letter .main }
  let (more, g) := g.iteration more
  let (ident, g) := g.sequence first more
  let g := g.close ident
  let g := (g.addString "\"/*\"" 1).2
  let g := (g.addString "\"*/\"" 1).2
  let g := (g.declareSymbol .terminal "ident" 1).2
  let g := (g.declareSymbol .terminal "if" 2).2
  (g.declareSymbol .terminal "slash" 3).2

/-- A literal with a path of its own, the identifiers, a literal that is one of them, and
comments. -/
def keywords : Draft :=
  ((((⟨.initial, words⟩ : Draft).addLiteral "\"/\"" 3).addToken 0 1).addLiteral
    "\"if\"" 2).addComment 3 5 true

theorem canonical_letters : (CharSet.ofRange 97 122).Canonical :=
  ⟨by decide, by decide⟩

theorem fit_words : words.Fit 1 := by
  refine Grammar.fit_of_isFresh (fun id => ?_) (by decide +kernel)
  match id with
  | 0 => exact canonical_letters
  | id + 1 => exact CharSet.canonical_empty

theorem declaredOnce_keywords : keywords.DeclaredOnce Grammar.InStructure := by
  have hinitial : DeclaredOnce Grammar.InStructure ⟨.initial, words⟩ := .initial fit_words rfl
  refine (((hinitial.literal _ ?_).token ?_ ?_).literal _ ?_).comment 3 5 true
  · apply fresh_of_forall <;> decide +kernel
  · refine ⟨.seq (.leaf 0) (.iter 2 (.leaf 1)), false,
      ⟨⟨?_, ?_, ?_⟩, ⟨?_, ?_⟩, ?_, ?_, ?_⟩, ?_, ?_⟩ <;> decide +kernel
  · apply fresh_of_forall <;> decide +kernel
  · apply fresh_of_forall <;> decide +kernel

/-- The literals of the example are scanned as themselves. -/
theorem DeclaredOnce.scans_literal_keywords :
    keywords.DeclaredOnce Grammar.InStructure ∧ keywords.NoContext ∧
      keywords.toScanner.2.diags.errors = 0 ∧
      keywords.toScanner.1.Scans "if" [.token 2 "if" 0 2] ∧
      keywords.toScanner.1.Scans "/" [.token 3 "/" 0 1] := by
  have hcontext : keywords.NoContext := noContext_of_forall (by decide +kernel)
  have hclean : keywords.toScanner.2.diags.errors = 0 := by decide +kernel
  have hcomments : keywords.toScanner.1.comments = [⟨"/*", "*/", true⟩] := by decide +kernel
  have hscans : ∀ l ∈ keywords.grammar.literals, startsWith ['/', '*'] l.text.toList = false →
      (∀ c ∈ l.text.toList.head?, keywords.toScanner.1.isIgnored c = false) →
      keywords.toScanner.1.Scans l.text [.token l.sym l.text 0 (byteLength l.text.toList)] := by
    intro l hl hstart hignored
    refine declaredOnce_keywords.scans_literal hcontext (.inr fun _ _ => id) hclean hl ?_
    intro gap rest hgap heq
    refine hgap.eq_nil heq hignored ?_
    rw [hcomments]
    exact List.forall_mem_singleton.2 hstart
  have hliterals : keywords.grammar.literals = [⟨"/", 3⟩, ⟨"if", 2⟩] := by decide +kernel
  have hletter : keywords.toScanner.1.isIgnored 'i' = false := by decide +kernel
  have hslash : keywords.toScanner.1.isIgnored '/' = false := by decide +kernel
  refine ⟨declaredOnce_keywords, hcontext, hclean, hscans ⟨"if", 2⟩ ?_ (by decide) ?_,
    hscans ⟨"/", 3⟩ ?_ (by decide) ?_⟩
  · simp [hliterals]
  · simpa using hletter
  · simp [hliterals]
  · simpa using hslash

end Draft

end Ebnf
