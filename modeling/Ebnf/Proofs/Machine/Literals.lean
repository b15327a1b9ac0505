import Ebnf.Proofs.Machine.Declared
import Ebnf.Proofs.Machine.Recognition

/-!
# Where literals end

Every token and every literal is declared with a terminal of its own.  As long as there is no
complaint, the text of a literal then leads from the start state to an end: to the end of its own
path, or to that of a class token which it borrows.  The kinds of the two tokens tell the cases
apart, and no later declaration changes this.

Main results:

- Theorem `Draft.addToken_keeps`: what declaring a token does to the grammar.
- Theorem `Draft.addLiteral_inv`: all that declaring a literal can do.
- Theorem `Draft.addLiteral_cases`: a literal is refused with an error, or it is spelled by the
  machine.
- Theorem `Draft.DeclaredOnce.recorded`: without errors, the machine spells all literals.
-/

namespace Ebnf

/-! ## What declarations leave alone -/

namespace Grammar

variable {g g' g'' : Grammar} {free : SymbolId → Prop}

/-- `g'` has the classes, terminals and errors of `g`, and maybe more.  Terminals keep their token
kind, unless they are `free` to change it. -/
structure Continues (g : Grammar) (free : SymbolId → Prop) (g' : Grammar) : Prop where
  size_le : g.classes.size ≤ g'.classes.size
  charClass_eq : ∀ id < g.classes.size, g'.charClass id = g.charClass id
  mem_terminals : ∀ s ∈ g.terminals, s ∈ g'.terminals
  tokenKind_eq : ∀ s ∈ g.terminals, ¬ free s → (g'.sym s).tokenKind = (g.sym s).tokenKind
  errors_le : g.diags.errors ≤ g'.diags.errors

theorem Continues.refl (g : Grammar) : g.Continues free g :=
  ⟨Nat.le_refl _, fun _ _ => rfl, fun _ => id, fun _ _ _ => rfl, Nat.le_refl _⟩

theorem Continues.trans (h : g.Continues free g') (h' : g'.Continues free g'') :
    g.Continues free g'' where
  size_le := Nat.le_trans h.size_le h'.size_le
  charClass_eq id hid := by
    rw [h'.charClass_eq id (Nat.lt_of_lt_of_le hid h.size_le), h.charClass_eq id hid]
  mem_terminals s hs := h'.mem_terminals s (h.mem_terminals s hs)
  tokenKind_eq s hs hfree := by
    rw [h'.tokenKind_eq s (h.mem_terminals s hs) hfree, h.tokenKind_eq s hs hfree]
  errors_le := Nat.le_trans h.errors_le h'.errors_le

theorem Continues.mono {free' : SymbolId → Prop} (h : g.Continues free g')
    (hfree : ∀ s, free s → free' s) : g.Continues free' g' where
  size_le := h.size_le
  charClass_eq := h.charClass_eq
  mem_terminals := h.mem_terminals
  tokenKind_eq s hs hnot := h.tokenKind_eq s hs (mt (hfree s) hnot)
  errors_le := h.errors_le

theorem Continues.triggers_eq {t : Trigger} (h : g.Continues free g') (ht : g.Knows t) (c : Nat) :
    g'.triggers t c = g.triggers t c := by
  cases t with
  | cls id => rw [triggers, triggers, h.charClass_eq id ht]
  | char b => rfl

theorem continues_reportAll (ds : List Diagnostic) : g.Continues free (g.reportAll ds) where
  size_le := Nat.le_refl _
  charClass_eq _ _ := rfl
  mem_terminals _ := id
  tokenKind_eq _ _ _ := rfl
  errors_le := errors_le_reportAll

theorem continues_modifyNode (p : NodeId) (f : Node → Node) : g.Continues free (g.modifyNode p f) :=
  ⟨Nat.le_refl _, fun _ _ => rfl, fun _ => id, fun _ _ _ => rfl, Nat.le_refl _⟩

/-- A symbol that is free to change its token kind does so. -/
theorem continues_modifySym {a : SymbolId} {f : Symbol → Symbol} (ha : free a)
    (hf : ∀ sym, (f sym).kind = sym.kind) : g.Continues free (g.modifySym a f) where
  size_le := Nat.le_refl _
  charClass_eq _ _ := rfl
  mem_terminals s hs := by
    rw [terminals, mem_ofKind] at hs ⊢
    rw [size_modifySym, modifySym_keeps Symbol.kind hf]
    exact hs
  tokenKind_eq s _ hfree := by
    have hne : s ≠ a := by
      intro heq
      apply hfree
      rwa [heq]
    rw [sym_modifySym_of_ne hne]
  errors_le := Nat.le_refl _

/-- A delimiter only adds complaints to the grammar. -/
theorem exists_delimiter_eq (g : Grammar) (p : NodeId) (line : Nat) :
    ∃ ds, (g.delimiter p line).2 = g.reportAll ds := by
  unfold delimiter
  dsimp only
  split
  · exact ⟨_, reportAll_reportAll⟩
  · exact ⟨_, rfl⟩

end Grammar

namespace Draft

variable {d d' : Draft} {tok a : SymbolId} {ends : StateId → Prop}
  {edge : StateId → StateId → Prop} {free : SymbolId → Prop} {s t : StateId} {w : List Nat}

section Keeps

variable {P : Grammar → Prop}
  (hstate : ∀ g p s, P g → P (g.modifyNode p fun n => { n with state := some s }))

include hstate

/-- What giving states to nodes keeps, the first pass over a token structure keeps. -/
theorem assignStates_keeps {fuel : Nat} {p : Option NodeId} {state : Option StateId}
    {renumber : Bool} (hd : P d.grammar)
    (hrun : assignStates tok fuel p state renumber d = some d') : P d'.grammar := by
  induction fuel generalizing p state renumber d d' with
  | zero =>
    cases p with
    | none => exact Option.some.inj hrun ▸ hd
    | some p =>
      rw [Draft.assignStates] at hrun
      split at hrun
      · exact Option.some.inj hrun ▸ hd
      · cases hrun
  | succ fuel ih =>
    cases p with
    | none => exact Option.some.inj hrun ▸ hd
    | some p =>
      rw [Draft.assignStates] at hrun
      dsimp only at hrun
      have hfirst : P (d.claimState tok p state renumber).2.grammar := hstate _ p _ hd
      split at hrun
      · exact Option.some.inj hrun ▸ hd
      · split at hrun
        · exact ih hfirst hrun
        · exact ih hfirst hrun
        · obtain ⟨d₁, hrun₁, hrun₂⟩ := Option.bind_eq_some_iff.1 hrun
          exact ih (ih hfirst hrun₁) hrun₂
        · obtain ⟨d₁, hrun₁, hrun₂⟩ := Option.bind_eq_some_iff.1 hrun
          exact ih (ih hfirst hrun₁) hrun₂
        · obtain ⟨d₁, hrun₁, hrun⟩ := Option.bind_eq_some_iff.1 hrun
          obtain ⟨d₂, hrun₂, hrun₃⟩ := Option.bind_eq_some_iff.1 hrun
          exact ih (ih (ih hfirst hrun₁) hrun₂) hrun₃
        · exact Option.some.inj hrun ▸ hfirst

/-- What complaining, giving states to nodes and making `tok` a class token keep, declaring the
token keeps. -/
theorem addToken_keeps (hreport : ∀ g ds, P g → P (g.reportAll ds))
    (hcls : ∀ g, P g → P (g.modifySym tok fun s => { s with tokenKind := .cls }))
    (hd : P d.grammar) (p : NodeId) : P (d.addToken p tok).grammar := by
  have hconnect : ∀ {d : Draft} source on part target, P d.grammar →
      P (d.connect tok source on part target).grammar := by
    intro d source on part target hd
    unfold Draft.connect
    dsimp only
    split
    · exact hcls _ hd
    · exact hd
  have hmeet : ∀ (d : Draft) demand, P d.grammar → P (d.meet tok demand).grammar := by
    intro d demand hd
    match demand with
    | .fault diag => exact hreport _ [diag] hd
    | .edge source on part (some target) => exact hconnect source on part target hd
    | .edge source on part none => exact hconnect source on part _ hd
  have hall : ∀ (demands : List Demand) (d : Draft), P d.grammar →
      P (demands.foldl (meet tok) d).grammar := by
    intro demands
    induction demands with
    | nil => exact fun _ => id
    | cons demand demands ih => exact fun d hd => ih _ (hmeet d demand hd)
  unfold Draft.addToken
  split
  · exact hreport _ [_] hd
  · dsimp only
    cases hrun : d.addTokenWithin _ _ p tok with
    | none => exact hd
    | some d' =>
      obtain ⟨d₁, hassign, hrun⟩ := Option.bind_eq_some_iff.1 hrun
      obtain ⟨demands, _, hrun⟩ := Option.bind_eq_some_iff.1 hrun
      rw [Option.getD_some, ← Option.some.inj hrun]
      exact hall demands d₁ (assignStates_keeps hstate hd hassign)

end Keeps

/-- Declaring a token may change the kind of this token only. -/
theorem continues_addToken (d : Draft) (p : NodeId) (tok : SymbolId) :
    d.grammar.Continues (· = tok) (d.addToken p tok).grammar := by
  refine addToken_keeps (P := fun g => d.grammar.Continues (· = tok) g) ?_ ?_ ?_ (.refl _) p
  · exact fun _ p _ h => h.trans (Grammar.continues_modifyNode p _)
  · exact fun _ ds h => h.trans (Grammar.continues_reportAll ds)
  · exact fun _ h => h.trans (Grammar.continues_modifySym rfl fun _ => rfl)

theorem literals_addToken (d : Draft) (p : NodeId) (tok : SymbolId) :
    (d.addToken p tok).grammar.literals = d.grammar.literals :=
  addToken_keeps (P := fun g => g.literals = d.grammar.literals) (fun _ _ _ => id) (fun _ _ => id)
    (fun _ => id) rfl p

/-- Declaring a token does not change the kind of another one. -/
theorem tokenKind_addToken_of_ne (p : NodeId) (hne : a ≠ tok) :
    ((d.addToken p tok).grammar.sym a).tokenKind = (d.grammar.sym a).tokenKind := by
  refine addToken_keeps (P := fun g => (g.sym a).tokenKind = (d.grammar.sym a).tokenKind)
    (fun _ _ _ => id) (fun _ _ => id) (fun g hg => ?_) rfl p
  rw [Grammar.sym_modifySym_of_ne hne]
  exact hg

/-- Declaring a token does not make it one of a literal that is looked up, nor one whose texts
are. -/
theorem tokenKind_addToken_cases (p : NodeId) (h : (d.grammar.sym tok).tokenKind = .fixed) :
    ((d.addToken p tok).grammar.sym tok).tokenKind = .fixed ∨
      ((d.addToken p tok).grammar.sym tok).tokenKind = .cls := by
  refine addToken_keeps
    (P := fun g => (g.sym tok).tokenKind = .fixed ∨ (g.sym tok).tokenKind = .cls)
    (fun _ _ _ => id) (fun _ _ => id) (fun g hg => ?_) (.inl h) p
  rw [Grammar.sym_modifySym]
  split
  · exact .inr rfl
  · exact hg

theorem tokenKind_addToken (p : NodeId) (h : (d.grammar.sym tok).tokenKind = .fixed) :
    ((d.addToken p tok).grammar.sym tok).tokenKind ≠ .literal := by
  rcases tokenKind_addToken_cases p h with hkind | hkind <;> simp [hkind]

theorem size_symbols_addToken (d : Draft) (p : NodeId) (tok : SymbolId) :
    (d.addToken p tok).grammar.symbols.size = d.grammar.symbols.size :=
  addToken_keeps (P := fun g => g.symbols.size = d.grammar.symbols.size) (fun _ _ _ => id)
    (fun _ _ => id) (fun _ hg => Grammar.size_modifySym.trans hg) rfl p

/-! ## What stays recognised -/

theorem Edit.mem_moves {m : Move} (h : Edit tok ends edge d d')
    (hm : m ∈ (d.machine.state s).moves) : m ∈ (d'.machine.state s).moves := by
  cases h with
  | grammar => exact hm
  | state =>
    dsimp only
    rw [Machine.state_addState]
    split
    next hs =>
      -- there are no moves where there is no state yet
      have hnone : d.machine.state s = default := by simp [Machine.state, hs]
      rw [hnone] at hm
      cases hm
    next => exact hm
  | final =>
    dsimp only
    rw [Machine.state_modifyState]
    split <;> exact hm
  | move =>
    rw [state_connect]
    split
    · exact Grammar.mem_addMove.2 (.inr hm)
    · exact hm

theorem Edits.mem_moves {m : Move} (h : Edits tok ends edge d d')
    (hm : m ∈ (d.machine.state s).moves) : m ∈ (d'.machine.state s).moves :=
  h.keeps (P := fun d' => m ∈ (d'.machine.state s).moves) (fun _ hedit => hedit.mem_moves) hm

/-- A text leads where it led before, if no move is lost. -/
theorem Leads.mono (hleads : d.Leads s w t) (hd : d.WellFormed)
    (hmoves : ∀ s, ∀ m ∈ (d.machine.state s).moves, m ∈ (d'.machine.state s).moves)
    (hgrammar : d.grammar.Continues free d'.grammar) : d'.Leads s w t := by
  induction w generalizing s with
  | nil => exact hleads
  | cons c w ih =>
    obtain ⟨u, ⟨m, hm, hon, hu⟩, hrest⟩ := hleads
    have hon' : d'.grammar.triggers m.on c = true := by
      rw [hgrammar.triggers_eq (hd.knows s m hm)]
      exact hon
    exact ⟨u, ⟨m, hmoves s m hm, hon', hu⟩, ih hrest⟩

theorem lt_size_of_endOf (hend : (d.machine.state s).endOf = some a) :
    s < d.machine.states.size := by
  by_contra hs
  have hnone : d.machine.state s = default := by simp [Machine.state, hs]
  rw [hnone] at hend
  cases hend

/-- Where a token ends, one still ends afterwards. -/
theorem Edit.endOf_ne_none (h : Edit tok ends edge d d') (hend : (d.machine.state s).endOf ≠ none) :
    (d'.machine.state s).endOf ≠ none := by
  obtain ⟨a, ha⟩ := Option.ne_none_iff_exists'.1 hend
  cases h with
  | grammar => exact hend
  | state =>
    dsimp only
    rw [Machine.state_addState, if_neg (Nat.ne_of_lt (lt_size_of_endOf ha))]
    exact hend
  | final =>
    dsimp only
    rw [Machine.state_modifyState]
    split
    · simp
    · exact hend
  | move =>
    rw [endOf_connect]
    exact hend

/-- In the states that there are already, apart from the start state, tokens end as before. -/
theorem Edits.endOf_eq (h : Edits tok ends edge d d')
    (hends : ∀ u, ends u → d.machine.states.size ≤ u ∨ u = Machine.start) (hs : s ≠ Machine.start)
    (hend : (d.machine.state s).endOf = some a) : (d'.machine.state s).endOf = some a := by
  have hlt := lt_size_of_endOf hend
  refine h.keeps (P := fun d' => (d'.machine.state s).endOf = some a)
    (fun hle hedit hend => ?_) hend
  cases hedit with
  | grammar => exact hend
  | state =>
    dsimp only
    rw [Machine.state_addState, if_neg (Nat.ne_of_lt (Nat.lt_of_lt_of_le hlt hle))]
    exact hend
  | @final u hu =>
    have hne : s ≠ u := by
      intro heq
      rcases hends u hu with hge | hstart
      · exact Nat.not_le.2 (heq ▸ hlt) hge
      · exact hs (heq.trans hstart)
    dsimp only
    rw [Machine.state_modifyState, if_neg (hne ·.1)]
    exact hend
  | move => exact endOf_connect.trans hend

theorem Edits.endOf_cases (h : Edits tok ends edge d d')
    (hend : (d'.machine.state s).endOf = some a) :
    (d.machine.state s).endOf = some a ∨ a = tok := by
  refine h.keeps (P := fun d' => (d'.machine.state s).endOf = some a →
    (d.machine.state s).endOf = some a ∨ a = tok) (fun _ hedit ih hend => ?_) .inl hend
  rcases hedit.endOf_cases hend with hend | ⟨heq, _⟩
  · exact ih hend
  · exact .inr heq

/-- What leads to an end of a token still does, if no token ends in the start state. -/
theorem Edits.accepts_mono (h : Edits tok ends edge d d')
    (hends : ∀ u, ends u → d.machine.states.size ≤ u ∨ u = Machine.start) (hd : d.WellFormed)
    (hstart : (d.machine.state Machine.start).endOf = none)
    (hgrammar : d.grammar.Continues free d'.grammar) (haccepts : d.Accepts a Machine.start w) :
    d'.Accepts a Machine.start w := by
  obtain ⟨s, hleads, hend⟩ := haccepts
  have hs : s ≠ Machine.start := by
    intro heq
    rw [heq, hstart] at hend
    cases hend
  exact ⟨s, hleads.mono hd (fun _ _ => h.mem_moves) hgrammar, h.endOf_eq hends hs hend⟩

/-- A declaration of the token `tok`: what was recognised before still is, nothing but `tok` is
recognised in addition, and another token changes its kind only when a literal borrows one of its
ends. -/
structure Declares (d : Draft) (tok : SymbolId) (d' : Draft) : Prop where
  accepts : ∀ a w, d.Accepts a Machine.start w → d'.Accepts a Machine.start w
  endOf_cases : ∀ s a, (d'.machine.state s).endOf = some a →
    (d.machine.state s).endOf = some a ∨ a = tok
  mem_terminals : ∀ a ∈ d.grammar.terminals, a ∈ d'.grammar.terminals
  tokenKind_cases : ∀ a ∈ d.grammar.terminals, a ≠ tok →
    (d'.grammar.sym a).tokenKind = (d.grammar.sym a).tokenKind ∨
      (∃ s, (d.machine.state s).endOf = some a) ∧ (d.grammar.sym a).tokenKind ≠ .fixed ∧
        (d'.grammar.sym a).tokenKind = .clsLiteral

/-- Changes that give ends to new states only, while no other token than `tok` changes its kind,
except one whose end is borrowed. -/
theorem Edits.declares (h : Edits tok ends edge d d')
    (hends : ∀ u, ends u → d.machine.states.size ≤ u ∨ u = Machine.start) (hd : d.WellFormed)
    (hstart : (d.machine.state Machine.start).endOf = none)
    (hgrammar : d.grammar.Continues free d'.grammar)
    (hfree : ∀ a, free a → a ≠ tok → (∃ s, (d.machine.state s).endOf = some a) ∧
      (d.grammar.sym a).tokenKind ≠ .fixed ∧ (d'.grammar.sym a).tokenKind = .clsLiteral) :
    d.Declares tok d' where
  accepts _ _ haccepts := h.accepts_mono hends hd hstart hgrammar haccepts
  endOf_cases s a hend := h.endOf_cases hend
  mem_terminals := hgrammar.mem_terminals
  tokenKind_cases a ha hne := by
    by_cases hfreed : free a
    · exact .inr (hfree a hfreed hne)
    · exact .inl (hgrammar.tokenKind_eq a ha hfreed)

/-! ## Literals that are spelled -/

/-- The text of the literal leads to an end of its own token, or to an end of a class token whose
texts are looked up. -/
def Spelled (d : Draft) (l : Literal) : Prop :=
  l.sym ∈ d.grammar.terminals ∧ l.text ≠ "" ∧
    ∃ a ∈ d.grammar.terminals, d.Accepts a Machine.start (l.text.toList.map Char.toNat) ∧
      (a = l.sym ∧ (d.grammar.sym a).tokenKind = .fixed ∨
        (d.grammar.sym a).tokenKind = .clsLiteral ∧ (d.grammar.sym l.sym).tokenKind = .literal)

/-- The machine spells all literals, their texts differ, and only terminals that are not looked up
end in its states. -/
structure Recorded (d : Draft) : Prop where
  ends : ∀ s a, (d.machine.state s).endOf = some a →
    a ∈ d.grammar.terminals ∧ (d.grammar.sym a).tokenKind ≠ .literal
  spelled : ∀ l ∈ d.grammar.literals, d.Spelled l
  distinct : (d.grammar.literals.map Literal.text).Nodup

/-- The terminal is not declared as a token or literal yet. -/
structure Fresh (d : Draft) (tok : SymbolId) : Prop where
  terminal : tok ∈ d.grammar.terminals
  fixed : (d.grammar.sym tok).tokenKind = .fixed
  not_ends : ∀ s, (d.machine.state s).endOf ≠ some tok
  not_literal : ∀ l ∈ d.grammar.literals, l.sym ≠ tok

theorem endOf_ne_of_forall (h : ∀ st ∈ d.machine.states.toList, st.endOf ≠ some a) (s : StateId) :
    (d.machine.state s).endOf ≠ some a := by
  intro hend
  have hs := lt_size_of_endOf hend
  refine h (d.machine.state s) ?_ hend
  simp [Machine.state, hs]

theorem fresh_of_forall (hterminal : tok ∈ d.grammar.terminals)
    (hfixed : (d.grammar.sym tok).tokenKind = .fixed)
    (hends : ∀ st ∈ d.machine.states.toList, st.endOf ≠ some tok)
    (hliteral : ∀ l ∈ d.grammar.literals, l.sym ≠ tok) : d.Fresh tok :=
  ⟨hterminal, hfixed, endOf_ne_of_forall hends, hliteral⟩

theorem Declares.tokenKind_ne (h : d.Declares tok d') (hd : d.Recorded) (hfresh : d.Fresh tok)
    (hkind : ∀ s, (d'.machine.state s).endOf = some tok → (d'.grammar.sym tok).tokenKind ≠ .literal)
    (s : StateId) (a : SymbolId) (hend : (d'.machine.state s).endOf = some a) :
    a ∈ d'.grammar.terminals ∧ (d'.grammar.sym a).tokenKind ≠ .literal := by
  by_cases hne : a = tok
  · subst hne
    exact ⟨h.mem_terminals a hfresh.terminal, hkind s hend⟩
  · have hold := (h.endOf_cases s a hend).resolve_right hne
    obtain ⟨hterminal, hliteral⟩ := hd.ends s a hold
    refine ⟨h.mem_terminals a hterminal, ?_⟩
    rcases h.tokenKind_cases a hterminal hne with hsame | ⟨_, _, hborrowed⟩
    · rwa [hsame]
    · simp [hborrowed]

/-- A literal stays spelled when another token is declared. -/
theorem Declares.spelled {l : Literal} (h : d.Declares tok d') (hd : d.Recorded)
    (hfresh : d.Fresh tok) (hl : l ∈ d.grammar.literals) : d'.Spelled l := by
  obtain ⟨hsym, htext, a, ha, haccepts, hkinds⟩ := hd.spelled l hl
  have hend : ∃ s, (d.machine.state s).endOf = some a := by
    obtain ⟨s, _, hend⟩ := haccepts
    exact ⟨s, hend⟩
  have hatok : a ≠ tok := by
    obtain ⟨s, hend⟩ := hend
    intro heq
    exact hfresh.not_ends s (heq ▸ hend)
  refine ⟨h.mem_terminals _ hsym, htext, a, h.mem_terminals a ha, h.accepts a _ haccepts, ?_⟩
  rcases hkinds with ⟨heq, hfixed⟩ | ⟨hclass, hliteral⟩
  · -- the end of a path of its own is never borrowed
    refine .inl ⟨heq, ?_⟩
    rcases h.tokenKind_cases a ha hatok with hsame | ⟨_, hnot, _⟩
    · rw [hsame, hfixed]
    · exact absurd hfixed hnot
  · refine .inr ⟨?_, ?_⟩
    · rcases h.tokenKind_cases a ha hatok with hsame | ⟨_, _, hborrowed⟩
      · rw [hsame, hclass]
      · exact hborrowed
    · rcases h.tokenKind_cases _ hsym (hfresh.not_literal l hl) with hsame | ⟨hends, _, _⟩
      · rw [hsame, hliteral]
      · obtain ⟨s, hs⟩ := hends
        exact absurd hliteral (hd.ends s _ hs).2

/-! ## Declaring a literal -/

/-- Each step of a walk through the machine is one that a text can take. -/
theorem leads_of_follow {part part' : Option Part}
    (h : d.machine.follow d.grammar s part w = some (t, part')) : d.Leads s w t := by
  induction w generalizing s part with
  | nil => exact congrArg Prod.fst (Option.some.inj h)
  | cons c w ih =>
    rw [Machine.follow] at h
    obtain ⟨move, hfind, h⟩ := Option.bind_eq_some_iff.1 h
    obtain ⟨target, hmin, h⟩ := Option.bind_eq_some_iff.1 h
    have hon : d.grammar.triggers move.on c = true :=
      List.find?_some (p := fun move : Move => d.grammar.triggers move.on c) hfind
    have htarget : target ∈ move.targets := BitSet.mem_toList.1 (List.mem_of_mem_head? hmin)
    exact ⟨target, ⟨move, List.mem_of_find?_eq_some hfind, hon, htarget⟩, ih h⟩

theorem WellFormed.lt_of_leads (h : d.WellFormed) (hs : s < d.machine.states.size)
    (hleads : d.Leads s w t) : t < d.machine.states.size := by
  induction w generalizing s with
  | nil => exact hleads ▸ hs
  | cons c w ih =>
    obtain ⟨u, hstep, hrest⟩ := hleads
    exact ih (h.lt_of_steps hstep) hrest

theorem addPath_cons {c : Nat} : d.addPath tok s (c :: w) =
    (Draft.connect { d with machine := (d.machine.addState {}).2 } tok s (.char c) .main
      d.machine.states.size).addPath tok d.machine.states.size w :=
  rfl

theorem grammar_addPath : (d.addPath tok s w).2.grammar = d.grammar := by
  induction w generalizing d s with
  | nil => rfl
  | cons c w ih =>
    rw [addPath_cons]
    exact ih

theorem endOf_addPath :
    ((d.addPath tok s w).2.machine.state t).endOf = (d.machine.state t).endOf := by
  induction w generalizing d s with
  | nil => rfl
  | cons c w ih =>
    rw [addPath_cons, ih, endOf_connect, Machine.state_addState]
    split
    next ht => simp [Machine.state, ht]; rfl
    next => rfl

/-- The last state of a path is new, so nothing ends there yet. -/
theorem endOf_addPath_last (hw : w ≠ []) :
    ((d.addPath tok Machine.start w).2.machine.state
      (d.addPath tok Machine.start w).1).endOf = none := by
  obtain ⟨_, hlast⟩ := edits_addPath tok d (Nat.le_refl _) (.inl rfl) w
  rw [endOf_addPath]
  simp [Machine.state, hlast hw]
  rfl

/-- The text leads along the path that is added for it. -/
theorem Sound.leads_addPath (hd : d.Sound) (tok : SymbolId) (hs : s < d.machine.states.size)
    (w : List Nat) : (d.addPath tok s w).2.Leads s w (d.addPath tok s w).1 := by
  induction w generalizing d s with
  | nil => rfl
  | cons c w ih =>
    rw [addPath_cons]
    have hstate : d.Extends { d with machine := (d.machine.addState {}).2 } := hd.addState rfl
    have hlt : d.machine.states.size < (d.machine.addState {}).2.states.size :=
      Nat.lt_of_lt_of_eq (Nat.lt_succ_self _) Machine.size_addState.symm
    have hmove := hstate.sound.connect tok s (.char c) .main trivial hlt
    generalize hd₁ : Draft.connect _ tok s (.char c) .main _ = d₁ at hmove ⊢
    have hstep : d₁.Steps s c d.machine.states.size := by
      rw [← hd₁]
      refine (steps_connect (Nat.lt_trans hs hlt)).2 (.inr ⟨rfl, ?_, rfl⟩)
      exact beq_self_eq_true c
    have hsize : d.machine.states.size < d₁.machine.states.size :=
      Nat.lt_of_lt_of_le hlt hmove.size_le
    -- the rest of the path keeps the first move
    obtain ⟨hedits, _⟩ := edits_addPath tok d₁ (Nat.le_of_lt hsize) (.inr (Nat.le_refl _)) w
    have hfirst : d₁.Leads s [c] d.machine.states.size := ⟨_, hstep, rfl⟩
    have hgrammar : d₁.grammar.Continues (fun _ => False)
        (d₁.addPath tok d.machine.states.size w).2.grammar := by
      rw [grammar_addPath]
      exact .refl _
    obtain ⟨u, hstep, rfl⟩ :=
      hfirst.mono hmove.sound.wellFormed (fun _ _ => hedits.mem_moves) hgrammar
    exact ⟨_, hstep, ih hmove.sound hsize⟩

/-- The draft with one more literal in its table, and complaints about how it is written. -/
def enter (d : Draft) (faults : List Diagnostic) (l : Literal) : Draft :=
  { d with grammar := { d.grammar.reportAll faults with literals := d.grammar.literals ++ [l] } }

/-- The token `tok` gets an end in a state. -/
def endIn (d : Draft) (tok : SymbolId) (s : StateId) : Draft :=
  { d with machine := d.machine.modifyState s fun st => { st with endOf := some tok } }

/-- The token `tok` gets a path for a text, with an end. -/
def ownPath (d : Draft) (tok : SymbolId) (w : List Nat) : Draft :=
  let (s, d) := d.addPath tok Machine.start w
  d.endIn tok s

/-- The token `tok` is looked up among the texts of the class token `a`. -/
def borrow (d : Draft) (tok a : SymbolId) : Draft :=
  let g := d.grammar.modifySym a fun s => { s with tokenKind := .clsLiteral }
  { d with grammar := g.modifySym tok fun s => { s with tokenKind := .literal } }

theorem errors_lt_report (h : d.grammar.diags.errors ≤ d'.grammar.diags.errors) (line : Nat)
    (cause : Cause) :
    d.grammar.diags.errors < (d'.report (.errorOn line cause)).grammar.diags.errors := by
  have herrors : (d'.report (.errorOn line cause)).grammar.diags.errors =
      d'.grammar.diags.errors + 1 := Diagnostics.errors_append
  omega

theorem errors_le_enter (d : Draft) (faults : List Diagnostic) (l : Literal) :
    d.grammar.diags.errors ≤ (d.enter faults l).grammar.diags.errors :=
  Grammar.errors_le_reportAll

theorem Sound.enter (hd : d.Sound) (faults : List Diagnostic) (l : Literal) :
    (d.enter faults l).Sound :=
  (hd.withGrammar (g := (d.enter faults l).grammar) rfl rfl).sound

theorem grammar_ownPath : (d.ownPath tok w).grammar = d.grammar :=
  grammar_addPath

/-- The token is recognised at the end of its path. -/
theorem Sound.accepts_ownPath (hd : d.Sound) (tok : SymbolId) (w : List Nat) :
    (d.ownPath tok w).Accepts tok Machine.start w := by
  have hleads := hd.leads_addPath (s := Machine.start) tok hd.wellFormed.size_pos w
  have hpath := (hd.addPath tok Machine.start w).sound.wellFormed
  unfold ownPath
  generalize d.addPath tok Machine.start w = r at hleads hpath ⊢
  obtain ⟨s, d₁⟩ := r
  have hs : s < d₁.machine.states.size := hpath.lt_of_leads hpath.size_pos hleads
  have hedits : Edits tok (fun _ => True) (fun _ _ => True) d₁ (d₁.endIn tok s) :=
    .single (.final d₁ trivial)
  have hgrammar : d₁.grammar.Continues (fun _ => False) (d₁.endIn tok s).grammar := .refl _
  refine ⟨s, hleads.mono hpath (fun _ _ => hedits.mem_moves) hgrammar, ?_⟩
  unfold endIn
  dsimp only
  rw [Machine.state_modifyState, if_pos ⟨rfl, hs⟩]

/-- A literal of the token `tok` is refused: there is an error more, and nothing else changes except
that the text may be in the table. -/
structure Refuses (d : Draft) (tok : SymbolId) (d' : Draft) : Prop where
  errors_lt : d.grammar.diags.errors < d'.grammar.diags.errors
  exists_eq : ∃ faults ls, (∀ l ∈ ls, l.sym = tok) ∧ d' =
    { d with grammar := { d.grammar.reportAll faults with literals := d.grammar.literals ++ ls } }

theorem refuses_report (d : Draft) (tok : SymbolId) (faults : List Diagnostic) (line : Nat)
    (cause : Cause) : d.Refuses tok
      (Draft.report { d with grammar := d.grammar.reportAll faults } (.errorOn line cause)) := by
  refine ⟨errors_lt_report Grammar.errors_le_reportAll _ _,
    faults ++ [.errorOn line cause], [], by simp, ?_⟩
  rw [← Grammar.reportAll_reportAll, List.append_nil]
  rfl

theorem refuses_enter {faults : List Diagnostic} {l : Literal}
    (h : (d.enter faults l).Refuses l.sym d') : d.Refuses l.sym d' := by
  obtain ⟨hlt, faults', ls, hls, heq⟩ := h
  refine ⟨Nat.lt_of_le_of_lt (d.errors_le_enter faults l) hlt, faults ++ faults', l :: ls,
    List.forall_mem_cons.2 ⟨rfl, hls⟩, heq.trans ?_⟩
  unfold enter
  dsimp only
  rw [List.append_assoc, ← Grammar.reportAll_reportAll]
  rfl

/-- All that a literal can do once its text is placed: it is refused, it ends on a path of its own,
or it borrows the end of a class token. -/
theorem endLiteral_cases {part : Option Part} (hw : w ≠ [])
    (hplace : d.placeLiteral tok w = (s, part, d')) :
    d.Refuses tok (d'.endLiteral tok s part) ∨
    d'.endLiteral tok s part = d.ownPath tok w ∨
    ∃ a, d.Leads Machine.start w s ∧ (d.machine.state s).endOf = some a ∧
      (d.grammar.sym a).tokenKind ≠ .fixed ∧ d'.endLiteral tok s part = d.borrow tok a := by
  unfold placeLiteral at hplace
  dsimp only at hplace
  split at hplace
  next hknown =>
    cases hplace
    obtain ⟨hfollow, hend⟩ := Option.filter_eq_some_iff.1 hknown
    obtain ⟨a, ha⟩ := Option.isSome_iff_exists.1 hend
    unfold endLiteral
    rw [ha]
    dsimp only
    split
    · refine .inl ?_
      have hrefuses := d.refuses_report tok [] (d.grammar.sym tok).line
        (.indistinguishable (d.grammar.sym tok).name (d.grammar.sym a).name)
      rwa [Grammar.reportAll, List.append_nil] at hrefuses
    next hkind =>
      rw [not_or] at hkind
      exact .inr (.inr ⟨a, leads_of_follow hfollow, rfl, hkind.1, rfl⟩)
  next =>
    cases hplace
    unfold endLiteral
    rw [endOf_addPath_last hw]
    exact .inr (.inl rfl)

/-- All that declaring a literal can do. -/
theorem addLiteral_inv (d : Draft) (quoted : String) (tok : SymbolId) :
    d.Refuses tok (d.addLiteral quoted tok) ∨
    ∃ text faults, text ≠ "" ∧ (∀ l ∈ d.grammar.literals, l.text ≠ text) ∧
      (d.addLiteral quoted tok =
          (d.enter faults ⟨text, tok⟩).ownPath tok (text.toList.map Char.toNat) ∨
        ∃ s a, (d.enter faults ⟨text, tok⟩).Leads Machine.start (text.toList.map Char.toNat) s ∧
          (d.machine.state s).endOf = some a ∧ (d.grammar.sym a).tokenKind ≠ .fixed ∧
          d.addLiteral quoted tok = (d.enter faults ⟨text, tok⟩).borrow tok a) := by
  unfold Draft.addLiteral
  dsimp only
  split
  · exact .inl (d.refuses_report tok _ _ _)
  next hempty =>
    have htext : (d.grammar.readQuoted quoted).1 ≠ "" := by simpa using hempty
    split
    next => exact .inl (d.refuses_report tok _ _ _)
    next g hadd =>
      obtain ⟨hnew, rfl⟩ := Grammar.addLiteral?_eq_some hadd
      obtain ⟨text, htext_eq⟩ : ∃ text, (d.grammar.readQuoted quoted).1 = text := ⟨_, rfl⟩
      rw [htext_eq] at htext hnew ⊢
      have henter : ({ d with grammar := { (d.grammar.readQuoted quoted).2 with
          literals := (d.grammar.readQuoted quoted).2.literals ++ [⟨text, tok⟩] } } : Draft) =
          d.enter ((Escape.unescapeQuoted quoted).2.map fun f => .error (.escape f))
            ⟨text, tok⟩ := rfl
      rw [henter]
      generalize List.map _ (Escape.unescapeQuoted quoted).2 = faults
      have hw : text.toList.map Char.toNat ≠ [] := by simpa using htext
      obtain ⟨⟨s, part, d₁⟩, hplace⟩ :
          ∃ r, (d.enter faults ⟨text, tok⟩).placeLiteral tok (text.toList.map Char.toNat) = r :=
        ⟨_, rfl⟩
      rw [hplace]
      dsimp only
      rcases endLiteral_cases hw hplace with hrefuses | hown | ⟨a, hleads, hend, hkind, hborrow⟩
      · exact .inl (refuses_enter (l := ⟨text, tok⟩) hrefuses)
      · exact .inr ⟨text, faults, htext, hnew, .inl hown⟩
      · exact .inr ⟨text, faults, htext, hnew, .inr ⟨s, a, hleads, hend, hkind, hborrow⟩⟩

theorem continues_enter (faults : List Diagnostic) (l : Literal) :
    d.grammar.Continues free (d.enter faults l).grammar where
  size_le := Nat.le_refl _
  charClass_eq _ _ := rfl
  mem_terminals _ := id
  tokenKind_eq _ _ _ := rfl
  errors_le := d.errors_le_enter faults l

theorem continues_borrow (tok a : SymbolId) :
    d.grammar.Continues (fun b => b = a ∨ b = tok) (d.borrow tok a).grammar := by
  have hclass : d.grammar.Continues (fun b => b = a ∨ b = tok)
      (d.grammar.modifySym a fun s => { s with tokenKind := .clsLiteral }) :=
    Grammar.continues_modifySym (.inl rfl) fun _ => rfl
  exact hclass.trans (Grammar.continues_modifySym (.inr rfl) fun _ => rfl)

theorem tokenKind_borrow_class (hne : a ≠ tok) (ha : a < d.grammar.symbols.size) :
    ((d.borrow tok a).grammar.sym a).tokenKind = .clsLiteral := by
  unfold borrow
  dsimp only
  rw [Grammar.sym_modifySym_of_ne hne, Grammar.sym_modifySym_self ha]

theorem tokenKind_borrow (htok : tok < d.grammar.symbols.size) :
    ((d.borrow tok a).grammar.sym tok).tokenKind = .literal := by
  unfold borrow
  dsimp only
  rw [Grammar.sym_modifySym_self (Nat.lt_of_lt_of_eq htok Grammar.size_modifySym.symm)]

theorem tokenKind_borrow_of_ne {b : SymbolId} (hclass : b ≠ a) (htok : b ≠ tok) :
    ((d.borrow tok a).grammar.sym b).tokenKind = (d.grammar.sym b).tokenKind := by
  unfold borrow
  dsimp only
  rw [Grammar.sym_modifySym_of_ne htok, Grammar.sym_modifySym_of_ne hclass]

theorem Refuses.continues (h : d.Refuses tok d') : d.grammar.Continues free d'.grammar := by
  obtain ⟨hlt, faults, ls, _, rfl⟩ := h
  exact ⟨Nat.le_refl _, fun _ _ => rfl, fun _ => id, fun _ _ _ => rfl, Nat.le_of_lt hlt⟩

/-- Declaring a literal may change the kinds of tokens only. -/
theorem continues_addLiteral (d : Draft) (quoted : String) (tok : SymbolId) :
    d.grammar.Continues (fun _ => True) (d.addLiteral quoted tok).grammar := by
  rcases d.addLiteral_inv quoted tok with
    hrefuses | ⟨text, faults, _, _, hown | ⟨s, a, _, _, _, hborrow⟩⟩
  · exact hrefuses.continues
  · rw [hown, grammar_ownPath]
    exact continues_enter faults _
  · rw [hborrow]
    exact (continues_enter faults _).trans ((continues_borrow tok a).mono fun _ _ => trivial)

/-- The literal is entered in the table, its token is declared, and the machine spells it. -/
structure Admits (d : Draft) (l : Literal) (d' : Draft) : Prop where
  declares : d.Declares l.sym d'
  literals_eq : d'.grammar.literals = d.grammar.literals ++ [l]
  spelled : d'.Spelled l
  tokenKind_ne : ∀ s, (d'.machine.state s).endOf = some l.sym →
    (d'.grammar.sym l.sym).tokenKind ≠ .literal

/-- A literal with a path of its own. -/
theorem Sound.admits_ownPath {l : Literal} {faults : List Diagnostic} (hd : d.Sound)
    (hstart : (d.machine.state Machine.start).endOf = none) (hfresh : d.Fresh l.sym)
    (htext : l.text ≠ "")
    (hd' : d' = (d.enter faults l).ownPath l.sym (l.text.toList.map Char.toNat))
    (hedits : Edits l.sym (d.machine.states.size ≤ ·) edge d d') : d.Admits l d' := by
  have henter := hd.enter faults l
  have hgrammar : d'.grammar = (d.enter faults l).grammar := by
    rw [hd', grammar_ownPath]
  have hcontinues : d.grammar.Continues (fun _ => False) d'.grammar :=
    hgrammar ▸ continues_enter faults l
  have hfixed : (d'.grammar.sym l.sym).tokenKind = .fixed :=
    (hcontinues.tokenKind_eq _ hfresh.terminal id).trans hfresh.fixed
  have haccepts : d'.Accepts l.sym Machine.start (l.text.toList.map Char.toNat) := by
    rw [hd']
    exact henter.accepts_ownPath l.sym (l.text.toList.map Char.toNat)
  refine ⟨hedits.declares (fun _ => .inl) hd.wellFormed hstart hcontinues (fun _ h => h.elim),
    ?_, ?_, ?_⟩
  · rw [hgrammar]
    rfl
  · exact ⟨hcontinues.mem_terminals _ hfresh.terminal, htext, l.sym,
      hcontinues.mem_terminals _ hfresh.terminal, haccepts, .inl ⟨rfl, hfixed⟩⟩
  · intro s _
    simp [hfixed]

/-- A literal that borrows the end of a class token. -/
theorem Sound.admits_borrow {l : Literal} {faults : List Diagnostic} (hd : d.Sound)
    (hstart : (d.machine.state Machine.start).endOf = none) (hfresh : d.Fresh l.sym)
    (htext : l.text ≠ "")
    (hleads : (d.enter faults l).Leads Machine.start (l.text.toList.map Char.toNat) s)
    (hend : (d.machine.state s).endOf = some a) (ha : a ∈ d.grammar.terminals)
    (hkind : (d.grammar.sym a).tokenKind ≠ .fixed) :
    d.Admits l ((d.enter faults l).borrow l.sym a) := by
  have hne : a ≠ l.sym := by
    intro heq
    exact hfresh.not_ends s (heq ▸ hend)
  have hborrow := continues_borrow (d := d.enter faults l) l.sym a
  have hcontinues := (continues_enter faults l).trans hborrow
  have hclass := tokenKind_borrow_class (d := d.enter faults l) hne (Grammar.mem_ofKind.1 ha).1
  have hliteral := tokenKind_borrow (d := d.enter faults l) (a := a)
    (Grammar.mem_ofKind.1 hfresh.terminal).1
  have hedits : Edits l.sym (d.machine.states.size ≤ ·) (fun _ _ => True) d
      ((d.enter faults l).borrow l.sym a) := .single (.grammar d _)
  refine ⟨hedits.declares (fun _ => .inl) hd.wellFormed hstart hcontinues (fun b hb hne => ?_), rfl,
    ?_, ?_⟩
  · obtain rfl := hb.resolve_right hne
    exact ⟨⟨s, hend⟩, hkind, hclass⟩
  · have henter := hd.enter faults l
    have haccepts : ((d.enter faults l).borrow l.sym a).Accepts a Machine.start
        (l.text.toList.map Char.toNat) :=
      ⟨s, hleads.mono henter.wellFormed (fun _ _ => id) hborrow, hend⟩
    exact ⟨hcontinues.mem_terminals _ hfresh.terminal, htext, a, hcontinues.mem_terminals a ha,
      haccepts, .inr ⟨hclass, hliteral⟩⟩
  · intro t ht
    exact absurd ht (hfresh.not_ends t)

/-- A literal is refused with an error, or it is entered in the table and spelled. -/
theorem addLiteral_cases (hd : d.Sound) (hstart : (d.machine.state Machine.start).endOf = none)
    (hrecorded : d.Recorded) (hfresh : d.Fresh tok) (quoted : String) :
    d.grammar.diags.errors < (d.addLiteral quoted tok).grammar.diags.errors ∨
      ∃ text, (∀ l ∈ d.grammar.literals, l.text ≠ text) ∧
        d.Admits ⟨text, tok⟩ (d.addLiteral quoted tok) := by
  rcases d.addLiteral_inv quoted tok with hrefuses | ⟨text, faults, htext, hnew, hown | hborrow⟩
  · exact .inl hrefuses.errors_lt
  · have hedits := edits_addLiteral d quoted tok
    exact .inr ⟨text, hnew, hd.admits_ownPath hstart hfresh htext hown hedits⟩
  · obtain ⟨s, a, hleads, hend, hkind, heq⟩ := hborrow
    have ha := (hrecorded.ends s a hend).1
    rw [heq]
    exact .inr ⟨text, hnew, hd.admits_borrow hstart hfresh htext hleads hend ha hkind⟩

/-! ## All declarations -/

/-- The drafts that arise from the machine without tokens by declaring tokens, literals and
comments, each token or literal with a terminal for which nothing is declared yet.  Tokens are
declared at nodes as `ok` says. -/
inductive DeclaredOnce (ok : Grammar → NodeId → Prop) : Draft → Prop
  | initial {g : Grammar} (hfit : g.Fit 1) (hnone : g.literals = []) : DeclaredOnce ok ⟨.initial, g⟩
  | token {d : Draft} (h : DeclaredOnce ok d) {p : NodeId} (hp : ok d.grammar p) {tok : SymbolId}
      (hfresh : d.Fresh tok) : DeclaredOnce ok (d.addToken p tok)
  | literal {d : Draft} (h : DeclaredOnce ok d) (quoted : String) {tok : SymbolId}
      (hfresh : d.Fresh tok) : DeclaredOnce ok (d.addLiteral quoted tok)
  | comment {d : Draft} (h : DeclaredOnce ok d) (start stop : NodeId) (nested : Bool) :
      DeclaredOnce ok (d.addComment start stop nested)
  /-- other declarations in between: no class, terminal, literal or error is lost -/
  | revise {d : Draft} (h : DeclaredOnce ok d) {g : Grammar} (hfit : g.Fit d.machine.states.size)
      (hgrammar : d.grammar.Continues (fun _ => False) g)
      (hliterals : g.literals = d.grammar.literals) : DeclaredOnce ok { d with grammar := g }

variable {ok : Grammar → NodeId → Prop}

theorem DeclaredOnce.declared (h : d.DeclaredOnce ok) : d.Declared ok := by
  induction h with
  | initial hfit _ => exact .initial hfit
  | token _ hp _ ih => exact ih.token hp _
  | literal _ quoted _ ih => exact ih.literal quoted _
  | comment _ start stop nested ih => exact ih.comment start stop nested
  | revise _ hfit hgrammar _ ih => exact ih.revise hfit hgrammar.size_le

/-- Declaring any graph as a token: it may end in the start state and in new states. -/
theorem edits_addToken_new (d : Draft) (p : NodeId) (tok : SymbolId) :
    Edits tok (fun s => d.machine.states.size ≤ s ∨ s = Machine.start) (fun _ _ => True) d
      (d.addToken p tok) := by
  refine edits_addToken_of (fun _ => True) (fun _ => trivial) (fun _ => ?_) ?_
  · exact ⟨fun _ _ _ _ _ => trivial, fun _ => .inl, fun _ _ _ => .inr rfl⟩
  · exact fun _ _ _ _ _ _ demand _ => demand.allowed_of_forall fun _ _ => trivial

/-- If no token ends in the start state, none did before. -/
theorem Edits.endOf_start_eq_none (h : Edits tok ends edge d d')
    (hstart : (d'.machine.state Machine.start).endOf = none) :
    (d.machine.state Machine.start).endOf = none := by
  by_contra hne
  exact h.keeps (P := fun d' => (d'.machine.state Machine.start).endOf ≠ none)
    (fun _ hedit => hedit.endOf_ne_none) hne hstart

theorem exists_grammar_addComment (d : Draft) (start stop : NodeId) (nested : Bool) :
    ∃ faults, (d.addComment start stop nested).grammar = d.grammar.reportAll faults := by
  unfold Draft.addComment
  dsimp only
  obtain ⟨faults, hstart⟩ := d.grammar.exists_delimiter_eq start (d.grammar.node start).line
  obtain ⟨faults', hstop⟩ :=
    (d.grammar.reportAll faults).exists_delimiter_eq stop (d.grammar.node start).line
  rw [hstart, hstop, Grammar.reportAll_reportAll]
  exact ⟨_, rfl⟩

/-- Other declarations that lose nothing and leave the states alone. -/
theorem Recorded.revise (h : d.Recorded) (hd : d.WellFormed)
    (hstate : ∀ s, d'.machine.state s = d.machine.state s)
    (hgrammar : d.grammar.Continues (fun _ => False) d'.grammar)
    (hliterals : d'.grammar.literals = d.grammar.literals) : d'.Recorded := by
  refine ⟨fun s a hend => ?_, fun l hl => ?_, hliterals ▸ h.distinct⟩
  · rw [hstate] at hend
    obtain ⟨hterminal, hkind⟩ := h.ends s a hend
    rw [hgrammar.tokenKind_eq a hterminal id]
    exact ⟨hgrammar.mem_terminals a hterminal, hkind⟩
  · obtain ⟨hsym, htext, a, ha, ⟨s, hleads, hend⟩, hkinds⟩ := h.spelled l (hliterals ▸ hl)
    have haccepts : d'.Accepts a Machine.start (l.text.toList.map Char.toNat) := by
      refine ⟨s, hleads.mono hd (fun s m hm => ?_) hgrammar, ?_⟩
      · rwa [hstate]
      · rwa [hstate]
    refine ⟨hgrammar.mem_terminals _ hsym, htext, a, hgrammar.mem_terminals a ha, haccepts, ?_⟩
    rwa [hgrammar.tokenKind_eq a ha id, hgrammar.tokenKind_eq _ hsym id]

/-- The machine still spells all literals after a token is declared. -/
theorem Recorded.addToken (h : d.Recorded) (hd : d.WellFormed)
    (hstart : (d.machine.state Machine.start).endOf = none) (hfresh : d.Fresh tok) (p : NodeId) :
    (d.addToken p tok).Recorded := by
  have hdeclares := (edits_addToken_new d p tok).declares (fun _ => id) hd hstart
    (continues_addToken d p tok) fun a ha hne => absurd ha hne
  refine ⟨hdeclares.tokenKind_ne h hfresh fun _ _ => tokenKind_addToken p hfresh.fixed, ?_, ?_⟩
  · rw [literals_addToken]
    intro l hl
    exact hdeclares.spelled h hfresh hl
  · rw [literals_addToken]
    exact h.distinct

/-- The machine spells all literals after one is declared, unless there is a complaint. -/
theorem Recorded.addLiteral (h : d.Recorded) (hd : d.Sound)
    (hstart : (d.machine.state Machine.start).endOf = none) (hfresh : d.Fresh tok)
    (quoted : String) :
    d.grammar.diags.errors < (d.addLiteral quoted tok).grammar.diags.errors ∨
      (d.addLiteral quoted tok).Recorded := by
  rcases addLiteral_cases hd hstart h hfresh quoted with herror | ⟨text, hnew, hadmits⟩
  · exact .inl herror
  · refine .inr ⟨hadmits.declares.tokenKind_ne h hfresh hadmits.tokenKind_ne, ?_, ?_⟩
    · rw [hadmits.literals_eq]
      refine List.forall_mem_append.2 ⟨fun l hl => ?_, List.forall_mem_singleton.2 hadmits.spelled⟩
      exact hadmits.declares.spelled h hfresh hl
    · rw [hadmits.literals_eq, List.map_append]
      refine List.nodup_append.2 ⟨h.distinct, List.nodup_singleton _, ?_⟩
      intro text' htext' text'' htext''
      obtain ⟨l, hl, rfl⟩ := List.mem_map.1 htext'
      rw [List.mem_singleton.1 htext'']
      exact hnew l hl

/-- As long as there is no error and no token ends in the start state, the machine spells all
literals. -/
theorem DeclaredOnce.recorded (h : d.DeclaredOnce ok) (hclean : d.grammar.diags.errors = 0)
    (hstart : (d.machine.state Machine.start).endOf = none) : d.Recorded := by
  induction h with
  | initial _ hnone =>
    refine ⟨fun s a hend => ?_, ?_, ?_⟩
    · cases s <;> cases hend
    · simp [hnone]
    · simp [hnone]
  | @token d h p hp tok hfresh ih =>
    have hbefore := (edits_addToken d p tok).endOf_start_eq_none hstart
    have hle := (continues_addToken d p tok).errors_le
    exact (ih (by omega) hbefore).addToken h.declared.sound.wellFormed hbefore hfresh p
  | @literal d h quoted tok hfresh ih =>
    have hbefore := (edits_addLiteral d quoted tok).endOf_start_eq_none hstart
    have hle := (continues_addLiteral d quoted tok).errors_le
    have hnext := (ih (by omega) hbefore).addLiteral h.declared.sound hbefore hfresh quoted
    exact hnext.resolve_left (by omega)
  | @comment d h start stop nested ih =>
    obtain ⟨faults, hgrammar⟩ := d.exists_grammar_addComment start stop nested
    have hcontinues : d.grammar.Continues (fun _ => False)
        (d.addComment start stop nested).grammar := by
      rw [hgrammar]
      exact Grammar.continues_reportAll faults
    have hliterals : (d.addComment start stop nested).grammar.literals = d.grammar.literals := by
      rw [hgrammar]
      rfl
    have hle := hcontinues.errors_le
    rw [state_addComment] at hstart
    exact (ih (by omega) hstart).revise h.declared.sound.wellFormed (fun _ => state_addComment)
      hcontinues hliterals
  | @revise d h g hfit hgrammar hliterals ih =>
    have hle := hgrammar.errors_le
    dsimp only at hclean
    exact (ih (by omega) hstart).revise h.declared.sound.wellFormed (fun _ => rfl) hgrammar
      hliterals

end Draft

end Ebnf
