import Ebnf.Proofs.Machine.Declared
import Ebnf.Proofs.Scanner.Tracking

/-!
# Ambiguous tokens

Two tokens cannot be told apart if a text leads from a state to ends of both of
them.  While states are merged, a complaint is made where the targets of one move
recognise different tokens.  As long as there is none, every merged state stands
for the states that a text leads to from some declared state, and a move to several
states accepts some character, so that a complaint is about a text indeed.

Main results:

- Theorem `Merging.Exact.redirect`: if no state is ambiguous, redirecting a move gives no
  complaint.
- Theorem `Draft.diags_toScanner_eq_iff`: making the machine deterministic gives no complaint
  if and only if no state is ambiguous.
- Theorem `Draft.Declared.errors_toScanner`: so it is for declared tokens, and if each has a
  structure of its own, only the start state can be ambiguous.
-/

namespace Ebnf

namespace Draft

variable {d : Draft} {s t : StateId} {w : List Nat} {c : Nat}

/-- From the state a text leads to ends of two different tokens. -/
def Ambiguous (d : Draft) (s : StateId) : Prop :=
  ∃ w x y a b, d.Leads s w x ∧ d.Leads s w y ∧ (d.machine.state x).endOf = some a ∧
    (d.machine.state y).endOf = some b ∧ a ≠ b

theorem leads_append_singleton :
    d.Leads s (w ++ [c]) t ↔ ∃ u, d.Leads s w u ∧ d.Steps u c t := by
  induction w generalizing s with
  | nil => simp [Leads]
  | cons b w ih =>
    simp only [List.cons_append, Leads, ih]
    constructor
    · rintro ⟨u, hstep, v, hleads, hlast⟩
      exact ⟨v, ⟨u, hstep, hleads⟩, hlast⟩
    · rintro ⟨v, ⟨u, hstep, hleads⟩, hlast⟩
      exact ⟨u, hstep, v, hleads, hlast⟩

/-! ## Moves to several states -/

/-- Every move to several states accepts some character. -/
def Full (d : Draft) : Prop :=
  ∀ s, ∀ m ∈ (d.machine.state s).moves, m.targets.toList.length < 2 ∨ d.grammar.Accepts m.on

theorem Full.markContextStates (h : d.Full) : d.markContextStates.Full := by
  intro s m hm
  obtain ⟨context, hs⟩ := d.markContextStates_eq.2.2 s
  rw [hs] at hm
  exact h s m hm

theorem Full.separate (h : d.Full) (hd : d.WellFormed) (hs : s < d.machine.states.size) :
    (d.separate s).Full := by
  have hgrows : d.grammar.Grows (d.separate s).grammar := (separate_spec hd hs).1.grows
  have hold : ∀ t, ∀ m ∈ (d.machine.state t).moves,
      m.targets.toList.length < 2 ∨ (d.separate s).grammar.Accepts m.on := fun t m hm =>
    (h t m hm).imp_right (hgrows.accepts (hd.knows t m hm))
  intro t m hm
  by_cases hts : t = s
  · subst hts
    rw [moves_separate hs] at hm
    rcases Grammar.separate_accepts hd.canonical (hd.knows t) m hm with hm | hacc
    · exact hold t m hm
    · exact .inr hacc
  · rw [state_separate_of_ne hts] at hm
    exact hold t m hm

end Draft

/-! ## Merging without complaints -/

namespace Merging

variable {m : Merging} {d : Draft} {s t : StateId} {set : BitSet} {targets : List StateId}
  {tok : Option SymbolId} {i : Nat}

/-- There was no complaint so far, moves to several states accept some character, and the states
behind a state are those that a text leads to from some state. -/
structure Exact (m : Merging) (d : Draft) : Prop where
  full : m.draft.Full
  reached : ∀ s < m.draft.machine.states.size, ∃ o w, ∀ x, x ∈ m.behind s ↔ d.Leads o w x
  clean : m.draft.grammar.diags = d.grammar.diags

/-- States that recognise one token at most have a common one. -/
theorem commonToken_eq_nil {ss : List StateId} (k : SymbolId) (htok : ∀ a ∈ tok, a = k)
    (hss : ∀ s ∈ ss, ∀ a, (m.state s).endOf = some a → a = k) : (m.commonToken tok ss).2 = [] := by
  induction ss generalizing tok with
  | nil => rfl
  | cons s ss ih =>
    obtain ⟨hs, hss⟩ := List.forall_mem_cons.1 hss
    cases hend : (m.state s).endOf with
    | none =>
      rw [commonToken_cons_of_none hend]
      exact ih htok hss
    | some found =>
      obtain rfl := hs found hend
      cases tok with
      | none =>
        rw [commonToken_none_cons hend]
        exact ih (by simp) hss
      | some a =>
        obtain rfl := htok a rfl
        rw [commonToken_same_cons hend]
        exact ih htok hss

namespace Exact

theorem addMerged (h : m.Exact d) (hrep : m.Represents d)
    (hset : ∃ o w, ∀ x, x ∈ set ↔ d.Leads o w x) : (m.addMerged set targets tok).2.Exact d := by
  obtain ⟨hold, hlast⟩ := m.behind_addMerged set targets tok hrep.size_eq
  have hadds := m.adds_addMerged set targets tok hrep.wellFormed
  have hgrown : (m.withMerged targets tok).machine.states.size =
      m.draft.machine.states.size + 1 := Machine.size_addState
  have hfull : (m.withMerged targets tok).Full := by
    intro u move hmove
    rw [withMerged, Machine.state_addState] at hmove
    split at hmove
    · -- the moves of the new state are those of the targets
      rw [Grammar.mem_foldl_addMove, List.mem_flatMap] at hmove
      obtain ⟨t, _, hmove⟩ := hmove.resolve_right List.not_mem_nil
      exact h.full t move hmove
    · exact h.full u move hmove
  refine ⟨?_, fun u hu => ?_, hadds.refines.grows.diags_eq.trans h.clean⟩
  · rw [draft_addMerged]
    exact hfull.separate (m.wellFormed_withMerged targets tok hrep.wellFormed)
      (Nat.lt_of_lt_of_eq (Nat.lt_succ_self _) hgrown.symm)
  · rw [hadds.size_eq] at hu
    rcases Nat.lt_or_eq_of_le (Nat.le_of_lt_succ hu) with hu | rfl
    · rw [hold u hu]
      exact h.reached u hu
    · rw [hlast]
      exact hset

theorem intern (h : m.Exact d) (hrep : m.Represents d)
    (hset : ∃ o w, ∀ x, x ∈ set ↔ d.Leads o w x) : (m.intern set targets tok).2.Exact d := by
  unfold Merging.intern
  cases m.merged? set with
  | some t => exact h
  | none => exact h.addMerged hrep hset

theorem retarget (h : m.Exact d) : (m.retarget s i t).Exact d := by
  refine ⟨fun u move hmove => ?_, fun u hu => ?_, h.clean⟩
  · by_cases hus : u = s ∧ s < m.draft.machine.states.size
    · obtain ⟨rfl, hs⟩ := hus
      change move ∈ ((m.retarget u i t).state u).moves at hmove
      rw [state_retarget hs] at hmove
      obtain ⟨j, hj, rfl⟩ := List.getElem_of_mem hmove
      rw [List.getElem_modify]
      split
      · exact .inl (length_toList_singleton t)
      · exact h.full u _ (List.getElem_mem _)
    · change move ∈ ((m.draft.machine.modifyState s _).state u).moves at hmove
      rw [Machine.state_modifyState, if_neg hus] at hmove
      exact h.full u move hmove
  · rw [size_retarget] at hu
    exact h.reached u hu

/-- The states behind the targets of a move to several states are reached along a longer text. -/
theorem reached_targets (h : m.Exact d) (hrep : m.Represents d)
    (hs : s < m.draft.machine.states.size) {move : Move} (hmove : move ∈ (m.state s).moves)
    (hlen : ¬ move.targets.toList.length < 2) :
    ∃ o w, ∀ x, (∃ t ∈ move.targets, x ∈ m.behind t) ↔ d.Leads o w x := by
  obtain ⟨c, hc⟩ := (h.full s move hmove).resolve_left hlen
  rw [← Grammar.triggers_iff] at hc
  obtain ⟨o, w, hbehind⟩ := h.reached s hs
  -- no other move accepts the character
  have hsteps : ∀ t, m.draft.Steps s c t ↔ t ∈ move.targets := by
    intro t
    constructor
    · rintro ⟨other, hother, hc', ht⟩
      have hsymm : Std.Symm fun a b : Move => ∀ c,
          ¬ (m.draft.grammar.triggers a.on c = true ∧ m.draft.grammar.triggers b.on c = true) :=
        ⟨fun a b hab c hand => hab c hand.symm⟩
      obtain rfl : move = other := by
        by_contra hne
        exact (hrep.separated s hs).forall hmove hother hne c ⟨hc, hc'⟩
      exact ht
    · exact fun ht => ⟨move, hmove, hc, ht⟩
  refine ⟨o, w ++ [c], fun x => ?_⟩
  simp only [← hsteps, hrep.steps_iff s hs c x, Draft.leads_append_singleton, hbehind]

/-- If no state is ambiguous, redirecting a move gives no complaint. -/
theorem redirect (h : m.Exact d) (hrep : m.Represents d) (hnone : ∀ o, ¬ d.Ambiguous o)
    (hs : s < m.draft.machine.states.size) (i : Nat) : (m.redirect s i).Exact d := by
  rcases m.redirect_cases s i with ⟨_, heq⟩ | ⟨move, hmove, hlen, heq⟩
  · rwa [heq]
  · have hmem := List.mem_of_getElem? hmove
    obtain ⟨o, w, hreached⟩ := h.reached_targets hrep hs hmem hlen
    have htargets : ∀ t ∈ move.targets, t < m.draft.machine.states.size :=
      hrep.wellFormed.target_lt s move hmem
    -- two targets with different tokens would make `o` ambiguous
    have hends : ∀ t ∈ move.targets, ∀ a, (m.state t).endOf = some a → ∃ x, d.Leads o w x ∧
        (d.machine.state x).endOf = some a := by
      intro t ht a ha
      obtain ⟨x, hx, hxa⟩ := (hrep.endOf_iff h.clean t (htargets t ht) a).1 ha
      exact ⟨x, (hreached x).1 ⟨t, ht, hx⟩, hxa⟩
    have hcommon : (m.commonToken none move.targets.toList).2 = [] := by
      by_cases hend : ∃ t ∈ move.targets, ∃ k, (m.state t).endOf = some k
      · obtain ⟨t, ht, k, hk⟩ := hend
        refine commonToken_eq_nil k (by simp) fun u hu a ha => ?_
        obtain ⟨x, hx, hxk⟩ := hends t ht k hk
        obtain ⟨y, hy, hya⟩ := hends u (BitSet.mem_toList.1 hu) a ha
        by_contra hne
        exact hnone o ⟨w, y, x, a, k, hy, hx, hya, hxk, hne⟩
      · refine commonToken_eq_nil 0 (by simp) fun u hu a ha => ?_
        exact absurd ⟨u, BitSet.mem_toList.1 hu, a, ha⟩ hend
    have hreport : { m with draft.grammar := m.draft.grammar.reportAll [] } = m := by
      simp only [Grammar.reportAll, List.append_nil]
    rw [heq]
    dsimp only
    rw [hcommon, hreport]
    refine (h.intern hrep ⟨o, w, fun x => ?_⟩).retarget
    rw [BitSet.mem_foldl_union, or_iff_right (BitSet.not_mem_empty x)]
    simpa only [BitSet.mem_toList] using hreached x

end Exact

/-! ## Following a text -/

/-- A text leads to the states behind those to which it leads in the merged machine. -/
theorem Represents.leads_iff (h : m.Represents d) (hs : s < m.draft.machine.states.size)
    (w : List Nat) (x : StateId) :
    (∃ t, m.draft.Leads s w t ∧ x ∈ m.behind t) ↔ ∃ y ∈ m.behind s, d.Leads y w x := by
  induction w generalizing s with
  | nil => simp [Draft.Leads]
  | cons c w ih =>
    constructor
    · rintro ⟨t, ⟨u, hstep, hleads⟩, hx⟩
      obtain ⟨y, hy, hyx⟩ := (ih (h.wellFormed.lt_of_steps hstep)).1 ⟨t, hleads, hx⟩
      obtain ⟨z, hz, hzy⟩ := (h.steps_iff s hs c y).1 ⟨u, hstep, hy⟩
      exact ⟨z, hz, y, hzy, hyx⟩
    · rintro ⟨z, hz, y, hzy, hyx⟩
      obtain ⟨u, hstep, hy⟩ := (h.steps_iff s hs c y).2 ⟨z, hz, hzy⟩
      obtain ⟨t, hleads, hx⟩ := (ih (h.wellFormed.lt_of_steps hstep)).2 ⟨y, hy, hyx⟩
      exact ⟨t, ⟨u, hstep, hleads⟩, hx⟩

theorem Represents.leads_unique (h : m.Represents d)
    (htargets : ∀ s < m.draft.machine.states.size, ∀ move ∈ (m.state s).moves,
      move.targets.toList.length < 2) (hs : s < m.draft.machine.states.size) {w : List Nat}
    {t u : StateId} (ht : m.draft.Leads s w t) (hu : m.draft.Leads s w u) : t = u := by
  induction w generalizing s with
  | nil => exact ht.symm.trans hu
  | cons c w ih =>
    obtain ⟨t', hstep, ht⟩ := ht
    obtain ⟨u', hstep', hu⟩ := hu
    obtain rfl := Scanner.steps_unique (h.separated s hs) (htargets s hs) hstep hstep'
    exact ih (h.wellFormed.lt_of_steps hstep) ht hu

/-- Without a complaint no state is ambiguous. -/
theorem Represents.not_ambiguous (h : m.Represents d)
    (htargets : ∀ s < m.draft.machine.states.size, ∀ move ∈ (m.state s).moves,
      move.targets.toList.length < 2) (hclean : m.draft.grammar.diags = d.grammar.diags)
    (o : StateId) : ¬ d.Ambiguous o := by
  rintro ⟨w, x, y, a, b, hx, hy, hxa, hyb, hne⟩
  by_cases ho : o < d.machine.states.size
  · have hdecl : o < m.declared := h.declared_eq ▸ ho
    have hlt : o < m.draft.machine.states.size :=
      Nat.lt_of_lt_of_eq (Nat.lt_add_right _ hdecl) h.size_eq.symm
    have hbehind : o ∈ m.behind o := by
      rw [behind_of_lt hdecl]
      exact BitSet.mem_singleton.2 rfl
    obtain ⟨t, ht, hxt⟩ := (h.leads_iff hlt w x).2 ⟨o, hbehind, hx⟩
    obtain ⟨u, hu, hyu⟩ := (h.leads_iff hlt w y).2 ⟨o, hbehind, hy⟩
    obtain rfl := h.leads_unique htargets hlt ht hu
    have hlt' : t < m.draft.machine.states.size := by
      cases w with
      | nil => exact ht ▸ hlt
      | cons c w =>
        obtain ⟨w', b', heq⟩ := List.eq_nil_or_concat' (c :: w) |>.resolve_left nofun
        rw [heq, Draft.leads_append_singleton] at ht
        exact h.wellFormed.lt_of_steps ht.choose_spec.2
    have hta := (h.endOf_iff hclean t hlt' a).2 ⟨x, hxt, hxa⟩
    have htb := (h.endOf_iff hclean t hlt' b).2 ⟨y, hyu, hyb⟩
    exact hne (Option.some.inj (hta.symm.trans htb))
  · -- beyond the last state there are no moves and no ends
    have hstate : d.machine.state o = default := by
      simp [Machine.state, ho]
    cases w with
    | nil =>
      obtain rfl : o = x := hx
      rw [hstate] at hxa
      cases hxa
    | cons c w =>
      obtain ⟨u, ⟨move, hmove, _⟩, _⟩ := hx
      rw [hstate] at hmove
      cases hmove

end Merging

/-! ## The whole machine -/

namespace Draft

variable {d : Draft}

/-- Making the machine deterministic gives no complaint if and only if no state is ambiguous. -/
theorem diags_toScanner_eq_iff (h : d.WellFormed) (hfull : d.Full) :
    d.toScanner.2.diags = d.grammar.diags ↔ ∀ o, ¬ d.Ambiguous o := by
  obtain ⟨hrep, htargets⟩ := represents_merging h
  rw [(joins_toScanner h).1]
  constructor
  · exact fun hclean => hrep.not_ambiguous htargets hclean
  · intro hnone
    have hexact : Merging.Exact { draft := d.markContextStates.separateAll
                                  declared := d.machine.states.size } d := by
      have hmark := markContextStates_spec h
      have hrefines := hmark.trans (separateAll_spec hmark.wellFormed).1
      refine ⟨?_, fun s hs => ⟨s, [], fun x => ?_⟩, hrefines.grows.diags_eq⟩
      · exact separateAll_keeps (fun hd hs h => h.separate hd hs) hmark.wellFormed
          hfull.markContextStates
      · rw [Merging.behind_of_lt (Nat.lt_of_lt_of_eq hs hrefines.size_eq), BitSet.mem_singleton]
        exact eq_comm
    exact ((represents_separateAll h).redirectFrom_keeps (P := fun m => m.Exact d)
      (fun hrep hs hm i => hm.redirect hrep hnone hs i) _ 0 hexact).clean

/-- Only errors are reported. -/
theorem errors_lt_toScanner_iff (h : d.WellFormed) :
    d.grammar.diags.errors < d.toScanner.2.diags.errors ↔ d.toScanner.2.diags ≠ d.grammar.diags := by
  obtain ⟨_, errors, hdiags, herrors⟩ := exists_tracks_toScanner h
  have hcount : errors.countP (·.severity == .error) = errors.length :=
    List.countP_eq_length.2 fun diag hdiag => by simp [herrors diag hdiag]
  rw [Diagnostics.errors, Diagnostics.errors, hdiags, List.countP_append, hcount]
  simp [List.length_pos_iff]

/-! ## Declared tokens -/

theorem Single.full (h : d.Single) : d.Full := by
  intro s m hm
  obtain ⟨t, ht⟩ := h s m hm
  rw [ht]
  exact .inl (Merging.length_toList_singleton t)

/-- From a state that belongs to a token one gets to states of this token only. -/
theorem Owned.leads {owner : StateId → SymbolId} {s t : StateId} {w : List Nat} (h : d.Owned owner)
    (hs : s ≠ Machine.start) (hleads : d.Leads s w t) : t ≠ Machine.start ∧ owner t = owner s := by
  induction w generalizing s with
  | nil =>
    obtain rfl : s = t := hleads
    exact ⟨hs, rfl⟩
  | cons c w ih =>
    obtain ⟨u, ⟨move, hmove, _, hu⟩, hleads⟩ := hleads
    obtain ⟨hne, howner⟩ := h.target_eq s hs move hmove u hu
    exact howner ▸ ih hne hleads

theorem Owned.not_ambiguous {owner : StateId → SymbolId} {s : StateId} (h : d.Owned owner)
    (hs : s ≠ Machine.start) : ¬ d.Ambiguous s := by
  rintro ⟨w, x, y, a, b, hx, hy, hxa, hyb, hne⟩
  obtain ⟨hx, howner⟩ := h.leads hs hx
  obtain ⟨hy, howner'⟩ := h.leads hs hy
  rw [h.endOf_eq x hx a hxa, h.endOf_eq y hy b hyb, howner, howner'] at hne
  exact hne rfl

/-- Making the machine of declared tokens deterministic adds an error if and only if some state is
ambiguous.  If every token was declared by a complete structure of its own, it does so if and only if
the start state is ambiguous. -/
theorem Declared.errors_toScanner {ok : Grammar → NodeId → Prop} (h : d.Declared ok) :
    (d.grammar.diags.errors < d.toScanner.2.diags.errors ↔ ∃ s, d.Ambiguous s) ∧
    ((∀ g p, ok g p → g.BeginsStructure p) →
      (d.grammar.diags.errors < d.toScanner.2.diags.errors ↔ d.Ambiguous Machine.start)) := by
  have hsome : d.grammar.diags.errors < d.toScanner.2.diags.errors ↔ ∃ s, d.Ambiguous s := by
    rw [errors_lt_toScanner_iff h.sound.wellFormed, Ne,
      diags_toScanner_eq_iff h.sound.wellFormed h.single.full]
    push Not
    rfl
  refine ⟨hsome, fun hok => hsome.trans ⟨?_, fun hstart => ⟨_, hstart⟩⟩⟩
  rintro ⟨s, hs⟩
  obtain ⟨owner, howned⟩ := (h.mono hok).exists_owned
  by_cases hstart : s = Machine.start
  · exact hstart ▸ hs
  · exact absurd hs (howned.not_ambiguous hstart)

/-! ## A complaint about a state that no text leads to -/

/-- The character `c` alone, and behind a character of an empty class. -/
def sharing : Grammar :=
  let (empty, g) := Grammar.initial.declareClass "E" ∅
  let (c, g) := g.addLeaf { kind := .char 99 .main }
  let (first, g) := g.addLeaf { kind := .cls empty .main }
  let (whole, g) := g.sequence first c
  let g := (g.declareSymbol .terminal "X" 3).2
  let g := (g.declareSymbol .terminal "Y" 4).2
  g.close whole

/-- The whole structure is declared as one token, then its second character as another one. -/
def shared : Draft :=
  ((⟨.initial, sharing⟩ : Draft).addToken 1 1).addToken 0 2

theorem fit_sharing : sharing.Fit 1 := by
  refine Grammar.fit_of_isFresh (fun id => ?_) (by decide +kernel)
  match id with
  | 0 | id + 1 => exact CharSet.canonical_empty

theorem declared_shared : shared.Declared Grammar.InStructure := by
  have hnodup : (Phrase.seq (.leaf 1) (.leaf 0)).nodes.Nodup := by decide
  refine ((Declared.initial fit_sharing).token ⟨.seq (.leaf 1) (.leaf 0), false, ?_, hnodup, ?_⟩
    1).token ⟨.seq (.leaf 1) (.leaf 0), false, ?_, hnodup, ?_⟩ 2
  · refine ⟨⟨?_, ?_, ?_⟩, ?_, ?_, ?_⟩ <;> decide +kernel
  · exact List.mem_cons_self
  · refine ⟨⟨?_, ?_, ?_⟩, ?_, ?_, ?_⟩ <;> decide +kernel
  · exact List.mem_cons_of_mem _ List.mem_cons_self

/-- The two tokens cannot be distinguished behind the empty class, and this is reported although no text
leads there from the start. -/
theorem Declared.not_ambiguous_shared :
    shared.Declared Grammar.InStructure ∧ shared.grammar.diags = [] ∧
      shared.grammar.diags.errors < shared.toScanner.2.diags.errors ∧
      ¬ shared.Ambiguous Machine.start := by
  refine ⟨declared_shared, by decide +kernel, by decide +kernel, ?_⟩
  rintro ⟨w, x, y, a, b, hx, hy, hxa, hyb, hne⟩
  cases w with
  | nil =>
    obtain rfl : Machine.start = x := hx
    obtain rfl : Machine.start = y := hy
    exact hne (Option.some.inj (hxa.symm.trans hyb))
  | cons c w =>
    obtain ⟨u, ⟨move, hmove, htriggers, _⟩, _⟩ := hx
    have hmoves : (shared.machine.state Machine.start).moves = [⟨.cls 0, .main, .singleton 1⟩] := by
      decide +kernel
    have hset : (shared.grammar.charClass 0).set = ∅ := by
      decide +kernel
    rw [hmoves, List.mem_singleton] at hmove
    rw [hmove, Grammar.triggers, hset] at htriggers
    cases htriggers

/-- The character `a` as a literal and as a token structure. -/
theorem Declared.errors_toScanner_twice :
    let g := (Grammar.initial.addLeaf { kind := .char 97 .main }).2
    let d := ((⟨.initial, g⟩ : Draft).addLiteral "\"a\"" 1).addToken 0 2
    d.Declared Grammar.BeginsStructure ∧ d.Ambiguous Machine.start := by
  intro g d
  have hfit : g.Fit 1 := Grammar.fit_of_isFresh (fun _ => CharSet.canonical_empty) (by decide +kernel)
  have hdeclared : d.Declared Grammar.BeginsStructure := by
    refine ((Declared.initial hfit).literal "\"a\"" 1).token ⟨.leaf 0, false, ⟨?_, ?_, ?_⟩, ?_, rfl,
      List.forall_mem_singleton.2 ?_⟩ 2 <;> decide +kernel
  exact ⟨hdeclared, (hdeclared.errors_toScanner.2 fun _ _ => id).1 (by decide +kernel)⟩

end Draft

end Ebnf
