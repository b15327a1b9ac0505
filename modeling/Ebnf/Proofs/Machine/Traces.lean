import Ebnf.Proofs.Machine.Literals

/-!
# Runs along token structures

In the machine of several tokens a text may lead to ends of any of them.  Each
declaration adds states of its own, which are entered from the start state only, so
a run to an end of a token stays in the states of one declaration.  There it goes
along a leaf sequence of the declared structure, and each of its moves reads a leaf,
in the way that the leaf says.

Main results:

- Theorem `Draft.exists_trace_addToken`: a run into the new states of a declared
  structure goes along a leaf sequence of the structure.
- Theorem `Draft.Tokenized.exists_trace`: every run to an end of a token goes along a
  leaf sequence of one of its structures.
-/

namespace Ebnf

/-- A token structure that was declared: its symbol, and the grammar that showed it then. -/
structure Declaration where
  tok : SymbolId
  grammar : Grammar
  phrase : Phrase

namespace Draft

variable {d d' d₁ : Draft} {g : Grammar} {tok a : SymbolId} {e : Phrase} {up : Bool}
  {heads ps qs : List NodeId} {s t u : StateId} {z : NodeId} {w : List Nat} {m : Move}
  {c : Nat} {demands : List Demand} {ends : StateId → Prop} {edge : StateId → StateId → Prop}
  {free : SymbolId → Prop}

/-! ## Runs along leaves -/

/-- A text leads from a state to another one by moves for the leaves `ps`, one after the other. -/
inductive Traces (d : Draft) (g : Grammar) : StateId → List NodeId → List Nat → StateId → Prop
  | nil (s : StateId) : Traces d g s [] [] s
  | cons {s t u : StateId} {q : NodeId} {c : Nat} {ps : List NodeId} {w : List Nat} {m : Move}
      (hm : m ∈ (d.machine.state s).moves) (hreads : (g.node q).kind.reads? = some (m.on, m.part))
      (hg : g.triggers m.on c = true) (hc : d.grammar.triggers m.on c = true) (hu : u ∈ m.targets)
      (h : Traces d g u ps w t) :
      Traces d g s (q :: ps) (c :: w) t

theorem Traces.leads (h : d.Traces g s ps w t) : d.Leads s w t := by
  induction h with
  | nil s => rfl
  | cons hm _ _ hc hu _ ih => exact ⟨_, ⟨_, hm, hc, hu⟩, ih⟩

/-- A run is still there afterwards, if no move is lost. -/
theorem Traces.mono (h : d.Traces g s ps w t) (hd : d.WellFormed)
    (hmoves : ∀ s, ∀ m ∈ (d.machine.state s).moves, m ∈ (d'.machine.state s).moves)
    (hgrammar : d.grammar.Continues free d'.grammar) : d'.Traces g s ps w t := by
  induction h with
  | nil s => exact .nil s
  | @cons s _ _ _ c _ _ m hm hreads hg hc hu _ ih =>
    refine .cons (hmoves s m hm) hreads hg ?_ hu ih
    rw [hgrammar.triggers_eq (hd.knows s m hm)]
    exact hc

/-- A text leads where it leads in a draft with the same moves. -/
theorem leads_of_moves_eq (hd : d.WellFormed)
    (hmoves : ∀ s, (d'.machine.state s).moves = (d.machine.state s).moves)
    (hgrammar : d.grammar.Continues free d'.grammar) (hleads : d'.Leads s w t) : d.Leads s w t := by
  induction w generalizing s with
  | nil => exact hleads
  | cons c w ih =>
    obtain ⟨u, ⟨m, hm, hc, hu⟩, hrest⟩ := hleads
    rw [hmoves] at hm
    rw [hgrammar.triggers_eq (hd.knows s m hm)] at hc
    exact ⟨u, ⟨m, hm, hc, hu⟩, ih hrest⟩

/-- A run along two leaf sequences is cut where the second one begins. -/
theorem Traces.exists_append (h : d.Traces g s (ps ++ qs) w t) :
    ∃ v v' x, w = v ++ v' ∧ d.Traces g s ps v x ∧ d.Traces g x qs v' t := by
  induction ps generalizing s w with
  | nil => exact ⟨[], w, s, rfl, .nil s, h⟩
  | cons p ps ih =>
    cases h with
    | cons hm hreads hg hc hu hrest =>
      obtain ⟨v, v', x, rfl, hfirst, hsecond⟩ := ih hrest
      exact ⟨_ :: v, v', x, rfl, .cons hm hreads hg hc hu hfirst, hsecond⟩

/-- The text of a run is spelled by the leaves. -/
theorem Traces.spells (h : d.Traces g s ps w t) : Phrase.Spells g ps w := by
  induction h with
  | nil => exact .nil
  | cons _ hreads hg _ _ _ ih => exact .cons ⟨_, _, hreads, hg⟩ ih

/-! ## States of a declaration -/

theorem Edits.moves_cases (h : Edits tok ends edge d d') (hm : m ∈ (d'.machine.state s).moves) :
    m ∈ (d.machine.state s).moves ∨ ∃ t, edge s t ∧ m.targets = .singleton t := by
  refine h.keeps (P := fun d' => m ∈ (d'.machine.state s).moves →
    m ∈ (d.machine.state s).moves ∨ ∃ t, edge s t ∧ m.targets = .singleton t)
    (fun _ hedit ih hm => ?_) .inl hm
  exact (hedit.moves_cases hm).elim ih .inr

/-- A token ends where it ended before, or in a state that was added for it. -/
theorem Edits.endOf_new (h : Edits tok (d.machine.states.size ≤ ·) edge d d')
    (hend : (d'.machine.state s).endOf = some a) :
    (d.machine.state s).endOf = some a ∨ a = tok ∧ d.machine.states.size ≤ s := by
  refine h.keeps (P := fun d' => (d'.machine.state s).endOf = some a →
    (d.machine.state s).endOf = some a ∨ a = tok ∧ d.machine.states.size ≤ s)
    (fun hle hedit ih hend => ?_) .inl hend
  rcases hedit.endOf_cases hend with hend | ⟨heq, hs⟩
  · exact ih hend
  · exact .inr ⟨heq, hs.elim id (Nat.le_trans hle)⟩

/-- No move leads to the start state. -/
def NoReturn (d : Draft) : Prop :=
  ∀ s, ∀ m ∈ (d.machine.state s).moves, Machine.start ∉ m.targets

theorem default_of_size_le (hs : d.machine.states.size ≤ s) : d.machine.state s = default := by
  simp [Machine.state, hs]

section Forward

variable (hd : d.WellFormed)
  (h : Edits tok (d.machine.states.size ≤ ·) (Forward d.machine.states.size) d d')
include hd h

theorem NoReturn.edits (hreturn : d.NoReturn) : d'.NoReturn := by
  intro s m hm
  rcases h.moves_cases hm with hm | ⟨t, ⟨_, ht⟩, htargets⟩
  · exact hreturn s m hm
  · rw [htargets, BitSet.mem_singleton]
    exact Nat.ne_of_lt (Nat.lt_of_lt_of_le hd.size_pos ht)

/-- A run to a state that was there before goes through such states only. -/
theorem Edits.leads_old (ht : t < d.machine.states.size) (hleads : d'.Leads s w t)
    (hgrammar : d.grammar.Continues free d'.grammar) :
    s < d.machine.states.size ∧ d.Leads s w t := by
  induction w generalizing s with
  | nil =>
    obtain rfl : s = t := hleads
    exact ⟨ht, rfl⟩
  | cons c w ih =>
    obtain ⟨u, ⟨m, hm, hc, hu⟩, hleads⟩ := hleads
    obtain ⟨hlt, hrest⟩ := ih hleads
    have hold : m ∈ (d.machine.state s).moves := by
      refine (h.moves_cases hm).resolve_right ?_
      rintro ⟨v, ⟨_, hv⟩, htargets⟩
      have hu : u ∈ m.targets := hu
      rw [htargets, BitSet.mem_singleton] at hu
      exact Nat.not_lt.2 hv (hu ▸ hlt)
    have hs : s < d.machine.states.size := by
      by_contra hge
      rw [default_of_size_le (Nat.not_lt.1 hge)] at hold
      cases hold
    refine ⟨hs, u, ⟨m, hold, ?_, hu⟩, hrest⟩
    rw [← hgrammar.triggers_eq (hd.knows s m hold)]
    exact hc

/-- From an old state other than the start state one does not get to a new one. -/
theorem NoReturn.leads_lt (hreturn : d.NoReturn) (hs : s < d.machine.states.size)
    (hstart : s ≠ Machine.start) (hleads : d'.Leads s w t) : t < d.machine.states.size := by
  induction w generalizing s with
  | nil =>
    obtain rfl : s = t := hleads
    exact hs
  | cons c w ih =>
    obtain ⟨u, ⟨m, hm, _, hu⟩, hleads⟩ := hleads
    have hold : m ∈ (d.machine.state s).moves := by
      refine (h.moves_cases hm).resolve_right ?_
      rintro ⟨v, ⟨hsource, _⟩, _⟩
      exact hsource.elim hstart (Nat.not_le.2 hs)
    refine ih (hd.target_lt s m hold u hu) (fun heq => ?_) hleads
    exact hreturn s m hold (heq ▸ hu)

end Forward

/-- No move leads to the start state, if tokens are declared by complete structures of their own. -/
theorem Declared.noReturn (h : d.Declared Grammar.BeginsStructure) : d.NoReturn := by
  induction h with
  | initial =>
    intro s m hm
    rw [moves_initial] at hm
    cases hm
  | token h hp tok ih => exact ih.edits h.sound.wellFormed (edits_addToken_whole hp tok)
  | literal h quoted tok ih => exact ih.edits h.sound.wellFormed (edits_addLiteral _ quoted tok)
  | comment _ start stop nested ih =>
    unfold NoReturn
    simp only [state_addComment]
    exact ih
  | revise _ _ _ ih => exact ih

/-! ## What the demands add -/

/-- A move after a demand is met is an old one or the demanded one. -/
theorem moves_meet {demand : Demand} (hm : m ∈ ((d.meet tok demand).machine.state s).moves) :
    m ∈ (d.machine.state s).moves ∨ ∃ target t, demand = .edge s m.on m.part target ∧
      m.targets = .singleton t ∧
      (target = some t ∨ target = none ∧ d.machine.states.size ≤ t) := by
  -- a move to any state
  have hconnect : ∀ {d₀ : Draft} {source target : StateId} {on : Trigger} {part : Part},
      m ∈ ((d₀.connect tok source on part target).machine.state s).moves →
      m ∈ (d₀.machine.state s).moves ∨
        s = source ∧ m = ⟨on, part, .singleton target⟩ := by
    intro d₀ source target on part hm
    rw [state_connect] at hm
    split at hm
    next hs => exact (Grammar.mem_addMove.1 hm).symm.imp_right fun hm => ⟨hs.1, hm⟩
    next => exact .inl hm
  match demand with
  | .fault diag => exact .inl hm
  | .edge source on part (some target) =>
    refine (hconnect hm).imp_right ?_
    rintro ⟨rfl, rfl⟩
    exact ⟨some target, target, rfl, rfl, .inl rfl⟩
  | .edge source on part none =>
    rcases hconnect hm with hm | ⟨rfl, rfl⟩
    · have hm : m ∈ ((d.machine.addState { endOf := some tok }).2.state s).moves := hm
      rw [Machine.state_addState] at hm
      split at hm
      · cases hm
      · exact .inl hm
    · exact .inr ⟨none, d.machine.states.size, rfl, rfl, .inr ⟨rfl, Nat.le_refl _⟩⟩

theorem moves_foldl_meet (hm : m ∈ ((demands.foldl (Draft.meet tok) d).machine.state s).moves) :
    m ∈ (d.machine.state s).moves ∨ ∃ target t, .edge s m.on m.part target ∈ demands ∧
      m.targets = .singleton t ∧
      (target = some t ∨ target = none ∧ d.machine.states.size ≤ t) := by
  induction demands generalizing d with
  | nil => exact .inl hm
  | cons demand demands ih =>
    have hsize : d.machine.states.size ≤ (d.meet tok demand).machine.states.size := by
      have hmeet : Edits tok (fun _ => True) (fun _ _ => True) d (d.meet tok demand) :=
        edits_meet (Nat.le_refl _) (demand.allowed_of_forall fun _ _ => trivial)
      exact hmeet.size_le
    rcases ih hm with hm | ⟨target, t, hmem, htargets, htarget⟩
    · refine (moves_meet hm).imp_right ?_
      rintro ⟨target, t, rfl, hrest⟩
      exact ⟨target, t, List.mem_cons_self, hrest⟩
    · refine .inr ⟨target, t, List.mem_cons_of_mem _ hmem, htargets, htarget.imp_right ?_⟩
      exact fun hnone => ⟨hnone.1, Nat.le_trans hsize hnone.2⟩

/-! ## Heads in a machine of several tokens -/

/-- The nodes of a structure have got their states in `d₁`, and `demands` are the moves that it asks
for. -/
structure Laid (d : Draft) (tok : SymbolId) (e : Phrase) (heads : List NodeId) (d₁ : Draft)
    (demands : List Demand) : Prop where
  wellFormed : d.WellFormed
  shows_closed : ∃ up, d.grammar.Shows e none up
  nodup : e.nodes.Nodup
  reads : e.ReadsAll d.grammar
  numbers : d.Numbers tok (some Machine.start) (some e.entry) e.nodes heads d₁
  leading : ∀ x ∈ e.nodes, Leading d.grammar none heads x
  demanded : ∃ depth fuel, d₁.grammar.tokenMoves depth fuel e.entry = some demands

namespace Laid

variable (h : d.Laid tok e heads d₁ demands)
include h

theorem shows₁ : ∃ up, d₁.grammar.Shows e none up := by
  obtain ⟨up, hshows⟩ := h.shows_closed
  exact ⟨up, h.numbers.alike.shows hshows⟩

theorem headOf_unique {z' : NodeId} (hz : d₁.HeadOf e heads s z) (hz' : d₁.HeadOf e heads s z') :
    z = z' := by
  refine hz.unique (fun y hy => ?_) h.numbers.head_inj hz'
  obtain ⟨t, ht, hle, _⟩ := h.numbers.head_state y hy
  exact ⟨t, ht, Nat.lt_of_lt_of_le h.wellFormed.size_pos hle⟩

theorem headOf_lt (hz : d₁.HeadOf e heads s z) : s < d₁.machine.states.size := by
  rcases hz with ⟨rfl, _⟩ | ⟨hz, hs⟩
  · exact Nat.lt_of_lt_of_le h.wellFormed.size_pos h.numbers.size_le
  · obtain ⟨t, ht, _, hlt⟩ := h.numbers.head_state z hz
    exact Option.some.inj (hs.symm.trans ht) ▸ hlt

theorem size_le_of_head (hz : z ∈ heads) (hzs : (d₁.grammar.node z).state = some s) :
    d.machine.states.size ≤ s := by
  obtain ⟨t, ht, hle, _⟩ := h.numbers.head_state z hz
  exact Option.some.inj (hzs.symm.trans ht) ▸ hle

theorem mem_of_headOf (hz : d₁.HeadOf e heads s z) : z ∈ e.nodes := by
  rcases hz with ⟨_, rfl⟩ | ⟨hz, _⟩
  · exact e.entry_mem_nodes
  · exact h.numbers.head_mem z hz

/-- One gets to every node from the head of its state. -/
theorem exists_head {x : NodeId} (hx : x ∈ e.nodes) (hs : (d₁.grammar.node x).state = some s) :
    ∃ z, d₁.HeadOf e heads s z ∧ d₁.grammar.Passes z x := by
  obtain ⟨s', hs', ⟨hstart, y, hy, hpass⟩ | ⟨z, hz, hzs, hpass⟩⟩ := h.numbers.state_mem x hx
  · obtain rfl := Option.some.inj (hs.symm.trans hs')
    obtain rfl := Option.some.inj hy
    exact ⟨e.entry, .inl ⟨(Option.some.inj hstart).symm, rfl⟩, h.numbers.alike.passes hpass⟩
  · obtain rfl := Option.some.inj (hs.symm.trans hs')
    exact ⟨z, .inr ⟨hz, hzs⟩, h.numbers.alike.passes hpass⟩

/-- A demanded move reads a leaf to which one gets from the head of its state. -/
theorem exists_leaf_of_demand {on : Trigger} {part : Part} {target : Option StateId}
    (hmem : .edge s on part target ∈ demands) :
    ∃ z q, d₁.HeadOf e heads s z ∧ d₁.grammar.Passes z q ∧
      (d₁.grammar.node q).kind.reads? = some (on, part) ∧
      target = d₁.grammar.stateAt (d₁.grammar.node q).next := by
  obtain ⟨up, hshows⟩ := h.shows₁
  obtain ⟨depth, fuel, hmoves⟩ := h.demanded
  rcases Grammar.tokenMoves_sound hshows.mem_of_onward e.entry_mem_nodes hmoves hmem with
    ⟨diag, heq⟩ | ⟨x, s', t, q, hx, hs, hleaves, hedge⟩
  · cases heq
  · obtain ⟨⟨on', part'⟩, hreads, heq⟩ := Option.map_eq_some_iff.1 hedge
    obtain ⟨rfl, rfl, rfl, rfl⟩ := Demand.edge.inj heq
    -- the head of the state of `x` is also the head of what leaves it there
    obtain ⟨z, hz, hpass⟩ : ∃ z, d₁.HeadOf e heads s' z ∧ d₁.grammar.Passes z x := by
      rcases hs with hs | ⟨rfl, rfl⟩
      · exact h.exists_head hx hs
      · exact ⟨e.entry, .inl ⟨rfl, rfl⟩, .refl _⟩
    rcases hleaves with ⟨rfl, hxq⟩ | ⟨i, hxi, hkind, hit, hiq⟩
    · exact ⟨z, q, hz, hpass.trans hxq, hreads, rfl⟩
    · have hi := hshows.mem_of_passes hx hxi
      refine ⟨i, q, .inr ⟨(h.leading i hi).iter ?_, hit⟩, hiq, hreads, rfl⟩
      rwa [h.numbers.alike.agrees.kind_eq] at hkind

/-- A move that was added at the state of a head reads a leaf to which one gets from there, and leads
to the head behind the leaf, or to an end without moves. -/
theorem exists_leaf_of_move (hz : d₁.HeadOf e heads s z) (hnew : m ∉ (d.machine.state s).moves)
    (hm : m ∈ ((demands.foldl (Draft.meet tok) d₁).machine.state s).moves) :
    ∃ q t, d.grammar.Passes z q ∧ (d.grammar.node q).kind.reads? = some (m.on, m.part) ∧
      m.targets = .singleton t ∧
      ((∃ y ∈ heads, (d.grammar.node q).next = some y ∧ (d₁.grammar.node y).state = some t) ∨
        (d.grammar.node q).next = none ∧ d₁.machine.states.size ≤ t) := by
  have halike := h.numbers.alike
  rcases moves_foldl_meet hm with hm | ⟨target, t, hmem, htargets, htarget⟩
  · rw [h.numbers.moves_eq] at hm
    exact absurd hm hnew
  · obtain ⟨z', q, hz', hpass, hreads, rfl⟩ := h.exists_leaf_of_demand hmem
    obtain rfl := h.headOf_unique hz hz'
    obtain ⟨up, hshows⟩ := h.shows₁
    have hq := hshows.mem_of_passes (h.mem_of_headOf hz) hpass
    rw [halike.agrees.kind_eq] at hreads
    rw [halike.agrees.next_eq] at htarget
    refine ⟨q, t, halike.symm.passes hpass, hreads, htargets, ?_⟩
    cases hnext : (d.grammar.node q).next with
    | none =>
      rw [hnext] at htarget
      exact .inr ⟨rfl, (htarget.resolve_left nofun).2⟩
    | some y =>
      have hy := ((h.leading q hq).behind (.inl (by rw [hreads]; rfl)) y hnext).resolve_right nofun
      obtain ⟨t', ht', _⟩ := h.numbers.head_state y hy
      have hstate : d₁.grammar.stateAt (some y) = some t' := ht'
      rw [hnext, hstate] at htarget
      obtain rfl := Option.some.inj (htarget.resolve_right fun hnone => nomatch hnone.1)
      exact .inl ⟨y, hy, rfl, ht'⟩

theorem below : ∀ demand ∈ demands, demand.Below d₁.machine.states.size := by
  intro demand hmem
  cases demand with
  | fault diag => trivial
  | edge s on part target =>
    obtain ⟨z, _, hz, _⟩ := h.exists_leaf_of_demand hmem
    exact h.headOf_lt hz

/-- The nodes with a new state in which the token ends can be passed to the end from their head. -/
theorem walks_of_endOf (hz : d₁.HeadOf e heads s z) (hs : d.machine.states.size ≤ s)
    (hend : (d₁.machine.state s).endOf = some tok) : d.grammar.Walks (some z) [] := by
  obtain ⟨up, hshows⟩ := h.shows_closed
  rcases (h.numbers.endOf_iff s).1 hend with hold | ⟨x, hx, hxs, hdel⟩
  · rw [default_of_size_le hs] at hold
    cases hold
  · obtain ⟨z', hz', hpass⟩ := h.exists_head hx hxs
    obtain rfl := h.headOf_unique hz hz'
    refine Grammar.walks_of_passes (h.numbers.alike.symm.passes hpass) ?_
    exact (Grammar.deletableChain_iff hshows h.nodup h.reads hx).1 hdel

/-- A run that begins with an added move goes along a walk from the head of its state, if this is so
behind the leaf that the move reads. -/
theorem exists_trace_cons
    (htriggers : (demands.foldl (Draft.meet tok) d₁).grammar.triggers = d.grammar.triggers)
    (hz : d₁.HeadOf e heads s z) (hnew : m ∉ (d.machine.state s).moves)
    (hm : m ∈ ((demands.foldl (Draft.meet tok) d₁).machine.state s).moves)
    (hc : (demands.foldl (Draft.meet tok) d₁).grammar.triggers m.on c = true) (hu : u ∈ m.targets)
    (hleads : (demands.foldl (Draft.meet tok) d₁).Leads u w t)
    (hbehind : ∀ y ∈ heads, (d₁.grammar.node y).state = some u →
      ∃ ps, d.grammar.Walks (some y) ps ∧
        (demands.foldl (Draft.meet tok) d₁).Traces d.grammar u ps w t) :
    ∃ ps, d.grammar.Walks (some z) ps ∧
      (demands.foldl (Draft.meet tok) d₁).Traces d.grammar s ps (c :: w) t := by
  have hmet : d₁.Met tok demands _ := met_foldl h.below
  obtain ⟨q, v, hpass, hreads, htargets, hnext⟩ := h.exists_leaf_of_move hz hnew hm
  have hleaf := Grammar.reads?_of_isLeaf (Option.isSome_of_eq_some hreads)
  have hg := hc
  rw [htriggers] at hg
  obtain rfl : u = v := by rwa [htargets, BitSet.mem_singleton] at hu
  rcases hnext with ⟨y, hy, hnext, hstate⟩ | ⟨hnext, hlast⟩
  · obtain ⟨ps, hwalks, htrace⟩ := hbehind y hy hstate
    exact ⟨q :: ps, Grammar.walks_cons.2 ⟨hpass, hleaf, hnext ▸ hwalks⟩,
      .cons hm hreads hg hc hu htrace⟩
  · -- from the end behind the last leaf no move leads on
    cases w with
    | nil =>
      obtain rfl : u = t := hleads
      refine ⟨[q], Grammar.walks_cons.2 ⟨hpass, hleaf, ?_⟩, .cons hm hreads hg hc hu (.nil u)⟩
      rw [hnext, Grammar.walks_none]
    | cons c' w =>
      obtain ⟨x, hstep, _⟩ := hleads
      exact absurd hstep (hmet.stuck u c' x hlast)

/-- A run from the new state of a head to an end of the token goes along a walk from the head. -/
theorem exists_trace_of_head
    (htriggers : (demands.foldl (Draft.meet tok) d₁).grammar.triggers = d.grammar.triggers)
    (hz : z ∈ heads) (hzs : (d₁.grammar.node z).state = some s)
    (hleads : (demands.foldl (Draft.meet tok) d₁).Leads s w t)
    (hend : ((demands.foldl (Draft.meet tok) d₁).machine.state t).endOf = some tok) :
    ∃ ps, d.grammar.Walks (some z) ps ∧
      (demands.foldl (Draft.meet tok) d₁).Traces d.grammar s ps w t := by
  have hmet : d₁.Met tok demands _ := met_foldl h.below
  induction w generalizing s z with
  | nil =>
    obtain rfl : s = t := hleads
    have hhead : d₁.HeadOf e heads s z := .inr ⟨hz, hzs⟩
    rw [hmet.endOf_eq s (h.headOf_lt hhead)] at hend
    exact ⟨[], h.walks_of_endOf hhead (h.size_le_of_head hz hzs) hend, .nil s⟩
  | cons c w ih =>
    obtain ⟨u, ⟨m, hm, hc, hu⟩, hleads⟩ := hleads
    have hnew : m ∉ (d.machine.state s).moves := by
      rw [default_of_size_le (h.size_le_of_head hz hzs)]
      exact List.not_mem_nil
    exact h.exists_trace_cons htriggers (.inr ⟨hz, hzs⟩) hnew hm hc hu hleads
      fun y hy hstate => ih hy hstate hleads

end Laid

/-! ## Declaring a token -/

/-- Declaring a token changes no state, or it does what the collected moves ask for. -/
theorem addToken_cases {p : NodeId}
    (hrun : assignStates tok (d.grammar.nodes.size + 1) (some p) (some Machine.start) true d = some d₁) :
    (d.addToken p tok).machine = d.machine ∨ ∃ depth fuel demands,
      d₁.grammar.tokenMoves depth fuel p = some demands ∧
        d.addToken p tok = demands.foldl (Draft.meet tok) d₁ := by
  unfold Draft.addToken
  split
  · exact .inl rfl
  · dsimp only
    unfold addTokenWithin
    rw [hrun]
    cases hmoves : d₁.grammar.tokenMoves
        ((d.grammar.nodes.size + 1) * (d.grammar.nodes.size + 1) * (d.grammar.nodes.size + 1))
        (d.grammar.nodes.size + 1) p with
    | none =>
      refine .inl ?_
      simp [hmoves]
    | some demands =>
      refine .inr ⟨_, _, demands, hmoves, ?_⟩
      simp [hmoves]

/-- A run into the new states of a declared structure goes along a leaf sequence of the structure. -/
theorem exists_trace_addToken (hd : d.Sound) (hreturn : d.NoReturn) (hshows : d.grammar.Shows e none up)
    (hnodup : e.nodes.Nodup) (hnone : ∀ x ∈ e.nodes, (d.grammar.node x).state = none)
    (hreads : e.ReadsAll d.grammar) (ht : d.machine.states.size ≤ t)
    (hleads : (d.addToken e.entry tok).Leads Machine.start w t)
    (hend : ((d.addToken e.entry tok).machine.state t).endOf = some tok) :
    ∃ ps ∈ e.walks, (d.addToken e.entry tok).Traces d.grammar Machine.start ps w t := by
  have hpos := hd.wellFormed.size_pos
  have hedits := edits_addToken_whole ⟨e, up, hshows, hnodup, rfl, hnone⟩ tok
  have htriggers : (d.addToken e.entry tok).grammar.triggers = d.grammar.triggers := by
    unfold Grammar.triggers Grammar.charClass
    rw [(hd.addToken e.entry tok).classes_eq]
  suffices htrace : ∃ ps, d.grammar.Walks (some e.entry) ps ∧
      (d.addToken e.entry tok).Traces d.grammar Machine.start ps w t by
    obtain ⟨ps, hwalks, htrace⟩ := htrace
    exact ⟨ps, (Grammar.walks_closed hshows).1 hwalks, htrace⟩
  obtain ⟨d₁, heads, hrun, hnumbers, _, hleading⟩ :=
    exists_numbers tok hpos hshows hnodup hreads hnone
  rcases addToken_cases hrun with hsame | ⟨depth, fuel, demands, hmoves, heq⟩
  · -- there is no end in a new state
    have hnew := default_of_size_le ht
    rw [Machine.state] at hend hnew
    rw [hsame, hnew] at hend
    cases hend
  · rw [heq] at hleads hend hedits htriggers ⊢
    have hlaid : d.Laid tok e heads d₁ demands :=
      ⟨hd.wellFormed, ⟨up, hshows⟩, hnodup, hreads, hnumbers, hleading, depth, fuel, hmoves⟩
    cases w with
    | nil =>
      obtain rfl : Machine.start = t := hleads
      exact absurd hpos (Nat.not_lt.2 ht)
    | cons c w =>
      obtain ⟨u, ⟨m, hm, hc, hu⟩, hleads⟩ := hleads
      refine hlaid.exists_trace_cons htriggers (.inl ⟨rfl, rfl⟩) (fun hold => ?_) hm hc hu hleads
        fun y hy hstate => hlaid.exists_trace_of_head htriggers hy hstate hleads hend
      -- by an old move one does not get to a new state
      have hlt := hd.wellFormed.target_lt _ m hold u hu
      have hstart : u ≠ Machine.start := fun heq => hreturn _ m hold (heq ▸ hu)
      exact Nat.not_lt.2 ht (hreturn.leads_lt hd.wellFormed hedits hlt hstart hleads)

/-! ## Machines of token structures -/

/-- Every run to an end of a token goes along a leaf sequence of one of its structures. -/
def Accounted (d : Draft) (es : List Declaration) : Prop :=
  ∀ w t a, d.Leads Machine.start w t → (d.machine.state t).endOf = some a →
    ∃ e ∈ es, e.tok = a ∧ (e.phrase.ReadsAll e.grammar → ∃ ps ∈ e.phrase.walks,
      d.Traces e.grammar Machine.start ps w t)

namespace Accounted

variable {es : List Declaration} (h : d.Accounted es)
include h

/-- A change of the grammar only. -/
theorem revise (hd : d.WellFormed) (hstate : ∀ s, d'.machine.state s = d.machine.state s)
    (hgrammar : d.grammar.Continues free d'.grammar) : d'.Accounted es := by
  intro w t a hleads hend
  have hmoves : ∀ s, (d'.machine.state s).moves = (d.machine.state s).moves := fun s =>
    congrArg _ (hstate s)
  rw [hstate] at hend
  obtain ⟨e, he, htok, htrace⟩ := h w t a (leads_of_moves_eq hd hmoves hgrammar hleads) hend
  refine ⟨e, he, htok, fun hreads => ?_⟩
  obtain ⟨ps, hps, htrace⟩ := htrace hreads
  exact ⟨ps, hps, htrace.mono hd (fun s m hm => hmoves s ▸ hm) hgrammar⟩

/-- A run in the machine with a further structure leads to an old state and is there already, or it
leads to a new state and goes along the structure. -/
theorem addToken (hd : d.Sound) (hreturn : d.NoReturn) (hshows : d.grammar.Shows e none up)
    (hnodup : e.nodes.Nodup) (hnone : ∀ x ∈ e.nodes, (d.grammar.node x).state = none)
    (tok : SymbolId) : (d.addToken e.entry tok).Accounted (⟨tok, d.grammar, e⟩ :: es) := by
  intro w t a hleads hend
  have hedits := edits_addToken_whole ⟨e, up, hshows, hnodup, rfl, hnone⟩ tok
  have hgrammar := continues_addToken d e.entry tok
  by_cases ht : t < d.machine.states.size
  · obtain ⟨_, hold⟩ := hedits.leads_old hd.wellFormed ht hleads hgrammar
    have hend := (hedits.endOf_new hend).resolve_right fun hnew => Nat.not_lt.2 hnew.2 ht
    obtain ⟨e', he', htok, htrace⟩ := h w t a hold hend
    refine ⟨e', List.mem_cons_of_mem _ he', htok, fun hreads => ?_⟩
    obtain ⟨ps, hps, htrace⟩ := htrace hreads
    exact ⟨ps, hps, htrace.mono hd.wellFormed (fun _ _ => hedits.mem_moves) hgrammar⟩
  · have ht := Nat.not_lt.1 ht
    have htok : a = tok := by
      rcases hedits.endOf_new hend with hold | hnew
      · rw [default_of_size_le ht] at hold
        cases hold
      · exact hnew.1
    subst htok
    refine ⟨⟨a, d.grammar, e⟩, List.mem_cons_self, rfl, fun hreads => ?_⟩
    exact exists_trace_addToken hd hreturn hshows hnodup hnone hreads ht hleads hend

end Accounted

/-- The drafts that arise from the machine without tokens by declaring token structures and comments,
and the structures, with the last one in front.  In between the grammar grows in any way that
fits. -/
inductive Tokenized : List Declaration → Draft → Prop
  | initial {g : Grammar} (hfit : g.Fit 1) : Tokenized [] ⟨.initial, g⟩
  | token {es : List Declaration} {d : Draft} (h : Tokenized es d) {e : Phrase} {up : Bool}
      (hshows : d.grammar.Shows e none up) (hnodup : e.nodes.Nodup)
      (hnone : ∀ x ∈ e.nodes, (d.grammar.node x).state = none) (tok : SymbolId) :
      Tokenized (⟨tok, d.grammar, e⟩ :: es) (d.addToken e.entry tok)
  | comment {es : List Declaration} {d : Draft} (h : Tokenized es d) (start stop : NodeId)
      (nested : Bool) : Tokenized es (d.addComment start stop nested)
  /-- other declarations in between: classes are only added, and nodes refer to what there is -/
  | revise {es : List Declaration} {d : Draft} (h : Tokenized es d) {g : Grammar}
      (hfit : g.Fit d.machine.states.size) (hgrammar : d.grammar.Continues (fun _ => True) g) :
      Tokenized es { d with grammar := g }

namespace Tokenized

variable {es : List Declaration}

theorem declared (h : Tokenized es d) : d.Declared Grammar.BeginsStructure := by
  induction h with
  | initial hfit => exact .initial hfit
  | token _ hshows hnodup hnone tok ih => exact ih.token ⟨_, _, hshows, hnodup, rfl, hnone⟩ tok
  | comment _ start stop nested ih => exact ih.comment start stop nested
  | revise _ hfit hgrammar ih => exact ih.revise hfit hgrammar.size_le

theorem accounted (h : Tokenized es d) : d.Accounted es := by
  induction h with
  | initial =>
    intro w t a _ hend
    rw [endOf_initial] at hend
    cases hend
  | token h hshows hnodup hnone tok ih =>
    exact ih.addToken h.declared.sound h.declared.noReturn hshows hnodup hnone tok
  | @comment es d h start stop nested ih =>
    obtain ⟨faults, hgrammar⟩ := d.exists_grammar_addComment start stop nested
    have hcontinues : d.grammar.Continues (fun _ => False) (d.addComment start stop nested).grammar := by
      rw [hgrammar]
      exact Grammar.continues_reportAll faults
    exact ih.revise h.declared.sound.wellFormed (fun _ => state_addComment) hcontinues
  | revise h _ hgrammar ih => exact ih.revise h.declared.sound.wellFormed (fun _ => rfl) hgrammar

/-- Every run to an end of a token goes along a leaf sequence of one of its structures. -/
theorem exists_trace (h : Tokenized es d) (hleads : d.Leads Machine.start w t)
    (hend : (d.machine.state t).endOf = some a) :
    ∃ e ∈ es, e.tok = a ∧ (e.phrase.ReadsAll e.grammar → ∃ ps ∈ e.phrase.walks,
      d.Traces e.grammar Machine.start ps w t) :=
  h.accounted w t a hleads hend

end Tokenized

end Draft

end Ebnf
