import Ebnf.Proofs.Machine.Depth
import Ebnf.Proofs.Machine.Edges
import Ebnf.Proofs.Machine.Numbering
import Ebnf.Proofs.Machine.Starts
import Ebnf.Proofs.Phrase.Assembly

/-!
# What the machine of a token recognises

A token structure is declared on the machine without tokens.  The states of the
machine stand for their heads: a text leads from the state to an end of the token
if it is spelled by a walk from the head.  There is one exception.  The moves of a
state are collected at its head only if a state begins there, and a leaf may lead
to a head at which none begins.

Main results:

- Theorem `Draft.Numbered.accepts_iff`: what the machine accepts from a state.
- Theorem `Grammar.Assembled.leads_addToken_iff`: the machine of a token accepts the
  words that are spelled by walks through the token structure which do not go on
  behind a stranded leaf.
- Theorem `Grammar.Assembled.mem_language_of_leads`: so it accepts only words of the
  language of the token.
-/

namespace Ebnf

namespace Grammar

variable {g : Grammar} {e : Phrase}

/-- The nodes are visited, and the moves are collected that leave at the starts. -/
theorem Shows.exists_moves (h : g.Shows e none false) (hnodup : e.nodes.Nodup)
    (hreads : e.ReadsAll g) (hstate : ∀ x ∈ e.nodes, ∃ s, (g.node x).state = some s) :
    ∃ own marked, g.moves g.searchBound (g.nodes.size + 1) (some e.entry) true ∅ =
        some (own, marked) ∧
      ∀ demand, demand ∈ own ↔ ∃ x ∈ e.starts true, g.CollectedAt g.searchBound demand x := by
  have hnodes : chainNodes [e] = e.nodes := List.append_nil _
  have hstarts : chainStarts true [e] = e.starts true := List.append_nil _
  have hunmarked : g.Unmarked g.searchBound none [e] ∅ := by
    refine ⟨.singleton h, by simpa using hreads, hnodes ▸ hnodup,
      fun x _ => BitSet.not_mem_empty x, nofun, fun x hx => ?_⟩
    rw [hnodes] at hx
    obtain ⟨s, hs⟩ := hstate x hx
    exact ⟨s, hs, h.leaving_isSome hnodup hx s ∅⟩
  have hlen := h.length_nodes_le hnodup
  obtain ⟨own, marked, hmoves, hgathers⟩ := visitsChain true hunmarked
    (Nat.le_trans (Nat.le_of_eq (congrArg List.length hnodes)) (Nat.le_succ_of_le hlen))
  exact ⟨own, marked, hmoves, hstarts ▸ hgathers.mem_demands⟩

/-- A closed token structure is deletable if it may be empty. -/
theorem Shows.deletableChain_eq (h : g.Shows e none false) (hnodup : e.nodes.Nodup)
    (hreads : e.ReadsAll g) : g.deletableChain (some e.entry) = e.nullable (fun _ => false) := by
  rw [Bool.eq_iff_iff, deletableChain_iff h hnodup hreads e.entry_mem_nodes, walks_entry_nil h]
  simp

end Grammar

namespace Draft

variable {d d' : Draft} {tok : SymbolId} {e : Phrase} {heads : List NodeId} {s : StateId}
  {x z z' : NodeId}

/-! ## Heads -/

/-- The state `s` begins at the node `z`: it is the start state and the first node, or a head with
its state. -/
def HeadOf (d : Draft) (e : Phrase) (heads : List NodeId) (s : StateId) (z : NodeId) : Prop :=
  s = Machine.start ∧ z = e.entry ∨ z ∈ heads ∧ (d.grammar.node z).state = some s

/-- Where heads have different states after the start state, a state begins at one node only. -/
theorem HeadOf.unique (hz : d.HeadOf e heads s z)
    (hstate : ∀ z ∈ heads, ∃ t, (d.grammar.node z).state = some t ∧ Machine.start < t)
    (hinj : ∀ z ∈ heads, ∀ z' ∈ heads, (d.grammar.node z).state = (d.grammar.node z').state → z = z')
    (hz' : d.HeadOf e heads s z') : z = z' := by
  -- the state of a head is not the start state
  have hne : ∀ {y : NodeId}, y ∈ heads → (d.grammar.node y).state ≠ some Machine.start := by
    intro y hy hstart
    obtain ⟨t, ht, hlt⟩ := hstate y hy
    exact Nat.ne_of_lt hlt (Option.some.inj (hstart.symm.trans ht))
  rcases hz with ⟨rfl, rfl⟩ | ⟨hz, hs⟩ <;> rcases hz' with ⟨hs', rfl⟩ | ⟨hz', hs'⟩
  · rfl
  · exact absurd hs' (hne hz')
  · exact absurd (hs' ▸ hs) (hne hz)
  · exact hinj z hz z' hz' (hs.trans hs'.symm)

/-- The moves of the state that begins at the node `z` are collected: a state begins there indeed, or
the node is an iteration. -/
def Live (d : Draft) (e : Phrase) (z : NodeId) : Prop :=
  z ∈ e.starts true ∨ (d.grammar.node z).kind = .iter

/-- The nodes of a closed token structure have got their states, and no moves were added yet. -/
structure Numbered (d : Draft) (tok : SymbolId) (e : Phrase) (heads : List NodeId) : Prop where
  shows_closed : d.grammar.Shows e none false
  nodup : e.nodes.Nodup
  reads : e.ReadsAll d.grammar
  solid : e.solid = true
  not_nullable : e.nullable (fun _ => false) = false
  moves_eq : ∀ s, (d.machine.state s).moves = []
  size_pos : 0 < d.machine.states.size
  exists_head : ∀ x ∈ e.nodes, ∃ s z, (d.grammar.node x).state = some s ∧ d.HeadOf e heads s z ∧
    d.grammar.Passes z x
  head_mem : ∀ z ∈ heads, z ∈ e.nodes
  head_state : ∀ z ∈ heads, ∃ s, (d.grammar.node z).state = some s ∧ Machine.start < s ∧
    s < d.machine.states.size
  head_inj : ∀ z ∈ heads, ∀ z' ∈ heads, (d.grammar.node z).state = (d.grammar.node z').state → z = z'
  entry : (d.grammar.node e.entry).kind ≠ .iter → (d.grammar.node e.entry).state = some Machine.start
  leading : ∀ x ∈ e.nodes, Leading d.grammar none heads x
  endOf_iff : ∀ s, (d.machine.state s).endOf = some tok ↔
    ∃ x ∈ e.nodes, (d.grammar.node x).state = some s ∧ d.grammar.Walks (some x) []

/-- The demanded moves are those that leave, in the state of a live head, at this head. -/
def Demanded (d : Draft) (e : Phrase) (heads : List NodeId) (demands : List Demand) : Prop :=
  ∀ s on part target, .edge s on part target ∈ demands ↔ ∃ z q, d.HeadOf e heads s z ∧ d.Live e z ∧
    d.grammar.Passes z q ∧ d.grammar.edgeAt s q = some (.edge s on part target)

/-- A text leads from a state to an end of the token. -/
def Accepts (d : Draft) (tok : SymbolId) (s : StateId) (w : List Nat) : Prop :=
  ∃ t, d.Leads s w t ∧ (d.machine.state t).endOf = some tok

theorem accepts_cons {c : Nat} {w : List Nat} :
    d.Accepts tok s (c :: w) ↔ ∃ t, d.Steps s c t ∧ d.Accepts tok t w := by
  constructor
  · rintro ⟨t, ⟨u, hstep, hleads⟩, hend⟩
    exact ⟨u, hstep, t, hleads, hend⟩
  · rintro ⟨u, hstep, t, hleads, hend⟩
    exact ⟨t, ⟨u, hstep, hleads⟩, hend⟩

namespace Numbered

variable {demands : List Demand} (h : d.Numbered tok e heads)
include h

theorem headOf_unique (hz : d.HeadOf e heads s z) (hz' : d.HeadOf e heads s z') : z = z' := by
  refine hz.unique (fun y hy => ?_) h.head_inj hz'
  obtain ⟨t, ht, hlt, _⟩ := h.head_state y hy
  exact ⟨t, ht, hlt⟩

theorem headOf_lt (hz : d.HeadOf e heads s z) : s < d.machine.states.size := by
  rcases hz with ⟨rfl, _⟩ | ⟨hz, hs⟩
  · exact h.size_pos
  · obtain ⟨t, ht, _, hlt⟩ := h.head_state z hz
    exact Option.some.inj (hs.symm.trans ht) ▸ hlt

theorem mem_of_headOf (hz : d.HeadOf e heads s z) : z ∈ e.nodes := by
  rcases hz with ⟨_, rfl⟩ | ⟨hz, _⟩
  · exact e.entry_mem_nodes
  · exact h.head_mem z hz

theorem exists_state (hx : x ∈ e.nodes) : ∃ s, (d.grammar.node x).state = some s := by
  obtain ⟨s, _, hs, _⟩ := h.exists_head x hx
  exact ⟨s, hs⟩

/-- One gets to every node from the head of its state. -/
theorem passes_of_headOf (hx : x ∈ e.nodes) (hstate : (d.grammar.node x).state = some s)
    (hz : d.HeadOf e heads s z) : d.grammar.Passes z x := by
  obtain ⟨t, y, ht, hy, hpass⟩ := h.exists_head x hx
  obtain rfl := Option.some.inj (hstate.symm.trans ht)
  rwa [h.headOf_unique hz hy]

/-- An iteration is the head of its state. -/
theorem headOf_iter (hx : x ∈ e.nodes) (hkind : (d.grammar.node x).kind = .iter)
    (hstate : (d.grammar.node x).state = some s) : d.HeadOf e heads s x :=
  .inr ⟨(h.leading x hx).iter hkind, hstate⟩

/-- What stands behind a leaf is the head of its state. -/
theorem mem_heads_behind {q y : NodeId} (hq : q ∈ e.nodes)
    (hkind : (d.grammar.node q).kind.reads?.isSome = true ∨ (d.grammar.node q).kind = .opt)
    (hy : (d.grammar.node q).next = some y) : y ∈ heads :=
  ((h.leading q hq).behind hkind y hy).resolve_right nofun

/-- A start is the head of its state. -/
theorem headOf_start (hx : x ∈ e.starts true) (hstate : (d.grammar.node x).state = some s) :
    d.HeadOf e heads s x := by
  rcases h.shows_closed.eq_or_behind_of_mem_starts h.reads hx with ⟨_, rfl⟩ | ⟨q, hq, hkind, hnext⟩
  · by_cases hiter : (d.grammar.node e.entry).kind = .iter
    · exact h.headOf_iter e.entry_mem_nodes hiter hstate
    · rw [h.entry hiter] at hstate
      exact .inl ⟨(Option.some.inj hstate).symm, rfl⟩
  · exact .inr ⟨h.mem_heads_behind hq hkind hnext, hstate⟩

/-! ## The demands -/

/-- The search from every node succeeds. -/
theorem exists_leaving (hx : x ∈ e.nodes) (s : StateId) :
    ∃ ds passed, d.grammar.leaving d.grammar.searchBound s (some x) ∅ = some (ds, passed) := by
  obtain ⟨⟨ds, passed⟩, hrun⟩ := Option.isSome_iff_exists.1
    (h.shows_closed.leaving_isSome h.nodup hx s ∅)
  exact ⟨ds, passed, hrun⟩

theorem solid_of_mem (hx : x ∈ e.nodes) : d.grammar.Solid x :=
  h.shows_closed.solid h.nodup h.reads h.solid hx

/-- The moves that leave a state at a start leave the states of heads. -/
theorem exists_head_of_mem_leaving {ds : List Demand} {passed : BitSet} {on : Trigger} {part : Part}
    {t : StateId} {target : Option StateId} (hx : x ∈ e.starts true) (hhead : d.HeadOf e heads s x)
    (hrun : d.grammar.leaving d.grammar.searchBound s (some x) ∅ = some (ds, passed))
    (hmem : .edge t on part target ∈ ds) :
    ∃ z q, d.HeadOf e heads t z ∧ d.Live e z ∧
      d.grammar.Passes z q ∧ d.grammar.edgeAt t q = some (.edge t on part target) := by
  rcases Grammar.leaving_sound hrun hmem with ⟨diag, heq⟩ | ⟨y, hy, u, q, hedge, hleaves⟩
  · cases heq
  · obtain rfl := Option.some.inj hy
    obtain rfl : u = t := by
      obtain ⟨r, _, heq⟩ := Option.map_eq_some_iff.1 hedge
      cases heq
      rfl
    rcases hleaves with ⟨rfl, hpass⟩ | ⟨i, hi, hkind, hstate, hpass⟩
    · exact ⟨x, q, hhead, .inl hx, hpass, hedge⟩
    · have hmem := h.shows_closed.mem_of_passes (Phrase.mem_nodes_of_mem_starts hx) hi
      exact ⟨i, q, h.headOf_iter hmem hkind hstate, .inr hkind, hpass, hedge⟩

/-- The moves at a live head are collected: from its own state, or from the iteration that it is. -/
theorem exists_collectedAt {q : NodeId} {demand : Demand} (hz : z ∈ heads)
    (hstate : (d.grammar.node z).state = some s)
    (hlive : d.Live e z) (hpass : d.grammar.Passes z q)
    (hedge : d.grammar.edgeAt s q = some demand) :
    ∃ x ∈ e.starts true, d.grammar.CollectedAt d.grammar.searchBound demand x := by
  obtain ⟨x, hx, hleaves⟩ : ∃ x ∈ e.starts true, ∀ t, (d.grammar.node x).state = some t →
      d.grammar.LeavesAt t x s q := by
    rcases hlive with hlive | hkind
    · refine ⟨z, hlive, fun t ht => .inl ⟨?_, hpass⟩⟩
      exact Option.some.inj (hstate.symm.trans ht)
    · -- one gets to an iteration from a start
      obtain ⟨x, hx, hxz⟩ := h.shows_closed.exists_passes true h.reads h.nodup (h.head_mem z hz)
      refine ⟨x, ?_, fun t _ => .inr ⟨z, hxz, hkind, hstate, hpass⟩⟩
      rcases hx with rfl | hx
      · exact (Phrase.entry_mem_starts h.nodup).2 rfl
      · exact hx
  have hmem := Phrase.mem_nodes_of_mem_starts hx
  obtain ⟨t, _, ht, _⟩ := h.exists_head x hmem
  obtain ⟨ds, passed, hrun⟩ := h.exists_leaving hmem t
  exact ⟨x, hx, t, ds, passed, ht, hrun,
    Grammar.leaving_complete (h.solid_of_mem hmem) hrun (hleaves t ht) hedge⟩

/-- The demands are the moves that leave the states of live heads. -/
theorem exists_tokenMoves : ∃ demands, d.grammar.tokenMoves d.grammar.searchBound
      (d.grammar.nodes.size + 1) e.entry = some demands ∧ d.Demanded e heads demands := by
  have hentry : e.entry ∈ e.starts true := (Phrase.entry_mem_starts h.nodup).2 rfl
  obtain ⟨own, marked, hmoves, hown⟩ :=
    h.shows_closed.exists_moves h.nodup h.reads fun x hx => h.exists_state hx
  have hsound : ∀ {s : StateId} {on : Trigger} {part : Part} {target : Option StateId},
      .edge s on part target ∈ own → ∃ z q, d.HeadOf e heads s z ∧
        d.Live e z ∧ d.grammar.Passes z q ∧
        d.grammar.edgeAt s q = some (.edge s on part target) := by
    intro s on part target hmem
    obtain ⟨x, hx, t, ds, passed, ht, hrun, hin⟩ := (hown _).1 hmem
    exact h.exists_head_of_mem_leaving hx (h.headOf_start hx ht) hrun hin
  unfold Grammar.tokenMoves
  simp only [hmoves, Option.bind_eq_bind, Option.bind_some]
  by_cases hiter : (d.grammar.node e.entry).kind = .iter
  · -- the start state gets the moves of the iteration
    obtain ⟨ds, passed, hrun⟩ := h.exists_leaving e.entry_mem_nodes Machine.start
    refine ⟨own ++ ds, by simp [hiter, hrun], fun s on part target => ?_⟩
    rw [List.mem_append]
    constructor
    · rintro (hmem | hmem)
      · exact hsound hmem
      · exact h.exists_head_of_mem_leaving hentry (.inl ⟨rfl, rfl⟩) hrun hmem
    · rintro ⟨z, q, ⟨rfl, rfl⟩ | ⟨hz, hstate⟩, hlive, hpass, hedge⟩
      · exact .inr (Grammar.leaving_complete (h.solid_of_mem e.entry_mem_nodes) hrun
          (.inl ⟨rfl, hpass⟩) hedge)
      · exact .inl ((hown _).2 (h.exists_collectedAt hz hstate hlive hpass hedge))
  · refine ⟨own, by simp [hiter], fun s on part target => ⟨hsound, ?_⟩⟩
    rintro ⟨z, q, ⟨rfl, rfl⟩ | ⟨hz, hstate⟩, hlive, hpass, hedge⟩
    · obtain ⟨ds, passed, hrun⟩ := h.exists_leaving e.entry_mem_nodes Machine.start
      refine (hown _).2 ⟨e.entry, hentry, Machine.start, ds, passed, h.entry hiter, hrun, ?_⟩
      exact Grammar.leaving_complete (h.solid_of_mem e.entry_mem_nodes) hrun (.inl ⟨rfl, hpass⟩) hedge
    · exact (hown _).2 (h.exists_collectedAt hz hstate hlive hpass hedge)

/-! ## Reading a text -/

/-- What stands behind a leaf is a live head, unless the leaf is stranded. -/
theorem live_behind {q y : NodeId} (hq : q ∈ e.nodes)
    (hreads : (d.grammar.node q).kind.reads?.isSome = true)
    (hy : (d.grammar.node q).next = some y) : d.Live e y ↔ q ∉ e.stranded := by
  rcases h.shows_closed.starts_behind true h.nodup hq hreads with ⟨hlast, _⟩ | ⟨y', _, hy', hiff⟩
  · rw [h.shows_closed.next_of_mem_exits (Phrase.mem_exits_of_mem_leafExits hlast)] at hy
    cases hy
  · obtain rfl := Option.some.inj (hy.symm.trans hy')
    exact hiff

theorem accepts_nil (hmet : d.Met tok demands d') (hz : d.HeadOf e heads s z) :
    d'.Accepts tok s [] ↔ d.grammar.Walks (some z) [] := by
  have hend : d'.Accepts tok s [] ↔ (d.machine.state s).endOf = some tok := by
    rw [← hmet.endOf_eq s (h.headOf_lt hz)]
    constructor
    · rintro ⟨t, rfl, hend⟩
      exact hend
    · exact fun hend => ⟨s, rfl, hend⟩
  rw [hend, h.endOf_iff]
  constructor
  · rintro ⟨x, hx, hstate, hwalks⟩
    exact Grammar.walks_of_passes (h.passes_of_headOf hx hstate hz) hwalks
  · intro hwalks
    rcases hz with ⟨rfl, rfl⟩ | ⟨hz, hstate⟩
    · -- the token cannot be empty
      have hnull := ((Grammar.walks_entry_nil h.shows_closed).1 hwalks).1
      rw [h.not_nullable] at hnull
      cases hnull
    · exact ⟨z, h.head_mem z hz, hstate, hwalks⟩

theorem mem_of_reads {q : NodeId} (hz : d.HeadOf e heads s z) (hpass : d.grammar.Passes z q) :
    q ∈ e.nodes :=
  h.shows_closed.mem_of_passes (h.mem_of_headOf hz) hpass

/-- What stands behind a leaf has a state, and is the head of it. -/
theorem exists_headOf_behind {q y : NodeId} (hq : q ∈ e.nodes)
    (hreads : (d.grammar.node q).kind.reads?.isSome = true)
    (hy : (d.grammar.node q).next = some y) :
    ∃ t, d.grammar.stateAt (d.grammar.node q).next = some t ∧ d.HeadOf e heads t y := by
  have hmem := h.mem_heads_behind hq (.inl hreads) hy
  obtain ⟨t, ht, _⟩ := h.head_state y hmem
  refine ⟨t, ?_, .inr ⟨hmem, ht⟩⟩
  rw [hy]
  exact ht

/-- A character is read at a leaf to which one gets from the head of the state.  It leads to the head
behind the leaf, or to an end without moves. -/
theorem exists_leaf_of_steps {t : StateId} {c : Nat} (hdemands : d.Demanded e heads demands)
    (hmet : d.Met tok demands d') (hz : d.HeadOf e heads s z) (hstep : d'.Steps s c t) :
    d.Live e z ∧ ∃ q, d.grammar.Passes z q ∧ Phrase.Reads d.grammar q c ∧
      ((∃ y, (d.grammar.node q).next = some y ∧ d.HeadOf e heads t y) ∨
        (d.grammar.node q).next = none ∧ ∀ c u, ¬ d'.Steps t c u) := by
  rcases hmet.step s c t hstep with ⟨m, hm, _⟩ | ⟨on, part, target, hmem, hc, htarget⟩
  · rw [h.moves_eq] at hm
    cases hm
  · obtain ⟨z', q, hz', hlive, hpass, hedge⟩ := (hdemands s on part target).1 hmem
    obtain rfl := h.headOf_unique hz hz'
    obtain ⟨⟨on', part'⟩, hreads, heq⟩ := Option.map_eq_some_iff.1 hedge
    obtain ⟨-, rfl, rfl, hstate⟩ := Demand.edge.inj heq
    refine ⟨hlive, q, hpass, ⟨on', part', hreads, hc⟩, ?_⟩
    cases hnext : (d.grammar.node q).next with
    | none =>
      rw [hnext] at hstate
      obtain ⟨_, hle, _⟩ := htarget.resolve_left fun hsome => nomatch hstate.trans hsome
      exact .inr ⟨rfl, fun c u => hmet.stuck t c u hle⟩
    | some y =>
      obtain ⟨u, hu, hhead⟩ := h.exists_headOf_behind (h.mem_of_reads hz hpass) (by rw [hreads]; rfl)
        hnext
      have htu := htarget.resolve_right fun hnone => nomatch hu.symm.trans (hstate.trans hnone.1)
      obtain rfl := Option.some.inj (hu.symm.trans (hstate.trans htu))
      exact .inl ⟨y, rfl, hhead⟩

/-- Each leaf to which one gets from a live head reads its characters. -/
theorem exists_steps {q : NodeId} {c : Nat} (hdemands : d.Demanded e heads demands)
    (hmet : d.Met tok demands d') (hz : d.HeadOf e heads s z) (hlive : d.Live e z)
    (hpass : d.grammar.Passes z q) (hreads : Phrase.Reads d.grammar q c) :
    ∃ t, d'.Steps s c t ∧ match (d.grammar.node q).next with
      | some y => d.HeadOf e heads t y
      | none => (d'.machine.state t).endOf = some tok := by
  obtain ⟨on, part, hreads, hc⟩ := hreads
  have hmem : ∀ {target : Option StateId}, d.grammar.stateAt (d.grammar.node q).next = target →
      .edge s on part target ∈ demands := by
    rintro target rfl
    refine (hdemands s on part _).2 ⟨z, q, hz, hlive, hpass, ?_⟩
    rw [Grammar.edgeAt, hreads]
    rfl
  cases hnext : (d.grammar.node q).next with
  | none =>
    obtain ⟨t, hle, hlt, hstep⟩ := hmet.steps_of_none s on part c (hmem (by rw [hnext]; rfl)) hc
    exact ⟨t, hstep, hmet.final t hle hlt⟩
  | some y =>
    obtain ⟨t, ht, hhead⟩ := h.exists_headOf_behind (h.mem_of_reads hz hpass) (by rw [hreads]; rfl)
      hnext
    exact ⟨t, hmet.steps_of_some s on part t c (hmem ht) hc, hhead⟩

/-- What the machine accepts from the state of a head: the words of the walks from the head that do
not go on behind a stranded leaf. -/
theorem accepts_iff {w : List Nat} (hdemands : d.Demanded e heads demands)
    (hmet : d.Met tok demands d') (hz : d.HeadOf e heads s z) :
    d'.Accepts tok s w ↔ ∃ ps, d.grammar.Walks (some z) ps ∧ Phrase.Spells d.grammar ps w ∧
      (ps ≠ [] → d.Live e z) ∧ ∀ q ∈ ps.dropLast, q ∉ e.stranded := by
  induction w generalizing s z with
  | nil =>
    rw [h.accepts_nil hmet hz]
    constructor
    · exact fun hwalks => ⟨[], hwalks, .nil, by simp, by simp⟩
    · rintro ⟨ps, hwalks, hspells, _⟩
      cases hspells
      exact hwalks
  | cons c w ih =>
    rw [accepts_cons]
    constructor
    · rintro ⟨t, hstep, haccepts⟩
      obtain ⟨hlive, q, hpass, hread, hnext⟩ := h.exists_leaf_of_steps hdemands hmet hz hstep
      have hkind := hread.isSome
      have hleaf := Grammar.reads?_of_isLeaf hkind
      rcases hnext with ⟨y, hy, hhead⟩ | ⟨hnone, hstuck⟩
      · obtain ⟨ps, hwalks, hspells, hlive', hstranded⟩ := (ih hhead).1 haccepts
        refine ⟨q :: ps, Grammar.walks_cons.2 ⟨hpass, hleaf, hy ▸ hwalks⟩, .cons hread hspells,
          fun _ => hlive, ?_⟩
        cases ps with
        | nil => simp
        | cons p ps =>
          rw [List.dropLast_cons_cons]
          refine List.forall_mem_cons.2 ⟨?_, hstranded⟩
          exact (h.live_behind (h.mem_of_reads hz hpass) hkind hy).1 (hlive' nofun)
      · -- behind the last leaf there is nothing to read
        cases w with
        | nil =>
          refine ⟨[q], Grammar.walks_cons.2 ⟨hpass, hleaf, ?_⟩, .cons hread .nil, fun _ => hlive,
            by simp⟩
          rw [hnone, Grammar.walks_none]
        | cons c' w =>
          obtain ⟨u, hstep', _⟩ := accepts_cons.1 haccepts
          exact absurd hstep' (hstuck c' u)
    · rintro ⟨ps, hwalks, hspells, hlive, hstranded⟩
      cases hspells with
      | @cons q _ ps _ hread hspells =>
        obtain ⟨hpass, _, hrest⟩ := Grammar.walks_cons.1 hwalks
        have hkind := hread.isSome
        obtain ⟨t, hstep, hnext⟩ := h.exists_steps hdemands hmet hz (hlive nofun) hpass hread
        refine ⟨t, hstep, ?_⟩
        cases hy : (d.grammar.node q).next with
        | none =>
          rw [hy] at hnext hrest
          obtain rfl := Grammar.walks_none.1 hrest
          cases hspells
          exact ⟨t, rfl, hnext⟩
        | some y =>
          rw [hy] at hnext hrest
          refine (ih hnext).2 ⟨ps, hrest, hspells, fun hne => ?_, fun p hp => hstranded p ?_⟩
          · refine (h.live_behind (h.mem_of_reads hz hpass) hkind hy).2 (hstranded q ?_)
            rw [List.dropLast_cons_of_ne_nil hne]
            exact List.mem_cons_self
          · cases ps with
            | nil => cases hp
            | cons p' ps => exact List.mem_cons_of_mem q hp

end Numbered

/-! ## Declaring the token -/

variable {g : Grammar}

theorem endOf_initial (s : StateId) : (Machine.initial.state s).endOf = none := by
  cases s <;> rfl

theorem moves_initial (s : StateId) : (Machine.initial.state s).moves = [] := by
  cases s <;> rfl

/-- The first pass over a closed token structure. -/
theorem exists_numbered (tok : SymbolId) (hshows : g.Shows e none false) (hnodup : e.nodes.Nodup)
    (hreads : e.ReadsAll g) (hsolid : e.solid = true) (hnull : e.nullable (fun _ => false) = false)
    (hstate : ∀ x ∈ e.nodes, (g.node x).state = none) :
    ∃ d heads, assignStates tok (g.nodes.size + 1) (some e.entry) (some Machine.start) true
        ⟨.initial, g⟩ = some d ∧ g.Alike d.grammar ∧ d.Numbered tok e heads := by
  obtain ⟨d, heads, hrun, hnumbers, henter, hleading⟩ :=
    exists_numbers (d := ⟨.initial, g⟩) tok Nat.one_pos hshows hnodup hreads hstate
  have halike : g.Alike d.grammar := hnumbers.alike
  refine ⟨d, heads, hrun, halike, halike.shows hshows, hnodup, halike.readsAll hreads, hsolid, hnull,
    fun s => ?_, ?_, fun x hx => ?_, hnumbers.head_mem, hnumbers.head_state, hnumbers.head_inj,
    fun hkind => ?_, fun x hx => ?_, fun s => ?_⟩
  · rw [hnumbers.moves_eq]
    exact moves_initial s
  · exact Nat.lt_of_lt_of_le Nat.one_pos hnumbers.size_le
  · obtain ⟨s, hs, ⟨hstart, y, hy, hpass⟩ | ⟨z, hz, hzs, hpass⟩⟩ := hnumbers.state_mem x hx
    · obtain rfl := Option.some.inj hy
      exact ⟨s, e.entry, hs, .inl ⟨(Option.some.inj hstart).symm, rfl⟩, halike.passes hpass⟩
    · exact ⟨s, z, hs, .inr ⟨hz, hzs⟩, halike.passes hpass⟩
  · refine henter.shared nofun fun hkind' => hkind ?_
    rw [halike.agrees.kind_eq]
    exact hkind'
  · have hlead := hleading x hx
    exact ⟨halike.agrees.kind_eq x ▸ hlead.iter, halike.agrees.next_eq x ▸ halike.agrees.kind_eq x ▸ hlead.behind⟩
  · rw [hnumbers.endOf_iff, endOf_initial]
    simp only [reduceCtorEq, false_or]
    refine exists_congr fun x => and_congr_right fun hx => and_congr_right fun _ => ?_
    rw [← Grammar.deletableChain_iff (halike.shows hshows) hnodup (halike.readsAll hreads) hx,
      halike.agrees.deletableChain_eq]

/-- A token structure that is not deletable is declared if both passes succeed. -/
theorem addToken_eq {p : NodeId} {demands : List Demand}
    (hfilled : d.grammar.deletableChain (some p) = false)
    (hrun : assignStates tok (d.grammar.nodes.size + 1) (some p) (some Machine.start) true d =
      some d')
    (hmoves : d'.grammar.tokenMoves d.grammar.searchBound (d.grammar.nodes.size + 1) p =
      some demands) :
    d.addToken p tok = demands.foldl (Draft.meet tok) d' := by
  have hwithin : d.addTokenWithin d.grammar.searchBound (d.grammar.nodes.size + 1) p tok =
      some (demands.foldl (Draft.meet tok) d') :=
    Option.bind_eq_some_iff.2 ⟨d', hrun, Option.bind_eq_some_iff.2 ⟨demands, hmoves, rfl⟩⟩
  unfold addToken
  rw [if_neg (by rw [hfilled]; exact Bool.false_ne_true)]
  exact congrArg (Option.getD · _) hwithin

/-- What the machine of a closed token structure accepts. -/
theorem accepts_addToken_iff (tok : SymbolId) (w : List Nat) (hshows : g.Shows e none false)
    (hnodup : e.nodes.Nodup) (hreads : e.ReadsAll g) (hsolid : e.solid = true)
    (hnull : e.nullable (fun _ => false) = false)
    (hstate : ∀ x ∈ e.nodes, (g.node x).state = none) :
    (addToken ⟨.initial, g⟩ e.entry tok).Accepts tok Machine.start w ↔
      ∃ ps ∈ e.walks, Phrase.Spells g ps w ∧ ∀ q ∈ ps.dropLast, q ∉ e.stranded := by
  obtain ⟨d, heads, hrun, halike, hnumbered⟩ :=
    exists_numbered tok hshows hnodup hreads hsolid hnull hstate
  obtain ⟨demands, hmoves, hdemands⟩ := hnumbered.exists_tokenMoves
  have hbelow : ∀ demand ∈ demands, demand.Below d.machine.states.size := by
    intro demand hmem
    cases demand with
    | fault diag => trivial
    | edge s on part target =>
      obtain ⟨z, _, hz, _⟩ := (hdemands s on part target).1 hmem
      exact hnumbered.headOf_lt hz
  have heq : addToken ⟨.initial, g⟩ e.entry tok = demands.foldl (Draft.meet tok) d := by
    rw [Grammar.searchBound, halike.size_eq] at hmoves
    exact addToken_eq ((hshows.deletableChain_eq hnodup hreads).trans hnull) hrun hmoves
  rw [heq, hnumbered.accepts_iff hdemands (met_foldl hbelow) (.inl ⟨rfl, rfl⟩)]
  refine exists_congr fun ps => ?_
  have hlive : d.Live e e.entry := .inl ((Phrase.entry_mem_starts hnodup).2 rfl)
  rw [Grammar.walks_closed hnumbered.shows_closed, halike.spells_iff]
  simp only [hlive, implies_true, true_and]

end Draft

namespace Grammar

variable {g : Grammar} {e : Phrase} {pool : List Phrase}

theorem kind_close {f : Fragment} (p : NodeId) : ((g.close f).node p).kind = (g.node p).kind := by
  rw [close, node_link]
  split <;> rfl

theorem state_close {f : Fragment} (p : NodeId) : ((g.close f).node p).state = (g.node p).state := by
  rw [close, node_link]
  split <;> rfl

theorem triggers_close {f : Fragment} : (g.close f).triggers = g.triggers := by
  have hclasses : (g.close f).classes = g.classes := classes_link
  unfold triggers charClass
  rw [hclasses]

theorem readsAll_close {f : Fragment} (h : e.ReadsAll g) : e.ReadsAll (g.close f) := by
  induction e with
  | leaf p =>
    rw [Phrase.ReadsAll, kind_close]
    exact h
  | seq a b iha ihb => exact ⟨iha h.1, ihb h.2⟩
  | arm p e ih | opt p e ih | iter p e ih => exact ih h
  | alt p e r ihe ihr => exact ⟨ihe h.1, ihr h.2⟩

/-- What the machine of an assembled token structure accepts. -/
theorem Assembled.accepts_iff (h : Assembled g (e :: pool)) (hreads : e.ReadsAll g)
    (hsolid : e.solid = true) (hnull : e.nullable (fun _ => false) = false) (tok : SymbolId)
    (w : List Nat) :
    (Draft.addToken ⟨.initial, g.close e.fragment⟩ e.entry tok).Accepts tok Machine.start w ↔
      ∃ ps ∈ e.walks, Phrase.Spells g ps w ∧ ∀ q ∈ ps.dropLast, q ∉ e.stranded := by
  have hpool := h.toPool
  rw [Draft.accepts_addToken_iff tok w h.shows_close (hpool.nodup e List.mem_cons_self)
    (readsAll_close hreads) hsolid hnull fun x hx => ?_]
  · simp only [Phrase.spells_congr kind_close triggers_close]
  · rw [state_close]
    exact hpool.state_eq e List.mem_cons_self x hx

/-! ## A stranded leaf -/

/-- A grammar in which the token structure `(a {b} | d) c` is put together. -/
def crossing : Grammar :=
  let (a, g) := initial.addLeaf { kind := .char 97 .main, line := 1 }
  let (b, g) := g.addLeaf { kind := .char 98 .main, line := 1 }
  let (loop, g) := g.iteration b
  let (long, g) := g.sequence a loop
  let (arms, g) := g.firstArm long
  let (d, g) := g.addLeaf { kind := .char 100 .main, line := 1 }
  let (arms, g) := g.addArm arms d
  let (c, g) := g.addLeaf { kind := .char 99 .main, line := 1 }
  (g.sequence arms c).2

/-- The token structure `(a {b} | d) c`. -/
def crossingPhrase : Phrase :=
  .seq (.alt 3 (.seq (.leaf 0) (.iter 2 (.leaf 1))) (.arm 5 (.leaf 4))) (.leaf 6)

theorem assembled_crossing : Assembled crossing [crossingPhrase] := by
  have hchar : ∀ c, (NodeKind.char c .main).isLeaf = true := fun _ => rfl
  have hloop := (((Assembled.start .initial).leaf (hchar 97) 1 none).leaf (hchar 98) 1 none).iteration
  have harm := ((hloop.perm (.swap _ _ _)).sequence).firstArm
  have harms := ((harm.leaf (hchar 100) 1 none).perm (.swap _ _ _)).addArm rfl
  exact ((harms.leaf (hchar 99) 1 none).perm (.swap _ _ _)).sequence

theorem readsAll_crossing : crossingPhrase.ReadsAll crossing := by
  have hreads : ∀ p ∈ [0, 1, 4, 6], (crossing.node p).kind.reads?.isSome = true := by
    decide +kernel
  exact ⟨⟨⟨hreads 0 (by simp), hreads 1 (by simp)⟩, hreads 4 (by simp)⟩, hreads 6 (by simp)⟩

theorem reads_crossing {p : NodeId} {c d : Nat}
    (hkind : (crossing.node p).kind = .char c .main) : Phrase.Reads crossing p d ↔ d = c := by
  constructor
  · rintro ⟨on, part, hreads, htriggers⟩
    rw [hkind] at hreads
    cases hreads
    exact (beq_iff_eq.1 htriggers).symm
  · rintro rfl
    refine ⟨.char d, .main, ?_, beq_self_eq_true d⟩
    rw [hkind]
    rfl

/-- The walk through `a`, two rounds of `b` and `c` spells a word. -/
theorem spells_crossing : Phrase.Spells crossing [0, 1, 1, 6] [97, 98, 98, 99] := by
  have h0 : Phrase.Reads crossing 0 97 := (reads_crossing (by decide +kernel)).2 rfl
  have h1 : Phrase.Reads crossing 1 98 := (reads_crossing (by decide +kernel)).2 rfl
  have h6 : Phrase.Reads crossing 6 99 := (reads_crossing (by decide +kernel)).2 rfl
  exact .cons h0 (.cons h1 (.cons h1 (.cons h6 .nil)))

theorem walk_mem_crossing : [0, 1, 1, 6] ∈ crossingPhrase.walks := by
  refine ⟨[0, 1, 1], .inl ⟨[0], rfl, [1, 1], ⟨[[1], [1]], rfl, ?_⟩, rfl⟩, [6], rfl, rfl⟩
  intro ps hps
  exact (List.mem_cons.1 hps).elim id List.mem_singleton.1

theorem stranded_crossing : crossingPhrase.stranded = [4] :=
  rfl

/-! ## Declaring an assembled token -/

/-- The machine of a token leads to an end of the token along the texts that are spelled by a walk
through the token structure, as long as the walk does not go on behind a stranded leaf.  Without
stranded leaves these are all words of the token. -/
theorem Assembled.leads_addToken_iff (h : Assembled g (e :: pool)) (hreads : e.ReadsAll g)
    (hsolid : e.solid = true) (hnull : e.nullable (fun _ => false) = false) (tok : SymbolId) :
    let d := Draft.addToken ⟨.initial, g.close e.fragment⟩ e.entry tok
    (∀ w, (∃ s, d.Leads Machine.start w s ∧ (d.machine.state s).endOf = some tok) ↔
      ∃ ps ∈ e.walks, Phrase.Spells g ps w ∧ ∀ q ∈ ps.dropLast, q ∉ e.stranded) ∧
    (e.stranded = [] → ∀ w ∈ e.language g,
      ∃ s, d.Leads Machine.start w s ∧ (d.machine.state s).endOf = some tok) := by
  have haccepts := fun w => h.accepts_iff hreads hsolid hnull tok w
  refine ⟨haccepts, fun hstranded w hw => (haccepts w).2 ?_⟩
  obtain ⟨ps, hps, hspells⟩ := Phrase.mem_language.1 hw
  exact ⟨ps, hps, hspells, by simp [hstranded]⟩

theorem Assembled.leads_addToken_iff_crossing :
    let d := Draft.addToken ⟨.initial, crossing.close crossingPhrase.fragment⟩ crossingPhrase.entry 1
    ∃ s, d.Leads Machine.start [97, 98, 98, 99] s ∧ (d.machine.state s).endOf = some 1 :=
  ((assembled_crossing.leads_addToken_iff readsAll_crossing rfl rfl 1).1 _).2
    ⟨_, walk_mem_crossing, spells_crossing, by simp [stranded_crossing]⟩

/-- The machine of `(a {b} | d) c` does not lead to the end of the token along the word `dc`. -/
theorem Assembled.not_leads_crossing :
    Assembled crossing [crossingPhrase] ∧ crossingPhrase.ReadsAll crossing ∧
      crossingPhrase.solid = true ∧ crossingPhrase.nullable (fun _ => false) = false ∧
      [100, 99] ∈ crossingPhrase.language crossing ∧
      let d := Draft.addToken ⟨.initial, crossing.close crossingPhrase.fragment⟩ crossingPhrase.entry 1
      ¬ ∃ s, d.Leads Machine.start [100, 99] s ∧ (d.machine.state s).endOf = some 1 := by
  have h4 : Phrase.Reads crossing 4 100 := (reads_crossing (by decide +kernel)).2 rfl
  have h6 : Phrase.Reads crossing 6 99 := (reads_crossing (by decide +kernel)).2 rfl
  have hmem : [4, 6] ∈ crossingPhrase.walks := ⟨[4], .inr rfl, [6], rfl, rfl⟩
  refine ⟨assembled_crossing, readsAll_crossing, rfl, rfl,
    Phrase.mem_language.2 ⟨[4, 6], hmem, .cons h4 (.cons h6 .nil)⟩, fun haccepts => ?_⟩
  obtain ⟨ps, hps, hspells, hstranded⟩ :=
    (assembled_crossing.accepts_iff readsAll_crossing rfl rfl 1 _).1 haccepts
  obtain ⟨qs, hqs, rs, hrs, rfl⟩ := hps
  rcases hqs with ⟨ps, hps, qs, _, rfl⟩ | hqs
  · -- the first arm begins with `a`
    obtain rfl : ps = [0] := hps
    cases hspells with
    | cons hread _ =>
      have heq : 100 = 97 := (reads_crossing (by decide +kernel)).1 hread
      cases heq
  · obtain rfl : qs = [4] := hqs
    obtain rfl : rs = [6] := hrs
    exact hstranded 4 (by simp) (by simp [stranded_crossing])

/-- The machine of a token leads to an end of the token along words of its language only. -/
theorem Assembled.mem_language_of_leads (h : Assembled g (e :: pool)) (hreads : e.ReadsAll g)
    (hsolid : e.solid = true) (hnull : e.nullable (fun _ => false) = false) (tok : SymbolId) :
    let d := Draft.addToken ⟨.initial, g.close e.fragment⟩ e.entry tok
    ∀ w s, d.Leads Machine.start w s → (d.machine.state s).endOf = some tok → w ∈ e.language g := by
  intro d w s hleads hend
  obtain ⟨ps, hps, hspells, _⟩ := (h.accepts_iff hreads hsolid hnull tok w).1 ⟨s, hleads, hend⟩
  exact Phrase.mem_language.2 ⟨ps, hps, hspells⟩

theorem Assembled.mem_language_of_leads_crossing :
    let d := Draft.addToken ⟨.initial, crossing.close crossingPhrase.fragment⟩ crossingPhrase.entry 1
    (∃ s, d.Leads Machine.start [97, 98, 98, 99] s ∧ (d.machine.state s).endOf = some 1) ∧
      [97, 98, 98, 99] ∈ crossingPhrase.language crossing := by
  obtain ⟨s, hleads, hend⟩ := (assembled_crossing.accepts_iff readsAll_crossing rfl rfl 1 _).2
    ⟨_, walk_mem_crossing, spells_crossing, by simp [stranded_crossing]⟩
  exact ⟨⟨s, hleads, hend⟩,
    assembled_crossing.mem_language_of_leads readsAll_crossing rfl rfl 1 _ s hleads hend⟩

end Grammar

end Ebnf
