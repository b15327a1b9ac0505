import Ebnf.Proofs.Analysis.Passing
import Ebnf.Proofs.Analysis.Sets
import Ebnf.Proofs.Phrase.Parts

/-!
# ANY behind a part that can be empty

An ANY in the middle of a production loses the terminals with which something can begin
that is passed in front of it.  This is not only what stands in front as a whole: in
`[ a [ b ] ] ANY` the second option is passed on its own after `a`, and so `b` is taken
from the ANY as well.

Main results:

- Theorem `Grammar.Composed.mem_first_contents`: what is searched is what the contents of
  a part begin with.
- Theorem `Grammar.AnyBehind.mem_set_computeAnys`: what an ANY loses to the parts in front
  of it.
- Theorem `Grammar.Orderly.mem_anyBehind`: which terminals are taken from the ANY, and
  which are left.
-/

namespace Ebnf

namespace Grammar

variable {g g' : Grammar} {pool : List Phrase} {d e f x : Phrase} {rs : List Phrase}
  {k : Option NodeId} {up : Bool} {a p q : NodeId} {s t : SymbolId} {n : Nat}

/-! ## Parts in front of an ANY -/

/-- If an alternative in front that can be empty begins with the terminal, then its first arm does, or
something that can be empty at the end of one of its arms. -/
def Led (g : Grammar) (pool : List Phrase) (d : Phrase) (n : Nat) : Prop :=
  ∀ x, Phrase.Borders (g.Vanishes pool) false d x → x.isArms = true → g.Vanishes pool x →
    g.Starts pool x n → g.Starts pool x.opening n ∨
      ∃ b ∈ x.bodies, ∃ y, Phrase.Borders (g.Vanishes pool) true b y ∧ g.Vanishes pool y ∧
        g.Starts pool y n

/-- The production is `d`, an ANY and what follows.  There are no other ANYs in it, nor in the
productions of nonterminals in `d`. -/
structure AnyBehind (g : Grammar) (pool : List Phrase) (s : SymbolId) (d : Phrase) (a : NodeId)
    (rs : List Phrase) : Prop where
  mem : s ∈ g.nonterminals
  production : ∃ e ∈ pool, (g.sym s).production = some e.entry ∧ e.parts = d.parts ++ .leaf a :: rs
  kind_eq : (g.node a).kind = .any
  only : ∀ q, g.InProduction pool s q → (g.node q).kind = .any → q = a
  referenced : ∀ p ∈ d.nodes, ∀ t, (g.node p).kind = .nonterminal t →
    ∀ q, g.InProduction pool t q → (g.node q).kind = .any → q = a

/-! ## The search through the contents of a part -/

theorem opensWith_leaf : g.OpensWith n (.leaf p) ↔
    n ∈ g.ownTerminals p ∨ ∃ q ∈ g.within p, g.CanBegin n q := by
  constructor
  · rintro ⟨_, rfl, h, (hn | ⟨q, hq, i, _, hb⟩) | ⟨_, hnil⟩⟩
    · exact .inl hn
    · exact .inr ⟨q, hq, i, hb⟩
    · exact hnil.elim
  · rintro (hn | ⟨q, hq, i, hb⟩)
    · exact ⟨[p], rfl, 0, .inl (.inl hn)⟩
    · exact ⟨[p], rfl, i + 1, .inl (.inr ⟨q, hq, i, i.lt_succ_self, hb⟩)⟩

/-- A leaf that can be passed without being read begins with what its production begins with. -/
theorem Composed.mem_first_leaf (hg : g.Composed pool) (hexact : g.KnownExact)
    (hshows : g.Shows (.leaf p) k up) (he : e ∈ pool) (hp : p ∈ e.nodes)
    (hdel : g.leafDeletable p = true) : n ∈ g.first (g.contents p) ↔ g.OpensWith n (.leaf p) := by
  rw [opensWith_leaf]
  have hnone : n ∉ g.first none := not_mem_first_none
  have hempty : n ∉ (∅ : BitSet) := BitSet.not_mem_empty n
  unfold leafDeletable at hdel
  unfold contents ownTerminals within
  cases hkind : (g.node p).kind with
  | nonterminal t =>
    cases hprod : (g.sym t).production with
    | none => simp [hprod, hnone, hempty]
    | some q =>
      obtain ⟨f, hf, rfl⟩ := hg.production t (hg.mem_of_kind he hp hkind) q hprod
      simp [hprod, hempty, hg.mem_first_iff hexact hf f.entry_mem_nodes]
  | eps | sync | action | resolver => simp [hshows.2.sub_eq, hnone, hempty]
  | _ => simp [hkind] at hdel

/-- The contents of a structure that are searched. -/
theorem Shows.contents_eq (h : g.Shows f k up) (hseq : ∀ a b, f ≠ .seq a b) (hleaf : ∀ p, f ≠ .leaf p) :
    g.contents f.entry = some f.opening.entry := by
  cases f with
  | leaf p => exact absurd rfl (hleaf p)
  | seq a b => exact absurd rfl (hseq a b)
  | alt p e r =>
    rw [Phrase.entry, contents, h.2.1.kind_eq]
    exact h.2.1.sub_eq
  | arm p e | opt p e | iter p e =>
    rw [Phrase.entry, contents, h.1.kind_eq]
    exact h.1.sub_eq

theorem opensWith_of_opening (h : g.OpensWith n f.opening) : g.OpensWith n f := by
  cases f with
  | leaf | seq | arm => exact h
  | alt p e r => exact opensWith_alt.2 (.inl h)
  | opt p e => exact opensWith_opt.2 h
  | iter p e => exact opensWith_iter.2 h

/-- Only an alternative begins with more than its contents that are searched. -/
theorem Shows.opensWith_opening (hshows : g.Shows f k up) (harms : f.isArms = false)
    (h : g.OpensWith n f) : g.OpensWith n f.opening := by
  cases f with
  | leaf | seq | arm => exact h
  | alt p e r => cases hshows.1.symm.trans harms
  | opt p e => exact opensWith_opt.1 h
  | iter p e => exact opensWith_iter.1 h

/-- What a phrase begins with that can be empty, a part begins with behind which the phrase can be
empty. -/
theorem exists_borders_of_opensWith {empty : Phrase → Prop}
    (hempty : ∀ e, empty e ↔ e.nullable g.leafDeletable = true) (hd : empty d) (h : g.OpensWith n d) :
    ∃ f, Phrase.Borders empty false d f ∧ empty f ∧ g.OpensWith n f := by
  induction d with
  | seq a b iha ihb =>
    obtain ⟨ha, hb⟩ : empty a ∧ empty b := by
      rw [hempty, Phrase.nullable, Bool.and_eq_true] at hd
      exact hd.imp (hempty a).2 (hempty b).2
    rcases opensWith_seq.1 h with h | ⟨_, h⟩
    · obtain ⟨f, hborders, hf⟩ := iha ha h
      exact ⟨f, .first hb hborders, hf⟩
    · obtain ⟨f, hborders, hf⟩ := ihb hb h
      exact ⟨f, .second hborders, hf⟩
  | _ => exact ⟨_, .self (by simp), hd, h⟩

/-- The part is a leaf, or the contents of it that are searched cannot be empty. -/
def Guarded (g : Grammar) (f : Phrase) : Prop :=
  (∀ p, f ≠ .leaf p) → f.opening.nullable g.leafDeletable = false

/-- What is searched is what the contents of a part begin with. -/
theorem Composed.mem_first_contents (hg : g.Composed pool) (hexact : g.KnownExact) (he : e ∈ pool)
    (hshows : g.Shows f k up) (hnodup : f.nodes.Nodup) (hnodes : f.nodes ⊆ e.nodes)
    (hseq : ∀ a b, f ≠ .seq a b) (hnull : f.nullable g.leafDeletable = true) (hguard : g.Guarded f) :
    n ∈ g.first (g.contents f.entry) ↔ g.OpensWith n f.opening := by
  by_cases hleaf : ∀ p, f ≠ .leaf p
  · obtain ⟨k', up', hbody⟩ := hshows.opening
    have hsub := f.sublist_opening
    rw [hshows.contents_eq hseq hleaf]
    exact hg.mem_first_entry hexact he hbody (hnodup.sublist hsub)
      (fun p hp => hnodes (hsub.subset hp)) (.inl (hguard hleaf))
  · push Not at hleaf
    obtain ⟨p, rfl⟩ := hleaf
    exact hg.mem_first_leaf hexact hshows he (hnodes List.mem_cons_self) hnull

/-! ## The production -/

theorem AnyBehind.congr (hany : g.AnyBehind pool s d a rs) (hnts : g'.nonterminals = g.nonterminals)
    (hprod : ∀ s, (g'.sym s).production = (g.sym s).production)
    (hkind : ∀ p, (g'.node p).kind = (g.node p).kind) : g'.AnyBehind pool s d a rs where
  mem := hnts ▸ hany.mem
  production := hprod s ▸ hany.production
  kind_eq := hkind a ▸ hany.kind_eq
  only := by
    unfold InProduction
    simp only [hprod, hkind]
    exact hany.only
  referenced := by
    unfold InProduction
    simp only [hprod, hkind]
    exact hany.referenced

theorem AnyBehind.annotates (hany : g.AnyBehind pool s d a rs) (h : g.Annotates g') :
    g'.AnyBehind pool s d a rs :=
  hany.congr h.nonterminals_eq h.production_eq h.kind_eq

/-- How the production is linked: the part in front, the ANY, and what follows. -/
structure Divided (g : Grammar) (d : Phrase) (a : NodeId) (rs : List Phrase) (e : Phrase) : Prop where
  front : g.Shows d (some a) false
  behind : g.ShowsParts rs none false
  nodes_eq : e.nodes = d.nodes ++ a :: Phrase.allNodes rs
  outline_eq : e.outline .done = d.outline (.leaf a fun _ => rs.foldr Phrase.outline .done)

theorem divided (h : g.Shows e none false) (hparts : e.parts = d.parts ++ .leaf a :: rs) :
    g.Divided d a rs e := by
  rw [shows_iff_parts, hparts, showsParts_append, ← shows_iff_parts] at h
  obtain ⟨hfront, hrest⟩ := h
  refine ⟨hfront, ?_, ?_, ?_⟩
  · cases rs with
    | nil => trivial
    | cons r rs => exact hrest.2
  · rw [← Phrase.allNodes_parts, hparts, Phrase.allNodes, List.flatMap_append, ← Phrase.allNodes,
      Phrase.allNodes_parts]
    rfl
  · rw [Phrase.outline_eq_foldr, hparts, List.foldr_append, ← Phrase.outline_eq_foldr]
    rfl

theorem Divided.mem (h : g.Divided d a rs e) : a ∈ e.nodes :=
  h.nodes_eq ▸ List.mem_append_right _ List.mem_cons_self

/-- What follows the ANY leads to nothing else. -/
theorem Divided.linked (h : g.Divided d a rs e) : g.Linked (· ∈ Phrase.allNodes rs) where
  sub_mem _ hp _ hq := h.behind.mem_of_contents hp (.inl hq)
  down_mem _ hp _ hq := h.behind.mem_of_contents hp (.inr hq)
  next_mem _ hp _ hq := (h.behind.mem_of_next hp hq).resolve_right nofun

namespace AnyBehind

variable (h : g.Composed pool) (hany : g.AnyBehind pool s d a rs)
include h hany

theorem exists_divided : ∃ e ∈ pool, (g.sym s).production = some e.entry ∧ g.Divided d a rs e ∧
    (d.nodes ++ a :: Phrase.allNodes rs).Nodup ∧ e.parts = d.parts ++ .leaf a :: rs := by
  obtain ⟨e, he, hprod, hparts⟩ := hany.production
  have hdivided := divided (h.shows_of_mem he) hparts
  exact ⟨e, he, hprod, hdivided, hdivided.nodes_eq ▸ h.nodup he, hparts⟩

/-- There are no ANYs in front. -/
theorem free : g.Free d.nodes := by
  obtain ⟨e, he, hprod, hdivided, hnodup, -⟩ := hany.exists_divided h
  intro p hp hkind
  have hpe : p ∈ e.nodes := hdivided.nodes_eq ▸ List.mem_append_left _ hp
  obtain rfl := hany.only p ⟨e, he, hprod, hpe⟩ hkind
  exact (List.nodup_append'.1 hnodup).2.2 hp List.mem_cons_self

/-- While the production is gone through, the ANY loses what is passed in front of it. -/
theorem mem_set_narrowAnys (hset : ∀ f ∈ d.pieces, g.Steady a f) :
    n ∈ ((g.narrowAnys (g.outline (g.sym s).production)).node a).set ↔
      n ∈ (g.node a).set ∧ ∀ f ∈ d.pieces, ¬ g.Takes a n f := by
  obtain ⟨e, he, hprod, hdivided, hnodup, -⟩ := hany.exists_divided h
  have houtline : g.outline (g.sym s).production =
      d.outline (.leaf a fun _ => rs.foldr Phrase.outline .done) := by
    rw [hprod, outline_entry (h.shows_of_mem he) (h.nodup he) (.inr rfl), hdivided.outline_eq]
  have hpast := g.narrowPast_shrinks d.pieces
  -- the ANY itself is not passed
  have hstop : (g.narrowPast d.pieces).narrowBehind a = g.narrowPast d.pieces := by
    have hdel : (g.narrowPast d.pieces).deletableNode a = false := by
      rw [hpast.agrees.deletableNode_eq, deletableNode, leafDeletable, hany.kind_eq]
    rw [narrowBehind, hdel]
    rfl
  have hrest : Narrows (· ∈ Phrase.allNodes rs) (g.narrowPast d.pieces)
      ((g.narrowPast d.pieces).narrowAnys (rs.foldr Phrase.outline .done)) := by
    refine (narrowAnys_narrows (hdivided.linked.congr hpast.agrees) fun q hq => ?_).1
    rwa [Phrase.nodes_foldr_outline, Outline.nodes, List.append_nil] at hq
  have hkeeps := hrest.set_eq (List.nodup_cons.1 (List.nodup_append'.1 hnodup).2.1).1
  rw [houtline, narrowAnys_outline, (narrowAnys_eq_narrowPast hdivided.front (hany.free h)).1, narrowAnys,
    hstop, hkeeps, mem_set_narrowPast hset]

end AnyBehind

/-! ## All productions -/

/-- While other productions are gone through, the ANY keeps its set. -/
theorem AnyBehind.set_foldl (h : g.Orderly pool) (hany : g.AnyBehind pool s d a rs)
    (ts : List SymbolId) (hts : ∀ t ∈ ts, t ∈ g.nonterminals ∧ t ≠ s)
    (hrun : Narrows (fun _ => True) g g') :
    let g'' := ts.foldl (fun g t => g.narrowAnys (g.outline (g.sym t).production)) g'
    Narrows (fun _ => True) g g'' ∧ (g''.node a).set = (g'.node a).set := by
  obtain ⟨e, he, hprod, hdivided, -⟩ := hany.exists_divided h.toComposed
  have ha : g.InProduction pool s a := ⟨e, he, hprod, hdivided.mem⟩
  induction ts generalizing g' with
  | nil => exact ⟨hrun, rfl⟩
  | cons t ts ih =>
    obtain ⟨⟨ht, hne⟩, hts⟩ := List.forall_mem_cons.1 hts
    have hannot := hrun.annotates
    have hother : ¬ g'.InProduction pool t a := by
      unfold InProduction
      rw [hannot.production_eq]
      exact fun hat => hne (h.eq_of_inProduction ht hany.mem hat ha)
    have hstep := (hannot.composed h.toComposed).narrowAnys_narrows (s := t) (hannot.nonterminals_eq ▸ ht)
    obtain ⟨hrun', hset⟩ := ih hts (hrun.trans (g'.narrows_narrowAnys _))
    exact ⟨hrun', hset.trans (hstep.set_eq hother)⟩

/-- What an ANY loses to the parts in front of it. -/
theorem AnyBehind.mem_set_computeAnys (h : g.Orderly pool) (hany : g.AnyBehind pool s d a rs)
    (hset : ∀ f ∈ d.pieces, g.Steady a f) :
    n ∈ (g.computeAnys.node a).set ↔ n ∈ (g.node a).set ∧ ∀ f ∈ d.pieces, ¬ g.Takes a n f := by
  obtain ⟨before, after, hsplit⟩ := List.append_of_mem hany.mem
  have hnodup := hsplit ▸ @nodup_nonterminals g
  obtain ⟨_, hafter, hdisjoint⟩ := List.nodup_append'.1 hnodup
  have hmem : ∀ t, t ∈ before ++ s :: after → t ∈ g.nonterminals := fun t => hsplit ▸ id
  obtain ⟨hrun, hbefore⟩ := hany.set_foldl h before (fun t ht => ⟨hmem t (List.mem_append_left _ ht),
    fun heq => hdisjoint ht (heq ▸ List.mem_cons_self)⟩) (.refl g)
  rw [computeAnys, hsplit, List.foldl_append, List.foldl_cons]
  generalize before.foldl (fun g t => g.narrowAnys (g.outline (g.sym t).production)) g = g₁
    at hrun hbefore
  obtain ⟨-, hafter⟩ := hany.set_foldl h after (fun t ht =>
    ⟨hmem t (List.mem_append_right _ (List.mem_cons_of_mem s ht)),
      fun heq => (List.nodup_cons.1 hafter).1 (heq ▸ ht)⟩) (hrun.trans (g₁.narrows_narrowAnys _))
  rw [hafter, (hany.annotates hrun.annotates).mem_set_narrowAnys (hrun.annotates.composed h.toComposed)
    fun f hf => hrun.shrinks.steady (hset f hf), hbefore]
  exact and_congr_right fun _ => forall₂_congr fun f hf =>
    not_congr (hrun.shrinks.takes_iff (hset f hf))

/-! ## What parts in front take -/

/-- A grammar whose flags and start sets are computed. -/
structure Started (g : Grammar) (pool : List Phrase) : Prop extends g.Orderly pool where
  closed : g.Closed
  flags : g.FlagsSound pool
  exact : g.KnownExact
  known : ∀ s ∈ g.nonterminals, (g.sym s).firstKnown = true

theorem Orderly.started (h : g.Orderly pool) (hflags : g.FlagsSound pool) :
    g.computeDeletable.computeFirsts.Started pool where
  toOrderly := h.congr_starts
  closed := computeDeletable_closed.congr (computeFirsts_sameRules _) computeFirsts_deletable
  flags := (computeFirsts_annotates _).flagsSound (h.flagsSound_computeDeletable hflags)
  exact := (h.toComposed.congr g.computeDeletable_sameRules).knownExact_computeFirsts.1
  known := by
    rw [(computeFirsts_sameRules _).nonterminals_eq]
    exact (h.toComposed.congr g.computeDeletable_sameRules).knownExact_computeFirsts.2

namespace Started

variable (h : g.Started pool)
include h

theorem informed (he : e ∈ pool) (hnodes : f.nodes ⊆ e.nodes) : g.Informed f.nodes :=
  fun _ hp t hkind => h.known t (h.mem_of_kind he (hnodes hp) hkind)

/-- A nonterminal that is flagged has a production that can be empty. -/
theorem vanishes_of_flagged (hdel : (g.sym t).deletable = true) (he : e ∈ pool)
    (hprod : (g.sym t).production = some e.entry) : g.Vanishes pool e := by
  rcases Relation.ReflTransGen.cases_head (h.flags t hdel) with heq | ⟨α, hstep, hrest⟩
  · cases heq
  · obtain ⟨_, f, hf, hprod', ps, hps, rfl⟩ := rewrites_singleton hstep
    obtain rfl := h.eq_of_production he hf hprod hprod'
    exact ⟨ps, hps, hrest⟩

end Started

namespace AnyBehind

variable (h : g.Started pool) (hany : g.AnyBehind pool s d a rs)
include h hany

/-- The production itself cannot be empty. -/
theorem not_vanishes (he : e ∈ pool) (hprod : (g.sym s).production = some e.entry) :
    ¬ g.Vanishes pool e := by
  obtain ⟨f, hf, hprod', _, _, hparts⟩ := hany.exists_divided h.toComposed
  obtain rfl := h.eq_of_production he hf hprod hprod'
  rw [← h.nullable_iff_vanishes h.closed h.flags, Phrase.nullable_parts, hparts]
  simp [Phrase.nullable, leafDeletable, hany.kind_eq]

/-- The production of a nonterminal in front that can be empty has no ANY. -/
theorem free_production (hp : p ∈ d.nodes) (hkind : (g.node p).kind = .nonterminal t)
    (hdel : (g.sym t).deletable = true) (he : e ∈ pool)
    (hprod : (g.sym t).production = some e.entry) : g.Free e.nodes := by
  intro q hq hqkind
  obtain ⟨f, hf, hprod', hdivided, -⟩ := hany.exists_divided h.toComposed
  obtain rfl := hany.referenced p hp t hkind q ⟨e, he, hprod, hq⟩ hqkind
  obtain rfl := h.eq_of_mem he hf hq hdivided.mem
  exact hany.not_vanishes h he hprod' (h.vanishes_of_flagged hdel he hprod)

/-- From in front of the ANY one sees the ANY. -/
theorem sees : ∃ e ∈ pool, g.Shows d (some a) false ∧ d.nodes ⊆ e.nodes ∧ d.nodes.Nodup ∧
    g.Sees 1 (some a) (some a) ∧ 1 + d.nodes.length ≤ g.nodes.size := by
  obtain ⟨e, he, _, hdivided, hnodup, -⟩ := hany.exists_divided h.toComposed
  refine ⟨e, he, hdivided.front, ?_, (List.nodup_append'.1 hnodup).1, fun fuel hfuel => ?_, ?_⟩
  · exact hdivided.nodes_eq ▸ List.subset_append_left _ _
  · obtain ⟨n, rfl⟩ := Nat.exists_eq_add_of_le' hfuel
    rw [outlineWithin_leaf (by rw [hany.kind_eq]; rfl), frontAny, if_pos hany.kind_eq]
  · have hlen := (h.shows_of_mem he).length_nodes_le (h.nodup he)
    rw [hdivided.nodes_eq, List.length_append, List.length_cons] at hlen
    omega

variable (hguard : ∀ f, Phrase.Borders (g.Vanishes pool) false d f → g.Vanishes pool f → g.Guarded f)
include hguard

/-- The search through what takes terminals from the ANY comes to no ANY. -/
theorem steady : ∀ f ∈ d.pieces, g.Steady a f := by
  intro f hf hdel hsees q hreach hkind
  obtain ⟨e, he, hshows, hnodes, hnodup, hsight, hroom⟩ := hany.sees h
  obtain ⟨_, hborders⟩ := (h.borders_of_leadingAny h.closed h.flags hshows hnodup
    (hany.free h.toComposed) hsight (by omega) fun _ => hroom).1 f hf hsees
  have hnodup' := hnodup.sublist hborders.sublist
  obtain ⟨k', up', hshows'⟩ := hshows.of_borders hborders
  have hnull := (deletableNode_entry hshows' hnodup' hborders.ne_seq).1.symm.trans hdel
  have hvanish := (h.nullable_iff_vanishes h.closed h.flags).1 hnull
  by_cases hleaf : ∀ p, f ≠ .leaf p
  · obtain ⟨k'', up'', hbody⟩ := hshows'.opening
    have hsub := f.sublist_opening.trans hborders.sublist
    rw [hshows'.contents_eq hborders.ne_seq hleaf] at hreach
    have hq := hbody.mem_of_reached_starts (hnodup.sublist hsub)
      (h.informed he fun p hp => hnodes (hsub.subset hp)) (.inl (hguard f hborders hvanish hleaf)) hreach
    exact hany.free h.toComposed q (hsub.subset hq) hkind
  · push Not at hleaf
    obtain ⟨p, rfl⟩ := hleaf
    have hp : p ∈ d.nodes := hborders.sublist.subset List.mem_cons_self
    cases hkindp : (g.node p).kind with
    | nonterminal t =>
      rw [Phrase.entry, contents, hkindp] at hreach
      simp only at hreach
      cases hprod : (g.sym t).production with
      | none =>
        rw [hprod] at hreach
        exact Reached.not_nil hreach
      | some r =>
        obtain ⟨f, hf, rfl⟩ := h.production t (h.mem_of_kind he (hnodes hp) hkindp) r hprod
        have hflag : (g.sym t).deletable = true := by
          simpa [Phrase.nullable, leafDeletable, hkindp] using hnull
        rw [hprod] at hreach
        have hq := (h.shows_of_mem hf).mem_of_reached_starts (h.nodup hf)
          (h.informed hf (List.Subset.refl _)) (.inr rfl) hreach
        exact hany.free_production h hp hkindp hflag hf hprod q hq hkind
    | _ =>
      simp only [Phrase.entry, contents, hkindp, hshows'.2.sub_eq] at hreach
      exact Reached.not_nil hreach

/-- The ANY loses the terminals with which the contents of parts begin that are passed in front of
it. -/
theorem mem_set_iff_opensWith : n ∈ (g.computeAnys.node a).set ↔ n ∈ (g.node a).set ∧
    ∀ f, Phrase.Borders (g.Vanishes pool) false d f → g.Vanishes pool f → ¬ g.OpensWith n f.opening := by
  obtain ⟨e, he, hshows, hnodes, hnodup, hsight, hroom⟩ := hany.sees h
  have hfree := hany.free h.toComposed
  have hpart : ∀ f, Phrase.Borders (g.Vanishes pool) false d f →
      (g.deletableNode f.entry = true ↔ g.Vanishes pool f) ∧
        (g.Vanishes pool f → (n ∈ g.first (g.contents f.entry) ↔ g.OpensWith n f.opening)) := by
    intro f hborders
    have hnodup' := hnodup.sublist hborders.sublist
    obtain ⟨k', up', hshows'⟩ := hshows.of_borders hborders
    have hnull := h.nullable_iff_vanishes h.closed h.flags (e := f)
    refine ⟨(deletableNode_entry hshows' hnodup' hborders.ne_seq).1 ▸ hnull, fun hvanish => ?_⟩
    exact h.mem_first_contents h.exact he hshows' hnodup'
      (fun p hp => hnodes (hborders.sublist.subset hp)) hborders.ne_seq (hnull.2 hvanish)
      (hguard f hborders hvanish)
  rw [hany.mem_set_computeAnys h.toOrderly (hany.steady h hguard)]
  refine and_congr_right fun _ => ⟨fun hall f hborders hvanish hopens => ?_, fun hall f hf htakes => ?_⟩
  · obtain ⟨hdel, hfirst⟩ := hpart f hborders
    obtain ⟨hf, hsees⟩ := h.leadingAny_of_borders h.closed h.flags hborders hshows hnodup hfree hsight
      (by omega) fun _ => hroom
    exact hall f hf ⟨hdel.2 hvanish, hsees, (hfirst hvanish).2 hopens⟩
  · obtain ⟨_, hborders⟩ := (h.borders_of_leadingAny h.closed h.flags hshows hnodup hfree hsight
      (by omega) fun _ => hroom).1 f hf htakes.2.1
    obtain ⟨hdel, hfirst⟩ := hpart f hborders
    have hvanish := hdel.1 htakes.1
    exact hall f hborders hvanish ((hfirst hvanish).1 htakes.2.2)

end AnyBehind

namespace AnyBehind

variable (h : g.Started pool) (hany : g.AnyBehind pool s d a rs)
include h hany

theorem starts_iff (hnodes : f.nodes ⊆ d.nodes) (hshows : g.Shows f k up) :
    g.Starts pool f n ↔ g.OpensWith n f := by
  obtain ⟨e, he, _, hnodes', _⟩ := hany.sees h
  exact h.starts_iff_opensWith h.closed h.flags he hshows (List.Subset.trans hnodes hnodes')

/-- What is passed in front of the ANY is guarded if no option, no iteration and no first arm can be
empty there. -/
theorem guarded (hgroups : ∀ x ∈ d.groups, ¬ g.Vanishes pool x.2)
    (harms : ∀ x, Phrase.Borders (g.Vanishes pool) false d x → x.isArms = true → g.Vanishes pool x →
      ¬ g.Vanishes pool x.opening)
    (hborders : Phrase.Borders (g.Vanishes pool) false d f) (hvanish : g.Vanishes pool f) :
    g.Guarded f := by
  intro hleaf
  obtain ⟨_, _, hshows, _⟩ := hany.sees h
  obtain ⟨k', up', hshows'⟩ := hshows.of_borders hborders
  rw [Bool.eq_false_iff, ne_eq, h.nullable_iff_vanishes h.closed h.flags]
  cases f with
  | leaf p => exact absurd rfl (hleaf p)
  | seq a b => exact absurd rfl (hborders.ne_seq a b)
  | arm p e => exact harms _ hborders rfl hvanish
  | alt p e r => exact harms _ hborders hshows'.1 hvanish
  | opt p e | iter p e => exact hgroups (p, e) (hborders.groups_subset List.mem_cons_self)

/-- If first arms speak for their alternatives, then nothing is left that a part in front begins with. -/
theorem not_opensWith_of_led (hled : g.Led pool d n)
    (hall : ∀ f, Phrase.Borders (g.Vanishes pool) false d f → g.Vanishes pool f →
      ¬ g.OpensWith n f.opening)
    (hborders : Phrase.Borders (g.Vanishes pool) false d f) (hvanish : g.Vanishes pool f) :
    ¬ g.OpensWith n f := by
  obtain ⟨_, _, hshows, _⟩ := hany.sees h
  induction hlen : f.nodes.length using Nat.strongRecOn generalizing f with
  | ind len ih =>
    subst hlen
    intro hopens
    obtain ⟨k', up', hshows'⟩ := hshows.of_borders hborders
    have hnodes := hborders.sublist.subset
    by_cases harms : f.isArms = true
    · have hstarts := (hany.starts_iff h hnodes hshows').2 hopens
      rcases hled f hborders harms hvanish hstarts with hfirst | ⟨b, hb, y, hy, hvanish', hstarts'⟩
      · obtain ⟨k'', up'', hbody⟩ := hshows'.opening
        refine hall f hborders hvanish ((hany.starts_iff h (fun p hp => ?_) hbody).1 hfirst)
        exact hnodes (f.sublist_opening.subset hp)
      · -- the terminal is taken by something at the end of an arm, which is smaller
        have hy' := hborders.of_body hb hy
        obtain ⟨k'', up'', hshows''⟩ := hshows.of_borders hy'
        have hlt := Nat.lt_of_le_of_lt hy.sublist.length_le (Phrase.length_lt_of_mem_bodies hb)
        exact ih _ hlt hy' hvanish' rfl ((hany.starts_iff h hy'.sublist.subset hshows'').1 hstarts')
    · exact hall f hborders hvanish (hshows'.opensWith_opening (by simpa using harms) hopens)

end AnyBehind

/-! ## All analyses -/

/-- The number of a terminal other than the end of the input and the unknown token. -/
structure Ordinary (g : Grammar) (n : Nat) : Prop where
  lt_length : n < g.terminals.length
  ne_eof : n ≠ (g.sym g.eof).number
  ne_unknown : ∀ u ∈ g.unknown, n ≠ (g.sym u).number

theorem mem_set_fillAnys (hkind : (g.node a).kind = .any) (ha : a < g.nodes.size) :
    n ∈ (g.fillAnys.node a).set ↔ g.Ordinary n := by
  have hfound : g.nodes[a]? = some (g.node a) := by simp [node, ha]
  cases hunknown : g.unknown with
  | none =>
    have hset : (g.fillAnys.node a).set =
        (BitSet.full g.terminals.length).erase (g.sym g.eof).number := by
      rw [fillAnys, hunknown, node, Array.getD_eq_getD_getElem?, Array.getElem?_map, hfound]
      simp only [Option.map_some, Option.getD_some, if_pos hkind]
    rw [hset, BitSet.mem_erase, BitSet.mem_full]
    exact ⟨fun hn => ⟨hn.1, hn.2, by simp [hunknown]⟩, fun hn => ⟨hn.lt_length, hn.ne_eof⟩⟩
  | some u =>
    have hset : (g.fillAnys.node a).set =
        ((BitSet.full g.terminals.length).erase (g.sym g.eof).number).erase (g.sym u).number := by
      rw [fillAnys, hunknown, node, Array.getD_eq_getD_getElem?, Array.getElem?_map, hfound]
      simp only [Option.map_some, Option.getD_some, if_pos hkind]
    rw [hset, BitSet.mem_erase, BitSet.mem_erase, BitSet.mem_full]
    exact ⟨fun hn => ⟨hn.1.1, hn.1.2, by simpa [hunknown] using hn.2⟩,
      fun hn => ⟨⟨hn.lt_length, hn.ne_eof⟩, hn.ne_unknown u hunknown⟩⟩

theorem Orderly.fillAnys (h : g.Orderly pool) : g.fillAnys.Orderly pool :=
  ⟨g.fillAnys_annotates.composed h.toComposed, h.apart, h.numbered, h.start⟩

theorem Orderly.computeAnys (h : g.Orderly pool) : g.computeAnys.Orderly pool := by
  have hshrinks := g.computeAnys_narrows.shrinks
  have hnts := nonterminals_congr hshrinks.symbols_eq
  refine ⟨g.computeAnys_annotates.composed h.toComposed, ?_, ?_, ?_⟩
  · simp only [hnts, hshrinks.sym_eq]
    exact h.apart
  · simp only [Numbered, hnts, hshrinks.sym_eq]
    exact h.numbered
  · rw [hnts, g.computeAnys_narrows.start_eq]
    exact h.start

theorem SameRules.vanishes_eq (h : g.SameRules g') : g'.Vanishes pool = g.Vanishes pool := by
  funext e
  simp only [Vanishes, h.letters_eq, h.derives_iff]

theorem SameRules.starts_eq (h : g.SameRules g') : g'.Starts pool = g.Starts pool := by
  funext e n
  simp only [Starts, h.letters_eq, h.derives_iff]

/-- The analyses take from the ANY what the parts in front of it begin with that are passed, as far as
first arms speak for their alternatives, and nothing else. -/
theorem AnyBehind.mem_set_computeSets (h : g.Orderly pool) (hflags : g.FlagsSound pool)
    (hany : g.AnyBehind pool s d a rs) (hvanish : g.Vanishes pool d)
    (hgroups : ∀ x ∈ d.groups, ¬ g.Vanishes pool x.2)
    (harms : ∀ x, Phrase.Borders (g.Vanishes pool) false d x → x.isArms = true →
      g.Vanishes pool x → ¬ g.Vanishes pool x.opening) :
    (n ∈ (g.computeSets.node a).set → n ∈ (g.node a).set ∧ (g.Led pool d n → ¬ g.Starts pool d n ∧
      ∀ f, Phrase.Borders (g.Vanishes pool) false d f → g.Vanishes pool f → ¬ g.Starts pool f n)) ∧
    (n ∈ (g.node a).set → (∀ f, Phrase.Borders (g.Vanishes pool) false d f → g.Vanishes pool f →
      ¬ g.Starts pool f n) → n ∈ (g.computeSets.node a).set) := by
  have hrules := g.computeDeletable_sameRules.trans (computeFirsts_sameRules _)
  have hbegun := h.started hflags
  have hany' := hany.congr hrules.nonterminals_eq hrules.production_eq hrules.kind_eq
  -- what follows and synchronisation sets leave the ANY alone
  have hlast := hbegun.toOrderly.computeAnys.computeSyncs_computeFollows_sameFirsts
  have hset : (g.computeSets.node a).set = (g.computeDeletable.computeFirsts.computeAnys.node a).set := by
    refine hlast.anys_eq a ?_
    rw [(computeAnys_annotates _).kind_eq]
    exact hany'.kind_eq
  have hsame : g.computeDeletable.computeFirsts.Vanishes pool = g.Vanishes pool := hrules.vanishes_eq
  have hsame' : g.computeDeletable.computeFirsts.Starts pool = g.Starts pool := hrules.starts_eq
  rw [hset, ← hrules.anys_eq a hany.kind_eq]
  unfold Led
  rw [← hsame] at hvanish hgroups harms ⊢
  rw [← hsame']
  generalize g.computeDeletable.computeFirsts = g₁ at hbegun hany' hvanish hgroups harms
  have hguard : ∀ f, Phrase.Borders (g₁.Vanishes pool) false d f → g₁.Vanishes pool f → g₁.Guarded f :=
    fun f => hany'.guarded hbegun hgroups harms
  obtain ⟨_, _, hshows, _⟩ := hany'.sees hbegun
  have hstarts : ∀ f, Phrase.Borders (g₁.Vanishes pool) false d f →
      (g₁.Starts pool f n ↔ g₁.OpensWith n f) := by
    intro f hborders
    obtain ⟨k', up', hshows'⟩ := hshows.of_borders hborders
    exact hany'.starts_iff hbegun hborders.sublist.subset hshows'
  rw [hany'.mem_set_iff_opensWith hbegun hguard]
  constructor
  · rintro ⟨hn, hall⟩
    refine ⟨hn, fun hled => ?_⟩
    have hparts : ∀ f, Phrase.Borders (g₁.Vanishes pool) false d f → g₁.Vanishes pool f →
        ¬ g₁.Starts pool f n := by
      intro f hborders hf
      rw [hstarts f hborders]
      exact hany'.not_opensWith_of_led hbegun hled hall hborders hf
    refine ⟨fun hwhole => ?_, hparts⟩
    have hopens := (hany'.starts_iff hbegun (List.Subset.refl _) hshows).1 hwhole
    obtain ⟨f, hborders, hf, hopens⟩ := exists_borders_of_opensWith
      (fun _ => (hbegun.nullable_iff_vanishes hbegun.closed hbegun.flags).symm) hvanish hopens
    exact hparts f hborders hf ((hstarts f hborders).2 hopens)
  · intro hn hall
    refine ⟨hn, fun f hborders hvanish hopens => hall f hborders hvanish ?_⟩
    exact (hstarts f hborders).2 (opensWith_of_opening hopens)

/-- Of the terminals that it can stand for, an ANY loses those that something in front of it can begin
with that is passed: what stands in front as a whole, and each part that can be empty and borders on the
ANY.  It keeps those with which no part begins that can be empty and behind which everything in front
can be empty.  An alternative has to begin with an arm that is not empty, and for a terminal to be lost
this arm, or something at the end of an arm, has to begin with the terminal if the alternative does. -/
theorem Orderly.mem_anyBehind (h : g.Orderly pool) (hflags : g.FlagsSound pool)
    (hany : g.AnyBehind pool s d a rs) (hvanish : g.fillAnys.Vanishes pool d)
    (hgroups : ∀ x ∈ d.groups, ¬ g.fillAnys.Vanishes pool x.2)
    (harms : ∀ x, Phrase.Borders (g.fillAnys.Vanishes pool) false d x → x.isArms = true →
      g.fillAnys.Vanishes pool x → ¬ g.fillAnys.Vanishes pool x.opening) (n : Nat) :
    (n ∈ (g.fillAnys.computeSets.node a).set → g.Ordinary n ∧ (g.fillAnys.Led pool d n →
      ¬ g.fillAnys.Starts pool d n ∧ ∀ f, Phrase.Borders (g.fillAnys.Vanishes pool) false d f →
        g.fillAnys.Vanishes pool f → ¬ g.fillAnys.Starts pool f n)) ∧
    (g.Ordinary n → (∀ f, Phrase.Closes (g.fillAnys.Vanishes pool) d f → g.fillAnys.Vanishes pool f →
      ¬ g.fillAnys.Starts pool f n) → n ∈ (g.fillAnys.computeSets.node a).set) := by
  obtain ⟨e, he, hprod, hdivided, -⟩ := hany.exists_divided h.toComposed
  have hfill := mem_set_fillAnys (n := n) hany.kind_eq (h.lt_size he hdivided.mem)
  have hany' := hany.annotates g.fillAnys_annotates
  have hflags' := g.fillAnys_annotates.flagsSound hflags
  obtain ⟨htaken, hleft⟩ := hany'.mem_set_computeSets (n := n) h.fillAnys hflags' hvanish hgroups harms
  constructor
  · intro hn
    exact (htaken hn).imp_left hfill.1
  · intro hn hall
    exact hleft (hfill.2 hn) fun f hborders => hall f hborders.closes

/-! ## An option in an option -/

/-- The production `S = [ a [ b ] ] ANY` in a grammar that also has a terminal `c`. -/
def nesting : Grammar :=
  let g := (initial.declareProduction "S"
    (.seq (.opt (.seq (.terminal "a") [.opt (.terminal "b")])) [.any]) 1).2.2
  (g.declareSymbol .terminal "c" 1).2.declareUnknown.2

/-- The part in front of the ANY. -/
def nestingFront : Phrase :=
  .opt 3 (.seq (.leaf 0) (.opt 2 (.leaf 1)))

/-- The phrase of the production. -/
def nestingPhrase : Phrase :=
  .seq nestingFront (.leaf 4)

theorem nesting_orderly : nesting.Orderly [nestingPhrase] := by
  have hterminal : ∀ s, (NodeKind.terminal s).isLeaf = true := fun _ => rfl
  have hany : NodeKind.any.isLeaf = true := rfl
  have ha := (Assembled.start (initial.declareSymbol .terminal "a" 1).2).leaf (hterminal 1) 1 none
  have hb := ((ha.declareSymbol .terminal "b" 1).leaf (hterminal 2) 1 none).option
  have hfront := (hb.perm (.swap _ _ [])).sequence.option
  have hwhole := ((hfront.leaf hany 1 none).perm (.swap _ _ [])).sequence
  have hall : Assembled nesting [nestingPhrase] :=
    (hwhole.declareSymbol .nonterminal "S" 1).declare (by decide) (by decide)
  exact ⟨⟨hall, by decide, by decide⟩, by decide, by unfold Numbered; decide, by decide⟩

theorem nesting_anyBehind : nesting.AnyBehind [nestingPhrase] 3 nestingFront 4 [] where
  mem := by decide
  production := ⟨nestingPhrase, List.mem_singleton_self _, by decide, rfl⟩
  kind_eq := by decide
  only := by
    rintro q ⟨e, he, -, hq⟩ hkind
    obtain rfl := List.mem_singleton.1 he
    have honly : ∀ q ∈ nestingPhrase.nodes, (nesting.node q).kind = .any → q = 4 := by decide
    exact honly q hq hkind
  referenced := by
    intro p hp t hkind
    have hnone : ∀ p ∈ nestingFront.nodes, (nesting.node p).kind.reference? = none := by decide
    have hnone := hnone p hp
    rw [hkind] at hnone
    cases hnone

theorem nesting_flagsSound : nesting.FlagsSound [nestingPhrase] :=
  flagsSound_of_forall (by decide)

theorem nesting_closed : nesting.fillAnys.Closed := by
  unfold Closed Due
  decide +kernel

theorem nesting_vanishes : nesting.fillAnys.Vanishes [nestingPhrase] nestingFront :=
  ⟨[], .inl rfl, .refl⟩

theorem nesting_groups : ∀ x ∈ nestingFront.groups, ¬ nesting.fillAnys.Vanishes [nestingPhrase] x.2 := by
  have hnull : ∀ x ∈ nestingFront.groups, x.2.nullable nesting.fillAnys.leafDeletable = false := by
    decide +kernel
  intro x hx
  rw [← nesting_orderly.fillAnys.nullable_iff_vanishes nesting_closed
    (nesting.fillAnys_annotates.flagsSound nesting_flagsSound), hnull x hx]
  exact Bool.false_ne_true

/-- There are no alternatives in front. -/
theorem nesting_isArms {empty : Phrase → Prop} {x : Phrase}
    (hborders : Phrase.Borders empty false nestingFront x) : x.isArms = false := by
  cases hborders with
  | self => rfl
  | body hx => cases hx
  | option h =>
    cases h with
    | self hseq => exact absurd rfl (hseq _ _)
    | body hx => cases hx
    | second h =>
      cases h with
      | self => rfl
      | body hx => cases hx
      | option h =>
        cases h with
        | self => rfl
        | body hx => cases hx

/-- The leaves in front are the terminals `a` and `b`. -/
theorem nesting_opensWith_leaf (hp : p ∈ [0, 1]) (h : nesting.fillAnys.OpensWith n (.leaf p)) :
    n = p + 1 := by
  have hleaves : ∀ p ∈ [0, 1], nesting.fillAnys.ownTerminals p = .singleton (p + 1) ∧
      nesting.fillAnys.within p = [] := by decide +kernel
  obtain ⟨hown, hwithin⟩ := hleaves p hp
  rcases opensWith_leaf.1 h with hn | ⟨q, hq, _⟩
  · rw [hown] at hn
    exact BitSet.mem_singleton.1 hn
  · rw [hwithin] at hq
    cases hq

/-- The option in front begins with `a` only. -/
theorem nesting_opensWith (h : nesting.fillAnys.OpensWith n nestingFront) : n = 1 := by
  rcases opensWith_seq.1 (opensWith_opt.1 h) with hfirst | ⟨hnull, _⟩
  · exact nesting_opensWith_leaf (by simp) hfirst
  · have hread : (Phrase.leaf 0).nullable nesting.fillAnys.leafDeletable = false := by decide +kernel
    cases hread.symm.trans hnull

/-- No part at the end of what stands in front begins with `c`. -/
theorem nesting_closes {empty : Phrase → Prop} {f : Phrase}
    (hcloses : Phrase.Closes empty nestingFront f) (h : nesting.fillAnys.OpensWith n f) : n ≠ 3 := by
  cases hcloses with
  | self =>
    rw [nesting_opensWith h]
    decide
  | body hx => cases hx
  | option hcloses =>
    cases hcloses with
    | self =>
      rw [nesting_opensWith (opensWith_opt.2 h)]
      decide
    | body hx => cases hx
    | first _ hcloses =>
      cases hcloses with
      | self =>
        rw [nesting_opensWith_leaf (by simp) h]
        decide
      | body hx => cases hx
    | second hcloses =>
      cases hcloses with
      | self =>
        rw [nesting_opensWith_leaf (by simp) (opensWith_opt.1 h)]
        decide
      | body hx => cases hx
      | option hcloses =>
        cases hcloses with
        | self =>
          rw [nesting_opensWith_leaf (by simp) h]
          decide
        | body hx => cases hx

/-- Nothing that stands in front begins with `b`, and yet the ANY loses it. -/
theorem not_exact_nesting : nesting.AnyBehind [nestingPhrase] 3 nestingFront 4 [] ∧
    nesting.fillAnys.Vanishes [nestingPhrase] nestingFront ∧
    (∀ x ∈ nestingFront.groups, ¬ nesting.fillAnys.Vanishes [nestingPhrase] x.2) ∧
    ¬ ∀ n, n ∈ (nesting.fillAnys.computeSets.node 4).set ↔
      nesting.Ordinary n ∧ ¬ nesting.fillAnys.Starts [nestingPhrase] nestingFront n := by
  refine ⟨nesting_anyBehind, nesting_vanishes, nesting_groups, fun hexact => ?_⟩
  have hlost : 2 ∉ (nesting.fillAnys.computeSets.node 4).set := by decide +kernel
  refine hlost ((hexact 2).2 ⟨⟨by decide, by decide, by decide⟩, fun hstarts => ?_⟩)
  have hopens := nesting_orderly.fillAnys.opensWith_of_starts nesting_closed hstarts
  cases nesting_opensWith hopens

/-- The ANY loses `b`, which the inner option begins with, and keeps `c`. -/
theorem Orderly.mem_anyBehind_nesting : nesting.Orderly [nestingPhrase] ∧
    nesting.FlagsSound [nestingPhrase] ∧ nesting.AnyBehind [nestingPhrase] 3 nestingFront 4 [] ∧
    nesting.fillAnys.Vanishes [nestingPhrase] nestingFront ∧
    (∀ x ∈ nestingFront.groups, ¬ nesting.fillAnys.Vanishes [nestingPhrase] x.2) ∧
    2 ∉ (nesting.fillAnys.computeSets.node 4).set ∧ 3 ∈ (nesting.fillAnys.computeSets.node 4).set := by
  have hall := nesting_orderly.mem_anyBehind nesting_flagsSound nesting_anyBehind nesting_vanishes
    nesting_groups fun x hx harms => by
      rw [nesting_isArms hx] at harms
      cases harms
  refine ⟨nesting_orderly, nesting_flagsSound, nesting_anyBehind, nesting_vanishes, nesting_groups,
    fun hn => ?_, (hall 3).2 ⟨by decide, by decide, by decide⟩ fun f hcloses _ hstarts => ?_⟩
  · have hled : nesting.fillAnys.Led [nestingPhrase] nestingFront 2 := by
      intro x hx harms
      rw [nesting_isArms hx] at harms
      cases harms
    have hletter : [1].flatMap nesting.fillAnys.letters = [.terminal 2] := by decide +kernel
    refine (((hall 2).1 hn).2 hled).2 (.opt 2 (.leaf 1)) (.option (.second (.self (by simp))))
      ⟨[], .inl rfl, .refl⟩ ⟨[1], .inr rfl, [], ?_⟩
    rw [hletter]
    exact .refl
  · have hopens := nesting_orderly.fillAnys.opensWith_of_starts nesting_closed hstarts
    exact nesting_closes hcloses hopens rfl

end Grammar

end Ebnf
