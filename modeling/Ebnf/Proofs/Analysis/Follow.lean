import Ebnf.Proofs.Analysis.Inherit

/-!
# Follow sets are the least solution

The follow sets of a grammar are described by conditions: the end of the input
follows the start symbol, what can start behind a reference follows the
nonterminal referred to, and if all behind it is deletable, so does what follows
the nonterminal in whose production the reference stands.  The computed sets are
the least ones with these properties.

Main results:

- Theorem `Grammar.Orderly.mem_productionNodes`: the nodes of all productions are met,
  each with its nonterminal.
- Theorem `Grammar.Orderly.follow_least`: the computed follow sets are the least
  solution.
-/

namespace Ebnf

namespace Grammar

variable {g g' : Grammar} {pool : List Phrase} {e : Phrase} {up : Bool}
  {a b s x : SymbolId} {p q : NodeId} {n i : Nat} {fresh : Array Bool}

/-! ## Nodes of the productions -/

theorem mem_edges : q ∈ g.edges p ↔
    (g.node p).sub = some q ∨ (g.node p).down = some q ∨ (g.node p).next = some q := by
  simp [edges]

theorem mem_edges_of_mem_innerEdges (h : q ∈ g.innerEdges p) : q ∈ g.edges p := by
  rw [innerEdges, List.mem_append] at h
  rw [edges, List.mem_append]
  refine h.imp_right fun hnext => ?_
  split at hnext
  · exact absurd hnext List.not_mem_nil
  · exact hnext

/-- From the first node of a closed phrase one gets to its nodes only. -/
theorem Shows.mem_of_reached {allowed : Nat → Prop} (h : g.Shows e none up)
    (hreach : Reached g.edges allowed [e.entry] p) : p ∈ e.nodes := by
  induction hreach with
  | root hmem _ => exact List.mem_singleton.1 hmem ▸ e.entry_mem_nodes
  | step _ hedge _ ih =>
    rcases mem_edges.1 hedge with hsub | hdown | hnext
    · exact h.mem_of_contents ih (.inl hsub)
    · exact h.mem_of_contents ih (.inr hdown)
    · exact (h.mem_of_next ih hnext).resolve_right nofun

theorem Shows.mem_explore_edges (h : g.Shows e none up)
    (hfresh : ∀ p ∈ e.nodes, isFresh fresh p = true) :
    p ∈ explore g.edges fresh [e.entry] ↔ p ∈ e.nodes := by
  rw [mem_explore]
  refine ⟨h.mem_of_reached, fun hp => ?_⟩
  have hentry : Reached g.innerEdges (fun p => isFresh fresh p = true) [e.entry] e.entry :=
    .root List.mem_cons_self (hfresh _ e.entry_mem_nodes)
  exact (h.reached_within hfresh hentry p hp).mono fun _ _ => mem_edges_of_mem_innerEdges

theorem isFresh_foldl_visit {ps : List Nat} :
    isFresh (ps.foldl visit fresh) q = true ↔ isFresh fresh q = true ∧ q ∉ ps := by
  induction ps generalizing fresh with
  | nil => simp
  | cons p ps ih =>
    rw [List.foldl_cons, ih, isFresh_visit, List.mem_cons]
    tauto

/-- The node belongs to the production of the nonterminal. -/
def InProduction (g : Grammar) (pool : List Phrase) (s : SymbolId) (p : NodeId) : Prop :=
  ∃ e ∈ pool, (g.sym s).production = some e.entry ∧ p ∈ e.nodes

namespace Orderly

variable (h : g.Orderly pool)
include h

/-- A node belongs to one production only. -/
theorem eq_of_inProduction (ha : a ∈ g.nonterminals) (hb : b ∈ g.nonterminals)
    (hpa : g.InProduction pool a p) (hpb : g.InProduction pool b p) : a = b := by
  obtain ⟨e, he, hae, hpe⟩ := hpa
  obtain ⟨f, hf, hbf, hpf⟩ := hpb
  obtain rfl := h.eq_of_mem he hf hpe hpf
  exact h.apart a ha b hb (by rw [hae]; rfl) (hae.trans hbf.symm)

/-- The nodes of one production are found. -/
theorem mem_explore_production (hs : s ∈ g.nonterminals)
    (hfresh : ∀ p, g.InProduction pool s p → isFresh fresh p = true) :
    p ∈ explore g.edges fresh (g.sym s).production.toList ↔ g.InProduction pool s p := by
  cases hprod : (g.sym s).production with
  | none =>
    refine iff_of_false (fun hp => ?_) ?_
    · exact Reached.not_nil (mem_explore.1 hp)
    · rintro ⟨e, _, heq, _⟩
      rw [hprod] at heq
      cases heq
  | some q =>
    obtain ⟨e, he, rfl⟩ := h.production s hs q hprod
    have hmem : ∀ p, g.InProduction pool s p ↔ p ∈ e.nodes := by
      intro p
      constructor
      · rintro ⟨f, hf, heq, hp⟩
        rwa [h.eq_of_production he hf hprod heq]
      · exact fun hp => ⟨e, he, hprod, hp⟩
    simp only [hmem] at hfresh ⊢
    exact (h.shows_of_mem he).mem_explore_edges hfresh

theorem mem_nodesOf (ss : List SymbolId) (hss : ∀ s ∈ ss, s ∈ g.nonterminals) (hnodup : ss.Nodup)
    (hfresh : ∀ s ∈ ss, ∀ p, g.InProduction pool s p → isFresh fresh p = true) :
    (s, p) ∈ g.nodesOf fresh ss ↔ s ∈ ss ∧ g.InProduction pool s p := by
  induction ss generalizing fresh with
  | nil => simp [nodesOf]
  | cons t ss ih =>
    obtain ⟨ht, hss⟩ := List.forall_mem_cons.1 hss
    obtain ⟨hfresh_t, hfresh⟩ := List.forall_mem_cons.1 hfresh
    obtain ⟨hnot, hnodup⟩ := List.nodup_cons.1 hnodup
    have hmet : ∀ p, p ∈ explore g.edges fresh (g.sym t).production.toList ↔ g.InProduction pool t p :=
      fun p => h.mem_explore_production ht hfresh_t
    have hrest : (s, p) ∈ g.nodesOf
        ((explore g.edges fresh (g.sym t).production.toList).foldl visit fresh) ss ↔
          s ∈ ss ∧ g.InProduction pool s p := by
      refine ih hss hnodup fun s hs p hp => isFresh_foldl_visit.2 ⟨hfresh s hs p hp, fun hin => ?_⟩
      rw [hmet] at hin
      exact hnot (h.eq_of_inProduction ht (hss s hs) hin hp ▸ hs)
    simp only [nodesOf, List.mem_append, List.mem_map, Prod.mk.injEq, hrest, hmet, List.mem_cons]
    constructor
    · rintro (⟨q, hq, rfl, rfl⟩ | ⟨hs, hp⟩)
      · exact ⟨.inl rfl, hq⟩
      · exact ⟨.inr hs, hp⟩
    · rintro ⟨rfl | hs, hp⟩
      · exact .inl ⟨p, hp, rfl, rfl⟩
      · exact .inr ⟨hs, hp⟩

/-- The nodes of all productions are met, each with its nonterminal. -/
theorem mem_productionNodes : (s, p) ∈ g.productionNodes ↔
    s ∈ g.nonterminals ∧ g.InProduction pool s p := by
  refine h.mem_nodesOf g.nonterminals (fun _ hs => hs) nodup_nonterminals fun s _ p hp => ?_
  obtain ⟨e, he, _, hp⟩ := hp
  exact isFresh_allFresh.2 (h.lt_size he hp)

end Orderly

/-! ## What follows directly -/

theorem followNode_sameFirsts (g : Grammar) (b : SymbolId) (p : NodeId) :
    g.SameFirsts (g.followNode b p) := by
  unfold followNode
  split
  · exact .modifySym fun _ => ⟨rfl, rfl⟩
  · exact .refl g

/-- The node refers to `a`, which is a symbol of the grammar. -/
def RefersTo (g : Grammar) (p : NodeId) (a : SymbolId) : Prop :=
  (g.node p).kind = .nonterminal a ∧ a < g.symbols.size

theorem mem_follow_followNode : n ∈ ((g.followNode b p).sym a).follow ↔
    n ∈ (g.sym a).follow ∨ g.RefersTo p a ∧ n ∈ g.first (g.node p).next := by
  unfold followNode RefersTo
  cases hkind : (g.node p).kind with
  | nonterminal s =>
    simp only [sym_modifySym, NodeKind.nonterminal.injEq]
    by_cases ha : a = s ∧ s < g.symbols.size
    · obtain ⟨rfl, hlt⟩ := ha
      simp [hlt]
    · have hnot : ¬ (s = a ∧ a < g.symbols.size) := fun hand => ha ⟨hand.1.symm, hand.1.symm ▸ hand.2⟩
      simp [ha, hnot]
  | _ => simp

theorem mem_inherits_followNode : i ∈ ((g.followNode b p).sym a).inherits ↔
    i ∈ (g.sym a).inherits ∨ g.RefersTo p a ∧ g.deletableChain (g.node p).next = true ∧
      i = (g.sym b).number := by
  unfold followNode RefersTo
  cases hkind : (g.node p).kind with
  | nonterminal s =>
    simp only [sym_modifySym, NodeKind.nonterminal.injEq]
    by_cases ha : a = s ∧ s < g.symbols.size
    · obtain ⟨rfl, hlt⟩ := ha
      by_cases hdel : g.deletableChain (g.node p).next = true <;> simp [hlt, hdel, or_comm]
    · have hnot : ¬ (s = a ∧ a < g.symbols.size) := fun hand => ha ⟨hand.1.symm, hand.1.symm ▸ hand.2⟩
      simp [ha, hnot]
  | _ => simp

/-- Adds what follows the given nodes. -/
def followAll (g : Grammar) (entries : List (SymbolId × NodeId)) : Grammar :=
  entries.foldl (fun g entry => g.followNode entry.1 entry.2) g

theorem followAll_sameFirsts (entries : List (SymbolId × NodeId)) (g : Grammar) :
    g.SameFirsts (g.followAll entries) := by
  unfold followAll
  exact .foldl (fun g entry => g.followNode_sameFirsts entry.1 entry.2) entries g

theorem SameFirsts.refersTo_iff (h : g.SameFirsts g') : g'.RefersTo p a ↔ g.RefersTo p a := by
  unfold RefersTo
  rw [h.kind_eq, h.symbols_size_eq]

theorem mem_follow_followAll {entries : List (SymbolId × NodeId)} :
    n ∈ ((g.followAll entries).sym a).follow ↔ n ∈ (g.sym a).follow ∨
      ∃ entry ∈ entries, g.RefersTo entry.2 a ∧ n ∈ g.first (g.node entry.2).next := by
  induction entries generalizing g with
  | nil => simp [followAll]
  | cons entry entries ih =>
    have hsame := g.followNode_sameFirsts entry.1 entry.2
    have hrest := @ih (g.followNode entry.1 entry.2)
    simp only [hsame.refersTo_iff, hsame.next_eq, hsame.first_eq, mem_follow_followNode] at hrest
    rw [List.exists_mem_cons_iff, ← or_assoc]
    exact hrest

theorem mem_inherits_followAll {entries : List (SymbolId × NodeId)} :
    i ∈ ((g.followAll entries).sym a).inherits ↔ i ∈ (g.sym a).inherits ∨
      ∃ entry ∈ entries, g.RefersTo entry.2 a ∧ g.deletableChain (g.node entry.2).next = true ∧
        i = (g.sym entry.1).number := by
  induction entries generalizing g with
  | nil => simp [followAll]
  | cons entry entries ih =>
    have hsame := g.followNode_sameFirsts entry.1 entry.2
    have hrest := @ih (g.followNode entry.1 entry.2)
    simp only [hsame.refersTo_iff, hsame.next_eq, hsame.toAgrees.deletableChain_eq, hsame.number_eq,
      mem_inherits_followNode] at hrest
    rw [List.exists_mem_cons_iff, ← or_assoc]
    exact hrest

/-- Forgets all follow sets. -/
def emptyFollow (g : Grammar) : Grammar :=
  g.nonterminals.foldl
    (fun g s => g.modifySym s fun sym => { sym with follow := ∅, inherits := ∅ }) g

theorem emptyFollow_sameFirsts (g : Grammar) : g.SameFirsts g.emptyFollow := by
  unfold emptyFollow
  refine .foldl (fun _ _ => .modifySym ?_) g.nonterminals g
  exact fun _ => ⟨rfl, rfl⟩

theorem emptyFollow_sym (ha : a ∈ g.nonterminals) :
    g.emptyFollow.sym a = { g.sym a with follow := ∅, inherits := ∅ } := by
  have hsym : g.emptyFollow.sym a = if a ∈ g.nonterminals ∧ a < g.symbols.size then
      { g.sym a with follow := ∅, inherits := ∅ } else g.sym a := sym_foldl_modifySym fun _ => rfl
  rw [hsym, if_pos ⟨ha, (mem_nonterminals.1 ha).1⟩]

theorem clearFollow_eq : g.clearFollow = match g.start with
    | some s => g.emptyFollow.modifySym s fun sym =>
        { sym with follow := sym.follow.insert (g.sym g.eof).number }
    | none => g.emptyFollow := by
  have hsame := g.emptyFollow_sameFirsts
  have hstart : g.clearFollow = match g.emptyFollow.start with
      | some s => g.emptyFollow.modifySym s fun sym =>
          { sym with follow := sym.follow.insert (g.emptyFollow.sym g.emptyFollow.eof).number }
      | none => g.emptyFollow := rfl
  rw [hstart, hsame.start_eq, hsame.eof_eq, hsame.number_eq]

theorem clearFollow_sameFirsts (g : Grammar) : g.SameFirsts g.clearFollow := by
  rw [clearFollow_eq]
  split
  · exact g.emptyFollow_sameFirsts.trans (.modifySym fun _ => ⟨rfl, rfl⟩)
  · exact g.emptyFollow_sameFirsts

/-- At first only the end of the input follows, and only the start symbol. -/
theorem mem_follow_clearFollow (ha : a ∈ g.nonterminals) :
    n ∈ (g.clearFollow.sym a).follow ↔ g.start = some a ∧ n = (g.sym g.eof).number := by
  have hlt : a < g.emptyFollow.symbols.size := by
    rw [g.emptyFollow_sameFirsts.symbols_size_eq]
    exact (mem_nonterminals.1 ha).1
  rw [clearFollow_eq]
  cases g.start with
  | none => simp [emptyFollow_sym ha]
  | some s =>
    by_cases has : a = s
    · subst has
      simp [sym_modifySym_self hlt, emptyFollow_sym ha]
    · simp [sym_modifySym_of_ne has, emptyFollow_sym ha, Ne.symm has]

theorem not_mem_inherits_clearFollow (ha : a ∈ g.nonterminals) :
    i ∉ (g.clearFollow.sym a).inherits := by
  rw [clearFollow_eq]
  cases g.start with
  | none => simp [emptyFollow_sym ha]
  | some s =>
    have hkeep : ((g.emptyFollow.modifySym s fun sym =>
        { sym with follow := sym.follow.insert (g.sym g.eof).number }).sym a).inherits =
          (g.emptyFollow.sym a).inherits := modifySym_keeps Symbol.inherits fun _ => rfl
    simp [hkeep, emptyFollow_sym ha]

/-! ## The least solution -/

/-- In the production of `b` the node `p` refers to `a`. -/
structure ReferenceIn (g : Grammar) (pool : List Phrase) (b : SymbolId) (p : NodeId) (a : SymbolId) :
    Prop where
  mem : b ∈ g.nonterminals
  inProduction : g.InProduction pool b p
  kind_eq : (g.node p).kind = .nonterminal a

/-- The sets have all the terminals that the rules ask for. -/
structure FollowSolution (g : Grammar) (pool : List Phrase) (follow : SymbolId → Nat → Prop) :
    Prop where
  /-- the end of the input follows the start symbol -/
  eof : ∀ s ∈ g.start, follow s (g.sym g.eof).number
  /-- what can start behind a reference follows -/
  first : ∀ b p a, g.ReferenceIn pool b p a → ∀ n ∈ g.first (g.node p).next, follow a n
  /-- if all behind it is deletable, so does what follows the production -/
  inherit : ∀ b p a, g.ReferenceIn pool b p a → g.deletableChain (g.node p).next = true →
    ∀ n, follow b n → follow a n

/-- The grammar in which what follows directly is known. -/
def direct (g : Grammar) : Grammar :=
  g.clearFollow.followAll g.productionNodes

theorem direct_sameFirsts (g : Grammar) : g.SameFirsts g.direct :=
  g.clearFollow_sameFirsts.trans (followAll_sameFirsts g.productionNodes g.clearFollow)

theorem computeFollows_eq :
    g.computeFollows = g.direct.nonterminals.foldl g.direct.completeRun g.direct := by
  have hrun : g.direct.completeRun = fun g' s => (complete g.direct.nonterminals.toArray s
      g.direct.nonterminals.toArray.size s
      (g', allFresh g.direct.nonterminals.toArray.size)).1 := by
    funext g' s
    rw [List.size_toArray]
    rfl
  rw [hrun]
  rfl

namespace Orderly

variable (h : g.Orderly pool)
include h

theorem mem_follow_direct (ha : a ∈ g.nonterminals) : n ∈ (g.direct.sym a).follow ↔
    (g.start = some a ∧ n = (g.sym g.eof).number) ∨
      ∃ b p, g.ReferenceIn pool b p a ∧ n ∈ g.first (g.node p).next := by
  have hsame := g.clearFollow_sameFirsts
  unfold direct
  rw [mem_follow_followAll, mem_follow_clearFollow ha]
  simp only [hsame.refersTo_iff, hsame.next_eq, hsame.first_eq, Prod.exists, h.mem_productionNodes]
  refine or_congr_right ⟨?_, ?_⟩
  · rintro ⟨b, p, ⟨hb, hp⟩, href, hn⟩
    exact ⟨b, p, ⟨hb, hp, href.1⟩, hn⟩
  · rintro ⟨b, p, ⟨hb, hp, hkind⟩, hn⟩
    exact ⟨b, p, ⟨hb, hp⟩, ⟨hkind, (mem_nonterminals.1 ha).1⟩, hn⟩

theorem mem_inherits_direct (ha : a ∈ g.nonterminals) : i ∈ (g.direct.sym a).inherits ↔
    ∃ b p, g.ReferenceIn pool b p a ∧ g.deletableChain (g.node p).next = true ∧
      i = (g.sym b).number := by
  have hsame := g.clearFollow_sameFirsts
  unfold direct
  rw [mem_inherits_followAll, or_iff_right (not_mem_inherits_clearFollow ha)]
  simp only [hsame.refersTo_iff, hsame.next_eq, hsame.toAgrees.deletableChain_eq, hsame.number_eq,
    Prod.exists, h.mem_productionNodes]
  constructor
  · rintro ⟨b, p, ⟨hb, hp⟩, href, hdel, rfl⟩
    exact ⟨b, p, ⟨hb, hp, href.1⟩, hdel, rfl⟩
  · rintro ⟨b, p, ⟨hb, hp, hkind⟩, hdel, rfl⟩
    exact ⟨b, p, ⟨hb, hp⟩, ⟨hkind, (mem_nonterminals.1 ha).1⟩, hdel, rfl⟩

/-- A nonterminal inherits from that in whose production a reference to it stands last. -/
theorem heir_direct_iff (ha : a ∈ g.nonterminals) :
    g.direct.Heir (fun x => (g.direct.sym x).inherits) a b ↔
      ∃ p, g.ReferenceIn pool b p a ∧ g.deletableChain (g.node p).next = true := by
  unfold Heir
  simp only [h.mem_inherits_direct ha, g.direct_sameFirsts.nonterminals_eq]
  constructor
  · rintro ⟨i, ⟨b', p, href, hdel, rfl⟩, hb⟩
    obtain rfl := Option.some.inj ((h.numbered b' href.mem).symm.trans hb)
    exact ⟨p, href, hdel⟩
  · rintro ⟨p, href, hdel⟩
    exact ⟨_, ⟨b, p, href, hdel, rfl⟩, h.numbered b href.mem⟩

theorem bits_lt_direct (ha : a ∈ g.direct.nonterminals) (hi : i ∈ (g.direct.sym a).inherits) :
    i < g.direct.nonterminals.length := by
  rw [g.direct_sameFirsts.nonterminals_eq] at ha ⊢
  obtain ⟨b, p, href, _, rfl⟩ := (h.mem_inherits_direct ha).1 hi
  exact Numbered.lt_length h.numbered href.mem

theorem computeFollows_sameFirsts : g.SameFirsts g.computeFollows := by
  have hnum := (h.congr g.direct_sameFirsts.toSameRules).numbered
  rw [computeFollows_eq]
  exact g.direct_sameFirsts.trans (completeAll_sameFirsts hnum fun s hs i => h.bits_lt_direct hs)

/-- What follows a nonterminal follows it directly or is inherited. -/
theorem mem_computeFollows (ha : a ∈ g.nonterminals) :
    (∀ n, n ∈ (g.computeFollows.sym a).follow ↔ g.direct.Inherited a n) ∧
      (g.computeFollows.sym a).inherits = ∅ := by
  have hnum := (h.congr g.direct_sameFirsts.toSameRules).numbered
  rw [computeFollows_eq]
  refine mem_follow_completeAll hnum (fun s hs i => h.bits_lt_direct hs) ?_
  rwa [g.direct_sameFirsts.nonterminals_eq]

theorem mem_of_reference (href : g.ReferenceIn pool b p a) : a ∈ g.nonterminals := by
  obtain ⟨e, he, _, hp⟩ := href.inProduction
  exact h.mem_of_kind he hp href.kind_eq

/-- The computed sets have what the rules ask for. -/
theorem followSolution_computeFollows :
    g.FollowSolution pool fun s n => n ∈ (g.computeFollows.sym s).follow where
  eof s hs := by
    have hmem := h.start s hs
    refine ((h.mem_computeFollows hmem).1 _).2 ⟨s, .refl, ?_⟩
    exact (h.mem_follow_direct hmem).2 (.inl ⟨hs, rfl⟩)
  first b p a href n hn := by
    have hmem := h.mem_of_reference href
    refine ((h.mem_computeFollows hmem).1 n).2 ⟨a, .refl, ?_⟩
    exact (h.mem_follow_direct hmem).2 (.inr ⟨b, p, href, hn⟩)
  inherit b p a href hdel n hn := by
    have hmem := h.mem_of_reference href
    obtain ⟨y, hpath, hn⟩ := ((h.mem_computeFollows href.mem).1 n).1 hn
    refine ((h.mem_computeFollows hmem).1 n).2 ⟨y, hpath.head ?_, hn⟩
    exact (h.heir_direct_iff hmem).2 ⟨p, href, hdel⟩

/-- What is inherited belongs to every solution. -/
theorem follow_of_inherited {follow : SymbolId → Nat → Prop} (hsol : g.FollowSolution pool follow)
    (ha : a ∈ g.nonterminals) (hn : g.direct.Inherited a n) : follow a n := by
  obtain ⟨y, hpath, hn⟩ := hn
  induction hpath using Relation.ReflTransGen.head_induction_on with
  | refl =>
    rcases (h.mem_follow_direct ha).1 hn with ⟨hstart, rfl⟩ | ⟨b, p, href, hn⟩
    · exact hsol.eof y hstart
    · exact hsol.first b p y href n hn
  | head hstep _ ih =>
    obtain ⟨p, href, hdel⟩ := (h.heir_direct_iff ha).1 hstep
    exact hsol.inherit _ p _ href hdel n (ih href.mem)

/-- The computed follow sets are the least solution, and nothing is left to be inherited. -/
theorem follow_least :
    g.FollowSolution pool (fun s n => n ∈ (g.computeFollows.sym s).follow) ∧
      (∀ follow, g.FollowSolution pool follow →
        ∀ s ∈ g.nonterminals, ∀ n ∈ (g.computeFollows.sym s).follow, follow s n) ∧
      ∀ s ∈ g.nonterminals, (g.computeFollows.sym s).inherits = ∅ := by
  refine ⟨h.followSolution_computeFollows, fun follow hsol s hs n hn => ?_, fun s hs => ?_⟩
  · exact h.follow_of_inherited hsol hs (((h.mem_computeFollows hs).1 n).1 hn)
  · exact (h.mem_computeFollows hs).2

end Orderly

/-! ## Two productions that end with each other -/

/-- The production `A = a B`. -/
def alternatingFirst : Grammar :=
  (initial.declareProduction "A" (.seq (.terminal "a") [.nonterminal "B"]) 1).2.2

/-- The productions `A = a B` and `B = [ b A ]`, each of which ends with a reference to the other
nonterminal. -/
def alternating : Grammar :=
  (alternatingFirst.declareProduction "B" (.opt (.seq (.terminal "b") [.nonterminal "A"])) 2).2.2

/-- The phrases of the productions. -/
def alternatingPhrases : List Phrase :=
  [.opt 4 (.seq (.leaf 2) (.leaf 3)), .seq (.leaf 0) (.leaf 1)]

theorem alternating_orderly : alternating.Orderly alternatingPhrases := by
  have hterminal : ∀ s, (NodeKind.terminal s).isLeaf = true := fun _ => rfl
  have hsymbol : ∀ s, (NodeKind.nonterminal s).isLeaf = true := fun _ => rfl
  have ha := (Assembled.start (initial.declareSymbol .terminal "a" 1).2).leaf (hterminal 1) 1 none
  have hB := (ha.declareSymbol .nonterminal "B" 1).leaf (hsymbol 2) 1 none
  have hfirst : Assembled alternatingFirst [.seq (.leaf 0) (.leaf 1)] :=
    (hB.perm (.swap _ _ [])).sequence.declare (by decide) (by decide)
  have hb := (hfirst.declareSymbol .terminal "b" 2).leaf (hterminal 4) 2 none
  have hA := hb.leaf (hsymbol 3) 2 none
  have hall : Assembled alternating alternatingPhrases :=
    (hA.perm (.swap _ _ _)).sequence.option.declare (by decide) (by decide)
  exact ⟨⟨hall, by decide, by decide⟩, by decide, by unfold Numbered; decide, by decide⟩

theorem Orderly.follow_least_alternating :
    let g := alternating.computeDeletable.computeFirsts
    g.Orderly alternatingPhrases ∧ 0 ∈ (g.computeFollows.sym 2).follow ∧
      (∀ follow, g.FollowSolution alternatingPhrases follow → follow 2 0) ∧
      (g.computeFollows.sym 2).inherits = ∅ := by
  intro g
  have hrules := alternating.computeDeletable_sameRules.trans (computeFirsts_sameRules _)
  have horderly : g.Orderly alternatingPhrases := alternating_orderly.congr hrules
  have hmem : 0 ∈ (g.computeFollows.sym 2).follow := by decide
  have hB : 2 ∈ g.nonterminals := by decide
  obtain ⟨_, hleast, hsettled⟩ := horderly.follow_least
  exact ⟨horderly, hmem, fun follow hsol => hleast follow hsol 2 hB 0 hmem, hsettled 2 hB⟩

end Grammar

end Ebnf
