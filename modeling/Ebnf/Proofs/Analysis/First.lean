import Ebnf.Analysis.First
import Ebnf.Declaration
import Ebnf.Proofs.Analysis.Deletable
import Ebnf.Proofs.Phrase.Chain

/-!
# Start sets are exact

The start set of a chain is collected in one search along the nodes that can be
reached without reading.  A path of this search, which may go through productions
in a circle, is counted by its length.  By the length it is seen to follow a leaf
sequence of a production up to the first leaf that is not passed over, and by the
length the leaf is seen to begin with the terminal.

Main results:

- Theorem `Grammar.Composed.mem_first_iff`: the search finds the terminals that can be
  reached without reading.
- Theorems `Grammar.canBegin_of_front` and `Grammar.front_of_opens`: from the first node of a
  phrase a terminal can be reached if a leaf sequence has it at its front, or behind the
  phrase if the phrase is nullable.
- Theorem `Grammar.Composed.mem_computeFirsts_iff`: the start set of a nonterminal holds
  the terminals with which the sentential forms derived from it begin.
-/

namespace Ebnf

/-! ## Fronts of lists -/

/-- Some member of the list is hit, and all members before it can be passed. -/
def Front {α : Type} (hit pass : α → Prop) : List α → Prop
  | [] => False
  | x :: xs => hit x ∨ pass x ∧ Front hit pass xs

theorem front_append {α : Type} {hit pass : α → Prop} {xs ys : List α} :
    Front hit pass (xs ++ ys) ↔
      Front hit pass xs ∨ (∀ x ∈ xs, pass x) ∧ Front hit pass ys := by
  induction xs with
  | nil => simp [Front]
  | cons x xs ih =>
    simp only [List.cons_append, Front, ih, List.forall_mem_cons]
    tauto

theorem Front.mono {α : Type} {hit hit' pass : α → Prop} {xs : List α}
    (h : Front hit pass xs) (himp : ∀ x ∈ xs, hit x → hit' x) : Front hit' pass xs := by
  induction xs with
  | nil => exact h
  | cons x xs ih =>
    obtain ⟨hx, hxs⟩ := List.forall_mem_cons.1 himp
    exact h.imp hx fun h => ⟨h.1, ih h.2 hxs⟩

namespace Grammar

variable {g g' : Grammar} {pool : List Phrase} {e : Phrase} {k : Option NodeId} {up : Bool}
  {s : SymbolId} {p q : NodeId} {n h : Nat} {ps : List NodeId} {α β : List Letter}

/-! ## Paths without reading -/

/-- The nodes at which the contents of a node begin. -/
def within (g : Grammar) (p : NodeId) : List NodeId :=
  match (g.node p).kind with
  | .nonterminal s => (g.sym s).production.toList
  | .alt => (g.node p).sub.toList ++ (g.node p).down.toList
  | .iter | .opt => (g.node p).sub.toList
  | _ => []

/-- The terminals that a leaf stands for. -/
def ownTerminals (g : Grammar) (p : NodeId) : BitSet :=
  match (g.node p).kind with
  | .terminal s | .weak s => .singleton (g.sym s).number
  | .any => (g.node p).set
  | _ => ∅

/-- From the node one gets to a terminal in at most as many steps as the first number says, without
reading anything before. -/
inductive Opens (g : Grammar) (n : Nat) : Nat → NodeId → Prop
  | own {h : Nat} {p : NodeId} (hn : n ∈ g.ownTerminals p) : Opens g n h p
  | inside {h : Nat} {p q : NodeId} (hq : q ∈ g.within p) (hb : Opens g n h q) :
      Opens g n (h + 1) p
  | behind {h : Nat} {p q : NodeId} (hdel : g.deletableNode p = true)
      (hq : (g.node p).next = some q) (hb : Opens g n h q) : Opens g n (h + 1) p

/-- From the node one gets to a terminal without reading anything before. -/
def CanBegin (g : Grammar) (n : Nat) (p : NodeId) : Prop :=
  ∃ h, g.Opens n h p

theorem CanBegin.inside (hq : q ∈ g.within p) (hb : g.CanBegin n q) : g.CanBegin n p :=
  ⟨hb.choose + 1, .inside hq hb.choose_spec⟩

theorem CanBegin.behind (hdel : g.deletableNode p = true) (hq : (g.node p).next = some q)
    (hb : g.CanBegin n q) : g.CanBegin n p :=
  ⟨hb.choose + 1, .behind hdel hq hb.choose_spec⟩

namespace SameRules

variable (hrules : g.SameRules g') (hflags : ∀ s, (g'.sym s).deletable = (g.sym s).deletable)
include hrules

theorem within_eq (p : NodeId) : g'.within p = g.within p := by
  have hsub : (g'.node p).sub = (g.node p).sub := congrArg (·.2.1) (hrules.links_eq p)
  have hdown : (g'.node p).down = (g.node p).down := congrArg (·.2.2.1) (hrules.links_eq p)
  unfold within
  simp only [hrules.kind_eq, hrules.production_eq, hsub, hdown]

theorem ownTerminals_eq (p : NodeId) : g'.ownTerminals p = g.ownTerminals p := by
  unfold ownTerminals
  rw [hrules.kind_eq]
  cases hkind : (g.node p).kind <;> simp only [hrules.number_eq]
  exact hrules.anys_eq p hkind

include hflags

theorem opens (hb : g.Opens n h p) : g'.Opens n h p := by
  induction hb with
  | own hn => exact .own (hrules.ownTerminals_eq _ ▸ hn)
  | inside hq _ ih => exact .inside (hrules.within_eq _ ▸ hq) ih
  | behind hdel hq _ ih =>
    refine .behind ?_ (hrules.next_eq _ ▸ hq) ih
    rwa [(hrules.agrees hflags).deletableNode_eq]

theorem canBegin_iff : g'.CanBegin n p ↔ g.CanBegin n p :=
  ⟨fun ⟨h, hb⟩ => ⟨h, hrules.symm.opens (fun s => (hflags s).symm) hb⟩,
    fun ⟨h, hb⟩ => ⟨h, hrules.opens hflags hb⟩⟩

end SameRules

/-! ## The search -/

/-- A start set that is known holds the terminals to which the production leads. -/
def KnownExact (g : Grammar) : Prop :=
  ∀ s ∈ g.nonterminals, (g.sym s).firstKnown = true →
    ∀ n, n ∈ (g.sym s).first ↔ ∃ p ∈ (g.sym s).production, g.CanBegin n p

/-- Whether the node refers to a nonterminal whose start set is known. -/
def isKnown (g : Grammar) (p : NodeId) : Bool :=
  match (g.node p).kind with
  | .nonterminal s => (g.sym s).firstKnown
  | _ => false

theorem mem_startEdges : q ∈ g.startEdges p ↔ g.isKnown p = false ∧ q ∈ g.within p ∨
    g.deletableNode p = true ∧ (g.node p).next = some q := by
  cases hkind : (g.node p).kind with
  | nonterminal s =>
    have hknown : g.isKnown p = (g.sym s).firstKnown := by simp [isKnown, hkind]
    simp only [startEdges, within, hkind, hknown]
    by_cases hdel : g.deletableNode p = true <;>
      by_cases hfirst : (g.sym s).firstKnown = true <;> simp [hdel, hfirst]
  | _ =>
    have hknown : g.isKnown p = false := by simp [isKnown, hkind]
    simp only [startEdges, within, hkind, hknown]
    by_cases hdel : g.deletableNode p = true <;> simp [hdel, or_assoc]

theorem mem_startTerminals : n ∈ g.startTerminals p ↔ n ∈ g.ownTerminals p ∨
    ∃ s, (g.node p).kind = .nonterminal s ∧ (g.sym s).firstKnown = true ∧ n ∈ (g.sym s).first := by
  unfold startTerminals ownTerminals
  cases hkind : (g.node p).kind with
  | nonterminal s =>
    by_cases hknown : (g.sym s).firstKnown = true <;> simp [hknown]
  | _ => simp

theorem mem_first : n ∈ g.first k ↔
    ∃ r, Reached g.startEdges (· < g.nodes.size) k.toList r ∧ n ∈ g.startTerminals r := by
  unfold first
  rw [BitSet.mem_foldl_union, or_iff_right (BitSet.not_mem_empty n)]
  simp only [mem_explore, isFresh_allFresh]

theorem not_mem_first_none : n ∉ g.first none :=
  fun hn => Reached.not_nil (mem_first.1 hn).choose_spec.1

/-- What a node that is met begins with, the node begins with from which the search started. -/
theorem canBegin_of_reached {fresh : Nat → Prop} (hreach : Reached g.startEdges fresh [p] q)
    (hb : g.CanBegin n q) : g.CanBegin n p := by
  induction hreach with
  | root hmem _ => exact List.mem_singleton.1 hmem ▸ hb
  | step _ hedge _ ih =>
    rcases mem_startEdges.1 hedge with ⟨_, hin⟩ | ⟨hdel, hnext⟩
    · exact ih (.inside hin hb)
    · exact ih (.behind hdel hnext hb)

namespace Composed

variable (hg : g.Composed pool)
include hg

/-- The contents of a node of the phrases are such a node. -/
theorem mem_within (he : e ∈ pool) (hp : p ∈ e.nodes) (hq : q ∈ g.within p) :
    ∃ f ∈ pool, q ∈ f.nodes := by
  have hshows := hg.shows_of_mem he
  unfold within at hq
  split at hq
  · next s hkind =>
    obtain ⟨f, hf, rfl⟩ := hg.production s (hg.mem_of_kind he hp hkind) q (Option.mem_toList.1 hq)
    exact ⟨f, hf, f.entry_mem_nodes⟩
  · rw [List.mem_append, Option.mem_toList, Option.mem_toList] at hq
    exact ⟨e, he, hshows.mem_of_contents hp hq⟩
  · exact ⟨e, he, hshows.mem_of_contents hp (.inl (Option.mem_toList.1 hq))⟩
  · exact ⟨e, he, hshows.mem_of_contents hp (.inl (Option.mem_toList.1 hq))⟩
  · cases hq

theorem mem_next (he : e ∈ pool) (hp : p ∈ e.nodes) (hq : (g.node p).next = some q) :
    q ∈ e.nodes :=
  ((hg.shows_of_mem he).mem_of_next hp hq).resolve_right nofun

theorem mem_of_reached {fresh : Nat → Prop} (he : e ∈ pool) (hp : p ∈ e.nodes)
    (hreach : Reached g.startEdges fresh [p] q) : ∃ f ∈ pool, q ∈ f.nodes := by
  induction hreach with
  | root hmem _ => exact ⟨e, he, List.mem_singleton.1 hmem ▸ hp⟩
  | step _ hedge _ ih =>
    obtain ⟨f, hf, hmem⟩ := ih
    rcases mem_startEdges.1 hedge with ⟨_, hin⟩ | ⟨_, hnext⟩
    · exact hg.mem_within hf hmem hin
    · exact ⟨f, hf, hg.mem_next hf hmem hnext⟩

/-- From a node that is met the search goes on to the terminals with which it begins. -/
theorem reached_of_opens (hexact : g.KnownExact) (he : e ∈ pool) (hp : p ∈ e.nodes)
    (hreach : Reached g.startEdges (· < g.nodes.size) [p] q) (hb : g.Opens n h q) :
    ∃ r, Reached g.startEdges (· < g.nodes.size) [p] r ∧ n ∈ g.startTerminals r := by
  induction hb with
  | own hn => exact ⟨_, hreach, mem_startTerminals.2 (.inl hn)⟩
  | @inside h q r hin hb ih =>
    obtain ⟨f, hf, hq⟩ := hg.mem_of_reached he hp hreach
    by_cases hknown : g.isKnown q = true
    · -- a nonterminal whose start set is known is not entered
      unfold isKnown at hknown
      unfold within at hin
      cases hkind : (g.node q).kind with
      | nonterminal s =>
        simp only [hkind] at hknown hin
        refine ⟨q, hreach, mem_startTerminals.2 (.inr ⟨s, hkind, hknown, ?_⟩)⟩
        refine (hexact s (hg.mem_of_kind hf hq hkind) hknown n).2 ?_
        exact ⟨r, Option.mem_toList.1 hin, h, hb⟩
      | _ => simp [hkind] at hknown
    · have hedge : r ∈ g.startEdges q :=
        mem_startEdges.2 (.inl ⟨Bool.eq_false_of_not_eq_true hknown, hin⟩)
      obtain ⟨f', hf', hr⟩ := hg.mem_within hf hq hin
      exact ih (hreach.step hedge (hg.lt_size hf' hr))
  | behind hdel hnext _ ih =>
    obtain ⟨f, hf, hq⟩ := hg.mem_of_reached he hp hreach
    have hedge := mem_startEdges.2 (.inr ⟨hdel, hnext⟩)
    exact ih (hreach.step hedge (hg.lt_size hf (hg.mem_next hf hq hnext)))

/-- The search finds the terminals that can be reached without reading. -/
theorem mem_first_iff (hexact : g.KnownExact) (he : e ∈ pool) (hp : p ∈ e.nodes) :
    n ∈ g.first (some p) ↔ g.CanBegin n p := by
  rw [mem_first]
  constructor
  · rintro ⟨r, hreach, hn⟩
    refine canBegin_of_reached hreach ?_
    rcases mem_startTerminals.1 hn with hn | ⟨s, hkind, hknown, hn⟩
    · exact ⟨0, .own hn⟩
    · obtain ⟨f, hf, hr⟩ := hg.mem_of_reached he hp hreach
      obtain ⟨q, hq, hb⟩ := (hexact s (hg.mem_of_kind hf hr hkind) hknown n).1 hn
      refine .inside ?_ hb
      rw [within, hkind]
      exact Option.mem_toList.2 hq
  · rintro ⟨h, hb⟩
    exact hg.reached_of_opens hexact he hp (.root List.mem_cons_self (hg.lt_size he hp)) hb

end Composed

/-! ## Phrases -/

/-- A leaf begins with a terminal, by itself or by its production, to which there are fewer steps
than the first number says. -/
def LeafBegins (g : Grammar) (n h : Nat) (p : NodeId) : Prop :=
  n ∈ g.ownTerminals p ∨ ∃ q ∈ g.within p, ∃ h' < h, g.Opens n h' q

theorem LeafBegins.mono {h' : Nat} (hle : h ≤ h') (hleaf : g.LeafBegins n h p) :
    g.LeafBegins n h' p :=
  hleaf.imp_right fun ⟨q, hq, i, hi, hb⟩ => ⟨q, hq, i, Nat.lt_of_lt_of_le hi hle, hb⟩

/-- A leaf sequence has the terminal at its front. -/
def FrontOf (g : Grammar) (n h : Nat) : List NodeId → Prop :=
  Front (g.LeafBegins n h) (g.leafDeletable · = true)

theorem FrontOf.mono {h' : Nat} (hle : h ≤ h') (hfront : g.FrontOf n h ps) : g.FrontOf n h' ps :=
  Front.mono hfront fun _ _ => LeafBegins.mono hle

theorem exists_mem_walks (e : Phrase) : ∃ ps, ps ∈ e.walks := by
  induction e with
  | leaf p => exact ⟨[p], rfl⟩
  | seq a b iha ihb =>
    obtain ⟨ps, hps⟩ := iha
    obtain ⟨qs, hqs⟩ := ihb
    exact ⟨ps ++ qs, Language.append_mem_mul hps hqs⟩
  | arm p e ih => exact ih
  | alt p e r ihe _ => exact ihe.imp fun _ => .inl
  | opt p e _ => exact ⟨[], .inl rfl⟩
  | iter p e _ => exact ⟨[], Language.nil_mem_kstar _⟩

theorem mem_within_alt (hkind : (g.node p).kind = .alt) :
    q ∈ g.within p ↔ (g.node p).sub = some q ∨ (g.node p).down = some q := by
  simp [within, hkind]

theorem mem_within_group (hkind : (g.node p).kind = .opt ∨ (g.node p).kind = .iter) :
    q ∈ g.within p ↔ (g.node p).sub = some q := by
  rcases hkind with hkind | hkind <;> simp [within, hkind]

/-- What can be reached behind a nullable phrase can be reached from its first node. -/
theorem canBegin_of_nullable (hshows : g.Shows e (some q) up) (hnodup : e.nodes.Nodup)
    (hnull : e.nullable g.leafDeletable = true) (hb : g.CanBegin n q) : g.CanBegin n e.entry := by
  induction e generalizing q up with
  | seq a b iha ihb =>
    obtain ⟨ha, hb', _⟩ := List.nodup_append'.1 hnodup
    rw [Phrase.nullable, Bool.and_eq_true] at hnull
    exact iha hshows.1 ha hnull.1 (ihb hshows.2 hb' hnull.2 hb)
  | leaf p | arm p e | alt p e r | opt p e | iter p e =>
    obtain ⟨hdel, hnext⟩ := deletableNode_entry hshows hnodup (by simp)
    exact .behind (hdel.trans hnull) hnext hb

/-- From the first node of a phrase one gets to what stands at the front of a leaf sequence. -/
theorem canBegin_of_front (hshows : g.Shows e k up) (hnodup : e.nodes.Nodup) (hps : ps ∈ e.walks)
    (hfront : g.FrontOf n h ps) : g.CanBegin n e.entry := by
  induction e generalizing k up ps with
  | leaf p =>
    obtain rfl : ps = [p] := hps
    rcases hfront with (hn | ⟨q, hq, i, _, hb⟩) | ⟨_, hnil⟩
    · exact ⟨0, .own hn⟩
    · exact .inside hq ⟨i, hb⟩
    · exact hnil.elim
  | seq a b iha ihb =>
    obtain ⟨ha, hb, _⟩ := List.nodup_append'.1 hnodup
    obtain ⟨qs, hqs, rs, hrs, rfl⟩ := hps
    rcases front_append.1 hfront with hfront | ⟨hpass, hfront⟩
    · exact iha hshows.1 ha hqs hfront
    · have hrest := ihb hshows.2 hb hrs hfront
      have hnull : a.nullable g.leafDeletable = true := Phrase.nullable_iff.2 ⟨qs, hqs, hpass⟩
      exact @canBegin_of_nullable g a _ _ n hshows.1 ha hnull hrest
  | arm p e ih =>
    have hbody := ih hshows.2 (List.nodup_cons.1 hnodup).2 hps hfront
    exact .inside ((mem_within_alt hshows.1.kind_eq).2 (.inl hshows.1.sub_eq)) hbody
  | alt p e r ihe ihr =>
    obtain ⟨he, hr, _⟩ := List.nodup_append'.1 (List.nodup_cons.1 hnodup).2
    rcases hps with hps | hps
    · have hbody := ihe hshows.2.2.1 he hps hfront
      exact .inside ((mem_within_alt hshows.2.1.kind_eq).2 (.inl hshows.2.1.sub_eq)) hbody
    · have hmore := ihr hshows.2.2.2 hr hps hfront
      exact .inside ((mem_within_alt hshows.2.1.kind_eq).2 (.inr hshows.2.1.down_eq)) hmore
  | opt p e ih =>
    rcases hps with hps | hps
    · obtain rfl : ps = [] := hps
      exact hfront.elim
    · have hbody := ih hshows.2 (List.nodup_cons.1 hnodup).2 hps hfront
      exact .inside ((mem_within_group (.inl hshows.1.kind_eq)).2 hshows.1.sub_eq) hbody
  | iter p e ih =>
    obtain ⟨rounds, rfl, hrounds⟩ := hps
    induction rounds with
    | nil => exact hfront.elim
    | cons qs rounds ih' =>
      obtain ⟨hqs, hrounds⟩ := List.forall_mem_cons.1 hrounds
      rcases front_append.1 hfront with hfront | ⟨_, hfront⟩
      · have hbody := ih hshows.2 (List.nodup_cons.1 hnodup).2 hqs hfront
        exact .inside ((mem_within_group (.inr hshows.1.kind_eq)).2 hshows.1.sub_eq) hbody
      · exact ih' hrounds hfront

/-- A path from the first node of a phrase leads to the front of a leaf sequence, or through the
phrase to what follows it. -/
def FrontOrBehind (g : Grammar) (n h : Nat) (e : Phrase) (k : Option NodeId) : Prop :=
  (∃ ps ∈ e.walks, g.FrontOf n h ps) ∨
    e.nullable g.leafDeletable = true ∧ ∃ q ∈ k, ∃ h' < h, g.Opens n h' q

theorem FrontOrBehind.mono {h' : Nat} (hle : h ≤ h') (hb : g.FrontOrBehind n h e k) :
    g.FrontOrBehind n h' e k :=
  hb.imp (fun ⟨ps, hps, hfront⟩ => ⟨ps, hps, hfront.mono hle⟩)
    fun ⟨hnull, q, hq, i, hi, hb⟩ => ⟨hnull, q, hq, i, Nat.lt_of_lt_of_le hi hle, hb⟩

theorem opens_alt (hkind : (g.node p).kind = .alt) (hb : g.Opens n h p) :
    ∃ h' < h, (∃ q, ((g.node p).sub = some q ∨ (g.node p).down = some q) ∧ g.Opens n h' q) ∨
      g.deletableNode p = true ∧ ∃ q, (g.node p).next = some q ∧ g.Opens n h' q := by
  cases hb with
  | own hn => simp [ownTerminals, hkind] at hn
  | inside hq hb => exact ⟨_, Nat.lt_succ_self _, .inl ⟨_, (mem_within_alt hkind).1 hq, hb⟩⟩
  | behind hdel hq hb => exact ⟨_, Nat.lt_succ_self _, .inr ⟨hdel, _, hq, hb⟩⟩

theorem opens_group (hkind : (g.node p).kind = .opt ∨ (g.node p).kind = .iter)
    (hb : g.Opens n h p) :
    ∃ h' < h, ∃ q, ((g.node p).sub = some q ∨ (g.node p).next = some q) ∧ g.Opens n h' q := by
  cases hb with
  | own hn => rcases hkind with hkind | hkind <;> simp [ownTerminals, hkind] at hn
  | inside hq hb => exact ⟨_, Nat.lt_succ_self _, _, .inl ((mem_within_group hkind).1 hq), hb⟩
  | behind _ hq hb => exact ⟨_, Nat.lt_succ_self _, _, .inr hq, hb⟩

theorem front_of_opens (hshows : g.Shows e k up) (hnodup : e.nodes.Nodup)
    (hb : g.Opens n h e.entry) : g.FrontOrBehind n h e k := by
  induction e generalizing k up h with
  | leaf p =>
    obtain ⟨hdel, hnext⟩ := deletableNode_entry hshows hnodup (by simp)
    cases hb with
    | own hn => exact .inl ⟨[p], rfl, .inl (.inl hn)⟩
    | inside hq hb => exact .inl ⟨[p], rfl, .inl (.inr ⟨_, hq, _, Nat.lt_succ_self _, hb⟩)⟩
    | behind hdel' hq hb =>
      exact .inr ⟨hdel.symm.trans hdel', _, hnext.symm.trans hq, _, Nat.lt_succ_self _, hb⟩
  | seq a b iha ihb =>
    obtain ⟨ha, hb', _⟩ := List.nodup_append'.1 hnodup
    rcases iha hshows.1 ha hb with ⟨ps, hps, hfront⟩ | ⟨hnull, q, hq, h₁, hlt, hb⟩
    · obtain ⟨qs, hqs⟩ := exists_mem_walks b
      exact .inl ⟨ps ++ qs, Language.append_mem_mul hps hqs, front_append.2 (.inl hfront)⟩
    · obtain rfl := Option.some.inj hq
      rcases ihb hshows.2 hb' hb with ⟨qs, hqs, hfront⟩ | ⟨hnull', q, hq, h₂, hlt', hb⟩
      · obtain ⟨ps, hps, hpass⟩ := Phrase.nullable_iff.1 hnull
        exact .inl ⟨ps ++ qs, Language.append_mem_mul hps hqs,
          front_append.2 (.inr ⟨hpass, FrontOf.mono (Nat.le_of_lt hlt) hfront⟩)⟩
      · refine .inr ⟨?_, q, hq, h₂, Nat.lt_trans hlt' hlt, hb⟩
        rw [Phrase.nullable, hnull, hnull']
        rfl
  | arm p e ih =>
    obtain ⟨hdel, hnext⟩ := deletableNode_entry hshows hnodup (by simp)
    obtain ⟨h₁, hlt, ⟨q, hq | hq, hb⟩ | ⟨hdel', q, hq, hb⟩⟩ := opens_alt hshows.1.kind_eq hb
    · obtain rfl := Option.some.inj (hshows.1.sub_eq.symm.trans hq)
      exact (ih hshows.2 (List.nodup_cons.1 hnodup).2 hb).mono (Nat.le_of_lt hlt)
    · cases hshows.1.down_eq.symm.trans hq
    · exact .inr ⟨hdel.symm.trans hdel', q, hnext.symm.trans hq, h₁, hlt, hb⟩
  | alt p e r ihe ihr =>
    obtain ⟨hdel, hnext⟩ := deletableNode_entry hshows hnodup (by simp)
    obtain ⟨he, hr, _⟩ := List.nodup_append'.1 (List.nodup_cons.1 hnodup).2
    obtain ⟨_, hhold, hbody, hmore⟩ := hshows
    obtain ⟨h₁, hlt, ⟨q, hq | hq, hb⟩ | ⟨hdel', q, hq, hb⟩⟩ := opens_alt hhold.kind_eq hb
    · obtain rfl := Option.some.inj (hhold.sub_eq.symm.trans hq)
      rcases (ihe hbody he hb).mono (Nat.le_of_lt hlt) with ⟨ps, hps, hfront⟩ | ⟨hnull, hk⟩
      · exact .inl ⟨ps, .inl hps, hfront⟩
      · exact .inr ⟨by rw [Phrase.nullable, hnull, Bool.true_or], hk⟩
    · obtain rfl := Option.some.inj (hhold.down_eq.symm.trans hq)
      rcases (ihr hmore hr hb).mono (Nat.le_of_lt hlt) with ⟨ps, hps, hfront⟩ | ⟨hnull, hk⟩
      · exact .inl ⟨ps, .inr hps, hfront⟩
      · exact .inr ⟨by rw [Phrase.nullable, hnull, Bool.or_true], hk⟩
    · exact .inr ⟨hdel.symm.trans hdel', q, hnext.symm.trans hq, h₁, hlt, hb⟩
  | opt p e ih =>
    obtain ⟨h₁, hlt, q, hq | hq, hb⟩ := opens_group (.inl hshows.1.kind_eq) hb
    · obtain rfl := Option.some.inj (hshows.1.sub_eq.symm.trans hq)
      rcases (ih hshows.2 (List.nodup_cons.1 hnodup).2 hb).mono (Nat.le_of_lt hlt) with
        ⟨ps, hps, hfront⟩ | ⟨_, hk⟩
      · exact .inl ⟨ps, .inr hps, hfront⟩
      · exact .inr ⟨rfl, hk⟩
    · exact .inr ⟨rfl, q, hshows.1.next_eq.symm.trans hq, h₁, hlt, hb⟩
  | iter p e ih =>
    -- through the body one comes back to the iteration, with fewer steps left
    induction h using Nat.strongRecOn with
    | ind h ihh =>
      obtain ⟨h₁, hlt, q, hq | hq, hb⟩ := opens_group (.inr hshows.1.kind_eq) hb
      · obtain rfl := Option.some.inj (hshows.1.sub_eq.symm.trans hq)
        rcases ih hshows.2 (List.nodup_cons.1 hnodup).2 hb with
          ⟨ps, hps, hfront⟩ | ⟨_, q, hq, h₂, hlt', hb⟩
        · refine .inl ⟨ps, ⟨[ps], by simp, by simpa using hps⟩, hfront.mono (Nat.le_of_lt hlt)⟩
        · obtain rfl := Option.some.inj hq
          have hless := Nat.lt_trans hlt' hlt
          exact (ihh h₂ hless hb).mono (Nat.le_of_lt hless)
      · exact .inr ⟨rfl, q, hshows.1.next_eq.symm.trans hq, h₁, hlt, hb⟩

/-! ## Derivations -/

/-- A letter begins with a terminal. -/
def LetterBegins (g : Grammar) (n : Nat) : Letter → Prop
  | .terminal m => m = n
  | .nonterminal s => ∃ p ∈ (g.sym s).production, g.CanBegin n p
  | .any p => n ∈ (g.node p).set
  | .other _ => False

/-- A sentential form has the terminal at its front. -/
def FormBegins (g : Grammar) (n : Nat) : List Letter → Prop :=
  Front (g.LetterBegins n) g.Flagged

theorem leafBegins_of_letter {x : Letter} (hx : x ∈ g.letters p) (hb : g.LetterBegins n x) :
    ∃ h, g.LeafBegins n h p := by
  unfold letters at hx
  cases hkind : (g.node p).kind with
  | terminal s | weak s =>
    obtain rfl : x = .terminal (g.sym s).number := by simpa [hkind] using hx
    obtain rfl : (g.sym s).number = n := hb
    exact ⟨0, .inl (by simp [ownTerminals, hkind])⟩
  | nonterminal s =>
    obtain rfl : x = .nonterminal s := by simpa [hkind] using hx
    obtain ⟨q, hq, h, hb⟩ := hb
    exact ⟨h + 1, .inr ⟨q, by simpa [within, hkind] using hq, h, Nat.lt_succ_self h, hb⟩⟩
  | any =>
    obtain rfl : x = .any p := by simpa [hkind] using hx
    have hn : n ∈ (g.node p).set := hb
    exact ⟨0, .inl (by simpa [ownTerminals, hkind] using hn)⟩
  | eps | sync | action | resolver => simp [hkind] at hx
  | _ =>
    obtain rfl : x = .other p := by simpa [hkind] using hx
    exact hb.elim

theorem frontOf_of_formBegins (hb : g.FormBegins n (ps.flatMap g.letters)) :
    ∃ h, g.FrontOf n h ps := by
  induction ps with
  | nil => exact hb.elim
  | cons p ps ih =>
    rcases front_append.1 hb with hb | ⟨hpass, hb⟩
    · -- a leaf contributes one letter at most
      have hhit : ∃ x ∈ g.letters p, g.LetterBegins n x := by
        unfold letters at hb ⊢
        cases hkind : (g.node p).kind with
        | eps | sync | action | resolver => simp [hkind, Front] at hb
        | _ => simpa [hkind, Front] using hb
      obtain ⟨x, hx, hb⟩ := hhit
      exact (leafBegins_of_letter hx hb).imp fun h hleaf => .inl hleaf
    · exact (ih hb).imp fun h hfront => .inr ⟨leafDeletable_iff.2 hpass, hfront⟩

namespace Composed

variable (hg : g.Composed pool)
include hg

/-- Before a step the front was there already. -/
theorem formBegins_of_rewrites (hclosed : g.Closed) (hstep : g.Rewrites pool α β)
    (hb : g.FormBegins n β) : g.FormBegins n α := by
  cases hstep with
  | @expand s e ps α β hs he hprod hps =>
    rw [List.append_assoc] at hb
    refine front_append.2 ((front_append.1 hb).imp_right fun ⟨hα, hb⟩ => ⟨hα, ?_⟩)
    rcases front_append.1 hb with hb | ⟨hpass, hb⟩
    · obtain ⟨h, hfront⟩ := frontOf_of_formBegins hb
      exact .inl ⟨_, hprod, canBegin_of_front (hg.shows_of_mem he) (hg.nodup he) hps hfront⟩
    · refine .inr ⟨?_, hb⟩
      exact hg.flagged_of_rewrites hclosed (.expand [] [] hs he hprod hps) (by simpa using hpass) _
        List.mem_cons_self
  | choose α β hp hn =>
    refine front_append.2 ((front_append.1 hb).imp_right fun ⟨hα, hb⟩ => ⟨hα, ?_⟩)
    rcases hb with rfl | ⟨hpass, _⟩
    · exact .inl hn
    · exact hpass.elim

theorem canBegin_of_derives (hclosed : g.Closed)
    (hderives : g.Derives pool α (.terminal n :: β)) : g.FormBegins n α := by
  induction hderives using Relation.ReflTransGen.head_induction_on with
  | refl => exact .inl rfl
  | head hstep _ ih => exact hg.formBegins_of_rewrites hclosed hstep ih

/-- The letter of a leaf derives a form that begins with the terminal, if all nonterminals do so to
which there are fewer steps. -/
theorem derives_of_leafBegins (he : e ∈ pool) (hp : p ∈ e.nodes)
    (hleaf : (g.node p).kind.isLeaf = true)
    (hless : ∀ h' < h, ∀ s ∈ g.nonterminals, ∀ q ∈ (g.sym s).production, g.Opens n h' q →
      ∃ α, g.Derives pool [.nonterminal s] (.terminal n :: α))
    (hb : g.LeafBegins n h p) : ∃ α, g.Derives pool (g.letters p) (.terminal n :: α) := by
  unfold LeafBegins ownTerminals within at hb
  unfold letters
  cases hkind : (g.node p).kind with
  | terminal s | weak s =>
    obtain rfl : n = (g.sym s).number := by simpa [hkind] using hb
    exact ⟨[], .refl⟩
  | nonterminal s =>
    obtain ⟨q, hq, h', hlt, hb⟩ : ∃ q ∈ (g.sym s).production, ∃ h' < h, g.Opens n h' q := by
      simpa [hkind] using hb
    exact hless h' hlt s (hg.mem_of_kind he hp hkind) q hq hb
  | any =>
    have hn : n ∈ (g.node p).set := by simpa [hkind] using hb
    exact ⟨[], .single (.choose [] [] hkind hn)⟩
  | alt | iter | opt => simp [hkind, NodeKind.isLeaf] at hleaf
  | _ => simp [hkind] at hb

theorem derives_of_front (hflags : g.FlagsSound pool) (he : e ∈ pool)
    (hleaves : ∀ p ∈ ps, p ∈ e.nodes ∧ (g.node p).kind.isLeaf = true)
    (hless : ∀ h' < h, ∀ s ∈ g.nonterminals, ∀ q ∈ (g.sym s).production, g.Opens n h' q →
      ∃ α, g.Derives pool [.nonterminal s] (.terminal n :: α))
    (hfront : g.FrontOf n h ps) : ∃ α, g.Derives pool (ps.flatMap g.letters) (.terminal n :: α) := by
  induction ps with
  | nil => exact hfront.elim
  | cons p ps ih =>
    obtain ⟨hp, hps⟩ := List.forall_mem_cons.1 hleaves
    rw [List.flatMap_cons]
    rcases hfront with hhit | ⟨hpass, hfront⟩
    · obtain ⟨α, hα⟩ := hg.derives_of_leafBegins he hp.1 hp.2 hless hhit
      exact ⟨α ++ ps.flatMap g.letters, by simpa using hα.context [] (ps.flatMap g.letters)⟩
    · obtain ⟨α, hα⟩ := ih hps hfront
      refine ⟨α, Derives.append (Derives.nil_of_forall fun x hx => ?_) hα⟩
      have hx := leafDeletable_iff.1 hpass x hx
      cases x with
      | nonterminal s => exact hflags s hx
      | _ => exact hx.elim

/-- A path through the production of a nonterminal is a derivation. -/
theorem derives_of_opens (hflags : g.FlagsSound pool) (hs : s ∈ g.nonterminals)
    (hq : q ∈ (g.sym s).production) (hb : g.Opens n h q) :
    ∃ α, g.Derives pool [.nonterminal s] (.terminal n :: α) := by
  induction h using Nat.strongRecOn generalizing s q with
  | ind h ih =>
    obtain ⟨e, he, rfl⟩ := hg.production s hs q hq
    have hshows := hg.shows_of_mem he
    rcases front_of_opens hshows (hg.nodup he) hb with ⟨ps, hps, hfront⟩ | ⟨_, q, hq, _⟩
    · obtain ⟨α, hα⟩ := hg.derives_of_front hflags he (fun p => hshows.leaf_of_mem_walks hps)
        (fun h' hlt s hs q hq hb => ih h' hlt hs hq hb) hfront
      exact ⟨α, (Derives.expand hs he hq hps).trans hα⟩
    · cases hq

/-- From the production of a nonterminal one gets to the terminals with which the sentential forms
derived from it begin. -/
theorem canBegin_iff_derives (hclosed : g.Closed) (hflags : g.FlagsSound pool)
    (hs : s ∈ g.nonterminals) : (∃ p ∈ (g.sym s).production, g.CanBegin n p) ↔
      ∃ α, g.Derives pool [.nonterminal s] (.terminal n :: α) := by
  constructor
  · rintro ⟨p, hp, h, hb⟩
    exact hg.derives_of_opens hflags hs hp hb
  · rintro ⟨α, hα⟩
    rcases hg.canBegin_of_derives hclosed hα with hb | ⟨_, hnil⟩
    · exact hb
    · exact hnil.elim

end Composed

/-! ## All start sets -/

theorem computeFirst_sameRules (g : Grammar) (s : SymbolId) : g.SameRules (g.computeFirst s) :=
  .modifySym fun _ => rfl

theorem computeFirst_deletable (t : SymbolId) :
    ((g.computeFirst s).sym t).deletable = (g.sym t).deletable :=
  modifySym_keeps Symbol.deletable fun _ => rfl

theorem computeAll_sameRules (ss : List SymbolId) (g : Grammar) :
    g.SameRules (ss.foldl computeFirst g) :=
  .foldl computeFirst_sameRules ss g

theorem computeAll_deletable (ss : List SymbolId) (t : SymbolId) :
    ((ss.foldl computeFirst g).sym t).deletable = (g.sym t).deletable := by
  induction ss generalizing g with
  | nil => rfl
  | cons s ss ih => exact ih.trans (computeFirst_deletable t)

/-- A start set that is known stays known. -/
theorem computeAll_firstKnown (ss : List SymbolId) {t : SymbolId}
    (ht : (g.sym t).firstKnown = true) : ((ss.foldl computeFirst g).sym t).firstKnown = true := by
  induction ss generalizing g with
  | nil => exact ht
  | cons s ss ih =>
    refine ih ?_
    rw [computeFirst, sym_modifySym]
    split
    · rfl
    · exact ht

namespace Composed

/-- A start set is computed from those that are known. -/
theorem knownExact_computeFirst (hg : g.Composed pool) (hexact : g.KnownExact)
    (hs : s ∈ g.nonterminals) : (g.computeFirst s).KnownExact := by
  have hrules := g.computeFirst_sameRules s
  intro t ht hknown n
  simp only [hrules.production_eq, hrules.canBegin_iff computeFirst_deletable]
  rw [hrules.nonterminals_eq] at ht
  by_cases hts : t = s
  · subst hts
    rw [computeFirst, sym_modifySym_self (mem_nonterminals.1 ht).1]
    cases hprod : (g.sym t).production with
    | none => simp [not_mem_first_none]
    | some p =>
      obtain ⟨e, he, rfl⟩ := hg.production t ht p hprod
      rw [hg.mem_first_iff hexact he e.entry_mem_nodes]
      simp
  · rw [computeFirst, sym_modifySym_of_ne hts] at hknown ⊢
    exact hexact t ht hknown n

theorem knownExact_computeAll (ss : List SymbolId) (hg : g.Composed pool) (hexact : g.KnownExact)
    (hss : ∀ s ∈ ss, s ∈ g.nonterminals) : (ss.foldl computeFirst g).KnownExact ∧
      ∀ s ∈ ss, ((ss.foldl computeFirst g).sym s).firstKnown = true := by
  induction ss generalizing g with
  | nil => exact ⟨hexact, by simp⟩
  | cons s ss ih =>
    obtain ⟨hs, hss⟩ := List.forall_mem_cons.1 hss
    have hrules := g.computeFirst_sameRules s
    obtain ⟨hall, hknown⟩ := ih (hg.congr hrules) (hg.knownExact_computeFirst hexact hs)
      (by rwa [hrules.nonterminals_eq])
    refine ⟨hall, List.forall_mem_cons.2 ⟨computeAll_firstKnown ss ?_, hknown⟩⟩
    rw [computeFirst, sym_modifySym_self (mem_nonterminals.1 hs).1]

end Composed

/-- Forgets all start sets. -/
def clearFirsts (g : Grammar) : Grammar :=
  g.nonterminals.foldl
    (fun g s => g.modifySym s fun sym => { sym with first := ∅, firstKnown := false }) g

theorem clearFirsts_sameRules (g : Grammar) : g.SameRules g.clearFirsts := by
  unfold clearFirsts
  refine .foldl (fun _ _ => .modifySym ?_) g.nonterminals g
  exact fun _ => rfl

theorem clearFirsts_sym : g.clearFirsts.sym s =
    if s ∈ g.nonterminals ∧ s < g.symbols.size then { g.sym s with first := ∅, firstKnown := false }
    else g.sym s :=
  sym_foldl_modifySym fun _ => rfl

theorem computeFirsts_eq :
    g.computeFirsts = g.clearFirsts.nonterminals.foldl computeFirst g.clearFirsts :=
  rfl

theorem computeFirsts_sameRules (g : Grammar) : g.SameRules g.computeFirsts :=
  g.clearFirsts_sameRules.trans (computeAll_sameRules _ _)

theorem computeFirsts_deletable (s : SymbolId) :
    (g.computeFirsts.sym s).deletable = (g.sym s).deletable := by
  rw [computeFirsts_eq, computeAll_deletable, clearFirsts_sym]
  split <;> rfl

namespace Composed

/-- The start sets of all nonterminals get known. -/
theorem knownExact_computeFirsts (hg : g.Composed pool) : g.computeFirsts.KnownExact ∧
    ∀ s ∈ g.nonterminals, (g.computeFirsts.sym s).firstKnown = true := by
  have hrules := g.clearFirsts_sameRules
  have hcleared : g.clearFirsts.KnownExact := by
    intro t ht hknown
    rw [hrules.nonterminals_eq] at ht
    rw [clearFirsts_sym, if_pos ⟨ht, (mem_nonterminals.1 ht).1⟩] at hknown
    cases hknown
  have hall := (hg.congr hrules).knownExact_computeAll g.clearFirsts.nonterminals hcleared
    fun _ hs => hs
  rwa [← computeFirsts_eq, hrules.nonterminals_eq] at hall

theorem mem_computeFirsts (hg : g.Composed pool) (hs : s ∈ g.nonterminals) :
    n ∈ (g.computeFirsts.sym s).first ↔ ∃ p ∈ (g.sym s).production, g.CanBegin n p := by
  obtain ⟨hexact, hknown⟩ := hg.knownExact_computeFirsts
  have hrules := g.computeFirsts_sameRules
  have hmem := hexact s (by rwa [hrules.nonterminals_eq]) (hknown s hs) n
  simpa only [hrules.production_eq, hrules.canBegin_iff computeFirsts_deletable] using hmem

/-- The start set of a nonterminal holds the terminals with which the sentential forms derived from
it begin. -/
theorem mem_computeFirsts_iff (hg : g.Composed pool) (hflags : g.FlagsSound pool)
    (hs : s ∈ g.nonterminals) (n : Nat) :
    n ∈ (g.computeDeletable.computeFirsts.sym s).first ↔
      ∃ α, g.Derives pool [.nonterminal s] (.terminal n :: α) := by
  have hrules := g.computeDeletable_sameRules
  have hg' := hg.congr hrules
  have hs' : s ∈ g.computeDeletable.nonterminals := by rwa [hrules.nonterminals_eq]
  have hflags' := hg.flagsSound_computeDeletable hflags
  rw [hg'.mem_computeFirsts hs', hg'.canBegin_iff_derives computeDeletable_closed hflags' hs']
  simp only [hrules.derives_iff]

end Composed

/-! ## A left-recursive production -/

/-- The production `L = [ L a ]`. -/
def leftRecursive : Grammar :=
  (initial.declareProduction "L" (.opt (.seq (.nonterminal "L") [.terminal "a"])) 1).2.2

/-- The phrase of the production. -/
def leftRecursivePhrase : Phrase :=
  .opt 2 (.seq (.leaf 0) (.leaf 1))

theorem leftRecursive_composed : leftRecursive.Composed [leftRecursivePhrase] := by
  have hsymbol : (NodeKind.nonterminal 1).isLeaf = true := rfl
  have hterminal : (NodeKind.terminal 2).isLeaf = true := rfl
  have hfirst := (Assembled.start (initial.declareSymbol .nonterminal "L" 1).2).leaf hsymbol 1 none
  have hboth := (hfirst.declareSymbol .terminal "a" 1).leaf hterminal 1 none
  have hopt := (hboth.perm (.swap _ _ [])).sequence.option
  have hall : Assembled leftRecursive [leftRecursivePhrase] := hopt.declare (by decide) (by decide)
  exact ⟨hall, by decide, by decide⟩

theorem Composed.mem_computeFirsts_iff_leftRecursive :
    leftRecursive.Composed [leftRecursivePhrase] ∧
      1 ∈ (leftRecursive.computeDeletable.computeFirsts.sym 1).first ∧
      ∃ α, leftRecursive.Derives [leftRecursivePhrase] [.nonterminal 1] (.terminal 1 :: α) :=
  have hmem : 1 ∈ (leftRecursive.computeDeletable.computeFirsts.sym 1).first := by decide
  ⟨leftRecursive_composed, hmem, (leftRecursive_composed.mem_computeFirsts_iff
    (flagsSound_of_forall (by decide)) (by decide) 1).1 hmem⟩

end Grammar

end Ebnf
