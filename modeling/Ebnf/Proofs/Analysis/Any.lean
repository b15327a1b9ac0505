import Ebnf.Proofs.Analysis.Annotation
import Ebnf.Proofs.Analysis.Follow
import Ebnf.Proofs.Analysis.Narrow
import Ebnf.Proofs.Phrase.Outline

/-!
# ANYs are kept apart from what stands beside them

The productions are gone through once.  At each option, iteration and arm that begins
with an ANY, terminals are taken from it that something beside it begins with.  This
something may begin with ANYs itself, which get smaller later on, and so may the ANY,
which can be the first one of several structures around it.  Once two sets are disjoint,
they stay so however much smaller they get.

Main results:

- Theorem `Grammar.AnysParted.shrink`: what is apart stays apart.
- Theorem `Grammar.anysParted_narrowAnys`: after a phrase was gone through, its ANYs are
  apart from what stands beside them.
- Theorem `Grammar.Composed.anysParted_computeAnys`: so they are in all productions in the
  end.
-/

namespace Ebnf

/-- The nodes of the arms of an alternative. -/
def Phrase.arms : Phrase → List NodeId
  | arm p _ => [p]
  | alt p _ r => p :: r.arms
  | _ => []

namespace Grammar

variable {g g' : Grammar} {pool : List Phrase} {e : Phrase} {k : Option NodeId} {up : Bool}
  {s : SymbolId} {p q : NodeId} {o rest : Outline} {set set' taken : BitSet} {body : Option NodeId}

/-! ## Disjoint sets -/

/-- If a chain begins with an ANY, this stands for no terminal of the set. -/
def Avoids (g : Grammar) (body : Option NodeId) (set : BitSet) : Prop :=
  ∀ a ∈ g.leadingAny body, ∀ n ∈ (g.node a).set, n ∉ set

/-- The second node is a later arm of the alternative to which the first one belongs. -/
def LaterArm (g : Grammar) : NodeId → NodeId → Prop :=
  Relation.TransGen fun p q => (g.node p).down = some q

/-- The ANY with which the contents of a node begin stands for no terminal with which something
beside them begins. -/
structure AnysParted (g : Grammar) (p : NodeId) : Prop where
  /-- what follows an option or iteration -/
  group : (g.node p).kind = .opt ∨ (g.node p).kind = .iter →
    g.Avoids (g.node p).sub (g.first (g.node p).next)
  /-- the later arms -/
  later : (g.node p).kind = .alt → g.Avoids (g.node p).sub (g.first (g.node p).down)
  /-- an arm without such an ANY, for the ANYs of the later arms -/
  earlier : (g.node p).kind = .alt → g.leadingAny (g.node p).sub = none →
    ∀ q, g.LaterArm p q → g.Avoids (g.node q).sub (g.first (g.node p).sub)

theorem Avoids.shrink (h : g.Avoids body set) (hshrinks : g.Shrinks g')
    (hset : ∀ n ∈ set', n ∈ set) : g'.Avoids body set' := by
  intro a ha n hn hmem
  rw [hshrinks.leadingAny_eq] at ha
  exact h a ha n (hshrinks.mem_set a n hn) (hset n hmem)

/-- What is apart stays apart. -/
theorem AnysParted.shrink (h : g.AnysParted p) (hshrinks : g.Shrinks g') : g'.AnysParted p := by
  have hlater : g'.LaterArm = g.LaterArm := by
    unfold LaterArm
    simp only [hshrinks.agrees.down_eq]
  constructor
  · intro hkind
    rw [hshrinks.agrees.kind_eq] at hkind
    rw [hshrinks.agrees.sub_eq, hshrinks.agrees.next_eq]
    exact (h.group hkind).shrink hshrinks fun n => hshrinks.mem_first
  · intro hkind
    rw [hshrinks.agrees.kind_eq] at hkind
    rw [hshrinks.agrees.sub_eq, hshrinks.agrees.down_eq]
    exact (h.later hkind).shrink hshrinks fun n => hshrinks.mem_first
  · intro hkind hnone q hq
    rw [hshrinks.agrees.kind_eq] at hkind
    rw [hshrinks.agrees.sub_eq, hshrinks.leadingAny_eq] at hnone
    rw [hshrinks.agrees.sub_eq, hshrinks.agrees.sub_eq]
    exact (h.earlier hkind hnone q (hlater ▸ hq)).shrink hshrinks fun n => hshrinks.mem_first

/-! ## One node -/

theorem mem_set_narrow {n : Nat} : n ∈ ((g.narrow p set).node q).set ↔
    n ∈ (g.node q).set ∧ (q = p → n ∉ set) := by
  rw [node_narrow]
  split
  · next hp =>
    rw [BitSet.mem_diff]
    exact and_congr_right fun _ => ⟨fun hn _ => hn, fun hn => hn hp.1⟩
  · next hp =>
    refine ⟨fun hn => ⟨hn, fun heq => ?_⟩, And.left⟩
    -- there is no such node
    have hnone : g.node q = default := by simp [node, heq, show ¬ p < g.nodes.size from fun hlt => hp ⟨heq, hlt⟩]
    rw [hnone] at hn
    exact absurd hn (BitSet.not_mem_empty n)

theorem avoids_narrow (h : g.leadingAny body = some p) : (g.narrow p set).Avoids body set := by
  intro a ha n hn
  rw [(narrow_shrinks g p set).leadingAny_eq, h] at ha
  obtain rfl := Option.some.inj ha
  exact (mem_set_narrow.1 hn).2 rfl

theorem avoids_of_none (h : g.leadingAny body = none) : g.Avoids body set := by
  intro a ha
  rw [h] at ha
  cases ha

theorem narrowAnys_shrinks (g : Grammar) (o : Outline) : g.Shrinks (g.narrowAnys o) :=
  (g.narrows_narrowAnys o).shrinks

theorem narrowArms_shrinks (g : Grammar) (taken : BitSet) (o : Outline) :
    g.Shrinks (g.narrowArms taken o) :=
  ((narrowAnys_narrows g.linked_all fun _ _ => trivial).2 taken).shrinks

theorem narrowBehind_shrinks (g : Grammar) (p : NodeId) : g.Shrinks (g.narrowBehind p) :=
  (narrowBehind_narrows g.linked_all trivial).shrinks

theorem narrowGroup_shrinks (g : Grammar) (p : NodeId) (o : Outline) :
    g.Shrinks (g.narrowGroup p o) :=
  (@narrowGroup_narrows g (fun _ => True) o (fun _ _ => trivial) p).shrinks

theorem narrowArm_shrinks (g : Grammar) (p : NodeId) (o : Outline) (taken : BitSet) :
    g.Shrinks (g.narrowArm p o taken).2 :=
  (@narrowArm_narrows g (fun _ => True) o (fun _ _ => trivial) p taken).shrinks

/-- The ANY with which an option or iteration begins is kept apart from what follows. -/
theorem avoids_narrowGroup (hbody : g.outline body = o) :
    (g.narrowGroup p o).Avoids body ((g.narrowGroup p o).first (g.node p).next) := by
  subst hbody
  unfold narrowGroup
  split
  · next any hany =>
    have hshrinks := narrow_shrinks g any (g.first (g.node p).next)
    exact (avoids_narrow hany).shrink (.refl _) fun n => hshrinks.mem_first
  · next hnone => exact avoids_of_none hnone

/-- The ANY with which an arm begins is kept apart from the later arms, and from what was taken by
earlier ones. -/
theorem avoids_narrowArm (hbody : g.outline body = o) :
    (g.narrowArm p o taken).2.Avoids body ((g.narrowArm p o taken).2.first (g.node p).down) ∧
      (g.narrowArm p o taken).2.Avoids body taken := by
  subst hbody
  unfold narrowArm
  split
  · next any hany =>
    have hshrinks := narrow_shrinks g any ((g.first (g.node p).down).union taken)
    have hall := @avoids_narrow g any ((g.first (g.node p).down).union taken) _ hany
    refine ⟨hall.shrink (.refl _) fun n hn => ?_, hall.shrink (.refl _) fun n hn => ?_⟩
    · exact BitSet.mem_union.2 (.inl (hshrinks.mem_first hn))
    · exact BitSet.mem_union.2 (.inr hn)
  · next hnone => exact ⟨avoids_of_none hnone, avoids_of_none hnone⟩

/-- What an arm without such an ANY begins with is taken for the later ones. -/
theorem mem_taken_narrowArm {n : Nat} (hn : n ∈ taken ∨
    g.frontAny o = none ∧ n ∈ g.first (g.node p).sub) : n ∈ (g.narrowArm p o taken).1 := by
  unfold narrowArm
  split
  · next hany =>
    rcases hn with hn | ⟨hnone, _⟩
    · exact hn
    · cases hany.symm.trans hnone
  · exact BitSet.mem_union.2 (hn.imp_right And.right)

/-! ## Going through a phrase -/

/-- What follows a phrase is gone through after it. -/
theorem narrowAnys_outline : g.narrowAnys (e.outline rest) =
    (g.narrowAnys (e.outline .done)).narrowAnys rest := by
  induction e generalizing g rest with
  | leaf p | arm p e | alt p e r | opt p e | iter p e => simp only [Phrase.outline, narrowAnys]
  | seq a b iha ihb =>
    rw [Phrase.outline, Phrase.outline, iha, @iha g (b.outline .done), ihb]

/-- The later arms of an alternative are arms of the phrase. -/
theorem Shows.mem_arms (h : g.Shows e k up) (harms : e.isArms = true)
    (hq : Relation.ReflTransGen (fun p q => (g.node p).down = some q) e.entry q) : q ∈ e.arms := by
  induction e generalizing k up with
  | leaf | seq | opt | iter => cases harms
  | arm p e =>
    rcases Relation.ReflTransGen.cases_head hq with rfl | ⟨x, hx, _⟩
    · exact List.mem_cons_self
    · cases h.1.down_eq.symm.trans hx
  | alt p e r _ ihr =>
    rcases Relation.ReflTransGen.cases_head hq with rfl | ⟨x, hx, hq⟩
    · exact List.mem_cons_self
    · obtain rfl := Option.some.inj (h.2.1.down_eq.symm.trans hx)
      exact List.mem_cons_of_mem p (ihr h.2.2.2 h.1 hq)

theorem Shrinks.shows (h : g.Shrinks g') (hshows : g.Shows e k up) : g'.Shows e k up :=
  hshows.congr (Nat.le_of_eq h.size_eq.symm) fun p _ => h.links_eq p

/-- The contents of a node are seen as the phrase in it. -/
theorem Shrinks.outline_body (h : g.Shrinks g') (hshows : g.Shows e k true)
    (hnodup : e.nodes.Nodup) : g'.outline (some e.entry) = e.outline .done :=
  outline_entry (h.shows hshows) hnodup (.inl rfl)

/-- An option or iteration with its contents. -/
theorem anysParted_group (hkind : (g.node p).kind = .opt ∨ (g.node p).kind = .iter)
    (hsub : (g.node p).sub = some e.entry) (hshows : g.Shows e k true) (hnodup : e.nodes.Nodup)
    (hbody : ∀ q ∈ e.nodes, (g.narrowAnys (e.outline .done)).AnysParted q) :
    ∀ q ∈ p :: e.nodes, (((g.narrowAnys (e.outline .done)).narrowGroup p
      (e.outline .done)).narrowBehind p).AnysParted q := by
  have hinner := g.narrowAnys_shrinks (e.outline .done)
  generalize g.narrowAnys (e.outline .done) = g₁ at hbody hinner
  have hnarrow := g₁.narrowGroup_shrinks p (e.outline .done)
  refine List.forall_mem_cons.2 ⟨?_, fun q hq =>
    ((hbody q hq).shrink hnarrow).shrink (narrowBehind_shrinks _ p)⟩
  refine AnysParted.shrink ?_ (narrowBehind_shrinks _ p)
  have hkind' := (hinner.trans hnarrow).agrees.kind_eq p
  have halt : ((g₁.narrowGroup p (e.outline .done)).node p).kind ≠ .alt := by
    rw [hkind']
    rcases hkind with hkind | hkind <;> simp [hkind]
  refine ⟨fun _ => ?_, fun h => absurd h halt, fun h => absurd h halt⟩
  rw [(hinner.trans hnarrow).agrees.sub_eq, hsub, hnarrow.agrees.next_eq]
  exact avoids_narrowGroup (hinner.outline_body hshows hnodup)

/-- An arm with its contents, before the later arms. -/
theorem anysParted_arm (hkind : (g.node p).kind = .alt) (hsub : (g.node p).sub = some e.entry)
    (hshows : g.Shows e k true) (hnodup : e.nodes.Nodup) (hshrinks : g.Shrinks g')
    (harm : (g.narrowArm p (e.outline .done) taken).2.Shrinks g')
    (hlater : ∀ q, g.LaterArm p q →
      g'.Avoids (g.node q).sub (g.narrowArm p (e.outline .done) taken).1) :
    g'.AnysParted p ∧ g'.Avoids (g.node p).sub taken := by
  have hbody := outline_entry hshows hnodup (.inl rfl)
  obtain ⟨hdown, htaken⟩ := @avoids_narrowArm g p _ taken _ hbody
  have hgroup : ¬ ((g'.node p).kind = .opt ∨ (g'.node p).kind = .iter) := by
    rw [hshrinks.agrees.kind_eq, hkind]
    simp
  have hsame : g'.LaterArm = g.LaterArm := by
    unfold LaterArm
    simp only [hshrinks.agrees.down_eq]
  rw [hsub]
  refine ⟨⟨fun h => absurd h hgroup, fun _ => ?_, fun _ hnone q hq => ?_⟩,
    htaken.shrink harm fun _ hn => hn⟩
  · rw [hshrinks.agrees.sub_eq, hsub, hshrinks.agrees.down_eq]
    exact hdown.shrink harm fun n => harm.mem_first
  · rw [hshrinks.agrees.sub_eq, hshrinks.leadingAny_eq, hsub, leadingAny, hbody] at hnone
    rw [hshrinks.agrees.sub_eq, hshrinks.agrees.sub_eq]
    refine (hlater q (hsame ▸ hq)).shrink (.refl _) fun n hn => mem_taken_narrowArm (.inr ⟨hnone, ?_⟩)
    exact hshrinks.mem_first hn

theorem anysParted_leaf (h : (g.node p).kind.isLeaf = true) : g.AnysParted p := by
  refine ⟨fun hkind => ?_, fun hkind => ?_, fun hkind => ?_⟩
  · rcases hkind with hkind | hkind <;> simp [hkind, NodeKind.isLeaf] at h
  all_goals simp [hkind, NodeKind.isLeaf] at h

/-- An alternative is gone through as arms first. -/
theorem anysParted_of_narrowArms {body down next : Unit → Outline} {ps : List NodeId}
    (h : ∀ q ∈ ps, (g.narrowArms ∅ (.arm p body down next)).AnysParted q) :
    ∀ q ∈ ps, (g.narrowAnys (.arm p body down next)).AnysParted q := by
  intro q hq
  rw [narrowAnys_arm]
  exact ((h q hq).shrink (narrowBehind_shrinks _ p)).shrink (narrowAnys_shrinks _ _)

/-- An arm with its contents, and the later arms. -/
theorem anysParted_arms {down : Option NodeId} {more : Outline} {next : Unit → Outline}
    {ps arms : List NodeId} (hhold : g.Holds p .alt (some e.entry) down k up)
    (hshows : g.Shows e k true) (hnodup : e.nodes.Nodup)
    (hbody : ∀ q ∈ e.nodes, (g.narrowAnys (e.outline .done)).AnysParted q)
    (hlater : ∀ q, g.LaterArm p q → q ∈ arms)
    (hmore : ∀ (g' : Grammar) (taken : BitSet), g.Shrinks g' →
      (∀ q ∈ ps, (g'.narrowArms taken more).AnysParted q) ∧
        ∀ q ∈ arms, (g'.narrowArms taken more).Avoids (g.node q).sub taken) (taken : BitSet) :
    (∀ q ∈ p :: (e.nodes ++ ps),
      (g.narrowArms taken (.arm p (fun _ => e.outline .done) (fun _ => more) next)).AnysParted q) ∧
    ∀ q ∈ p :: arms, (g.narrowArms taken
      (.arm p (fun _ => e.outline .done) (fun _ => more) next)).Avoids (g.node q).sub taken := by
  have hinner := g.narrowAnys_shrinks (e.outline .done)
  rw [narrowArms_arm]
  generalize g.narrowAnys (e.outline .done) = g₁ at hbody hinner
  have hnarrow := g₁.narrowArm_shrinks p (e.outline .done) taken
  obtain ⟨hps, harms⟩ := hmore _ (g₁.narrowArm p (e.outline .done) taken).1 (hinner.trans hnarrow)
  have hlast := narrowArms_shrinks (g₁.narrowArm p (e.outline .done) taken).2
    (g₁.narrowArm p (e.outline .done) taken).1 more
  have hsame : g₁.LaterArm = g.LaterArm := by
    unfold LaterArm
    simp only [hinner.agrees.down_eq]
  obtain ⟨hp, htaken⟩ := anysParted_arm ((hinner.agrees.kind_eq p).trans hhold.kind_eq)
    ((hinner.agrees.sub_eq p).trans hhold.sub_eq) (hinner.shows hshows) hnodup
    (hnarrow.trans hlast) hlast fun q hq => by
      rw [hinner.agrees.sub_eq]
      exact harms q (hlater q (hsame ▸ hq))
  rw [hinner.agrees.sub_eq] at htaken
  constructor
  · refine List.forall_mem_cons.2 ⟨hp, List.forall_mem_append.2 ⟨fun q hq => ?_, hps⟩⟩
    exact ((hbody q hq).shrink hnarrow).shrink hlast
  · refine List.forall_mem_cons.2 ⟨htaken, fun q hq => ?_⟩
    exact (harms q hq).shrink (.refl _) fun n hn => mem_taken_narrowArm (.inl hn)

/-- After a phrase was gone through, its ANYs are apart from what stands beside them.  The arms of an
alternative moreover avoid what earlier ones have taken. -/
theorem anysParted_narrowAnys (h : g.Shows e k up) (hnodup : e.nodes.Nodup) :
    (∀ p ∈ e.nodes, (g.narrowAnys (e.outline .done)).AnysParted p) ∧
      (e.isArms = true → ∀ taken,
        (∀ p ∈ e.nodes, (g.narrowArms taken (e.outline .done)).AnysParted p) ∧
          ∀ q ∈ e.arms, (g.narrowArms taken (e.outline .done)).Avoids (g.node q).sub taken) := by
  induction e generalizing g k up with
  | leaf p =>
    refine ⟨fun q hq => ?_, fun harms => by cases harms⟩
    obtain rfl := List.mem_singleton.1 hq
    exact (anysParted_leaf h.1).shrink (narrowAnys_shrinks g _)
  | seq a b iha ihb =>
    refine ⟨fun q hq => ?_, fun harms => by cases harms⟩
    obtain ⟨ha, hb, _⟩ := List.nodup_append'.1 hnodup
    rw [Phrase.outline, narrowAnys_outline]
    rcases List.mem_append.1 hq with hq | hq
    · exact ((iha h.1 ha).1 q hq).shrink (narrowAnys_shrinks _ _)
    · exact (ihb ((narrowAnys_shrinks g _).shows h.2) hb).1 q hq
  | opt p e ih | iter p e ih =>
    refine ⟨?_, fun harms => by cases harms⟩
    have he := (List.nodup_cons.1 hnodup).2
    rw [Phrase.outline, narrowAnys, narrowAnys]
    exact anysParted_group (by simp [h.1.kind_eq]) h.1.sub_eq h.2 he (ih h.2 he).1
  | arm p e ih =>
    have he := (List.nodup_cons.1 hnodup).2
    have harms : ∀ taken,
        (∀ q ∈ p :: e.nodes, (g.narrowArms taken ((Phrase.arm p e).outline .done)).AnysParted q) ∧
        ∀ q ∈ [p], (g.narrowArms taken ((Phrase.arm p e).outline .done)).Avoids (g.node q).sub taken := by
      rw [← List.append_nil e.nodes]
      refine anysParted_arms h.1 h.2 he (ih h.2 he).1 (fun q hq => ?_) fun _ _ _ =>
        ⟨fun _ hq => absurd hq List.not_mem_nil, fun _ hq => absurd hq List.not_mem_nil⟩
      obtain ⟨x, hx, _⟩ := Relation.TransGen.head'_iff.1 hq
      cases h.1.down_eq.symm.trans hx
    exact ⟨anysParted_of_narrowArms (harms ∅).1, fun _ => harms⟩
  | alt p e r ihe ihr =>
    obtain ⟨he, hr, _⟩ := List.nodup_append'.1 (List.nodup_cons.1 hnodup).2
    have harms : ∀ taken,
        (∀ q ∈ p :: (e.nodes ++ r.nodes),
          (g.narrowArms taken ((Phrase.alt p e r).outline .done)).AnysParted q) ∧
        ∀ q ∈ p :: r.arms,
          (g.narrowArms taken ((Phrase.alt p e r).outline .done)).Avoids (g.node q).sub taken := by
      refine anysParted_arms h.2.1 h.2.2.1 he (ihe h.2.2.1 he).1 (fun q hq => ?_) fun g' taken hg' => ?_
      · obtain ⟨x, hx, hq⟩ := Relation.TransGen.head'_iff.1 hq
        obtain rfl := Option.some.inj (h.2.1.down_eq.symm.trans hx)
        exact h.2.2.2.mem_arms h.1 hq
      · simp only [← hg'.agrees.sub_eq]
        exact (ihr (hg'.shows h.2.2.2) hr).2 h.1 taken
    exact ⟨anysParted_of_narrowArms (harms ∅).1, fun _ => harms⟩

/-! ## All productions -/

namespace Composed

variable (h : g.Composed pool)
include h

theorem anysParted_production (hshrinks : g.Shrinks g') (hp : g.InProduction pool s p) :
    (g'.narrowAnys (g'.outline (g'.sym s).production)).AnysParted p := by
  obtain ⟨e, he, hprod, hp⟩ := hp
  have hshows := hshrinks.shows (h.shows_of_mem he)
  rw [hshrinks.sym_eq, hprod, outline_entry hshows (h.nodup he) (.inr rfl)]
  exact (anysParted_narrowAnys hshows (h.nodup he)).1 p hp

theorem anysParted_computeAnys (hs : s ∈ g.nonterminals) (hp : g.InProduction pool s p) :
    g.computeAnys.AnysParted p := by
  -- the production is gone through at some time, and afterwards the sets only get smaller
  have hrun : ∀ (ss : List SymbolId) (g' : Grammar), g.Shrinks g' → (s ∈ ss ∨ g'.AnysParted p) →
      (ss.foldl (fun g s => g.narrowAnys (g.outline (g.sym s).production)) g').AnysParted p := by
    intro ss
    induction ss with
    | nil => exact fun _ _ hdone => hdone.resolve_left List.not_mem_nil
    | cons t ss ih =>
      intro g' hshrinks hdone
      have hstep := g'.narrowAnys_shrinks (g'.outline (g'.sym t).production)
      refine ih _ (hshrinks.trans hstep) ?_
      rcases hdone with hmem | hparted
      · rcases List.mem_cons.1 hmem with rfl | hmem
        · exact .inr (h.anysParted_production hshrinks hp)
        · exact .inl hmem
      · exact .inr (hparted.shrink hstep)
  exact hrun g.nonterminals g (.refl g) (.inl hs)

/-- After the passes up to the one that narrows ANYs, these are apart from what stands beside them. -/
theorem anysParted (hs : s ∈ g.nonterminals) (hp : g.InProduction pool s p) :
    g.fillAnys.computeDeletable.computeFirsts.computeAnys.AnysParted p := by
  have hfill := g.fillAnys_annotates
  have hrules := g.fillAnys.computeDeletable_sameRules.trans (computeFirsts_sameRules _)
  have hcomposed := (hfill.composed h).congr hrules
  refine hcomposed.anysParted_computeAnys (s := s) ?_ ?_
  · rwa [hrules.nonterminals_eq, hfill.nonterminals_eq]
  · obtain ⟨e, he, hprod, hp⟩ := hp
    exact ⟨e, he, by rw [hrules.production_eq, hfill.production_eq, hprod], hp⟩

end Composed

/-! ## An ANY that is the first one of an arm and of an iteration -/

/-- The production `S = { b | ANY } a`. -/
def guarding : Grammar :=
  (initial.declareProduction "S"
    (.seq (.iter (.alt (.terminal "b") [.any])) [.terminal "a"]) 1).2.2

/-- The phrase of the production. -/
def guardingPhrase : Phrase :=
  .seq (.iter 4 (.alt 2 (.leaf 0) (.arm 3 (.leaf 1)))) (.leaf 5)

theorem guarding_composed : guarding.Composed [guardingPhrase] := by
  have hterminal : ∀ s, (NodeKind.terminal s).isLeaf = true := fun _ => rfl
  have hany : NodeKind.any.isLeaf = true := rfl
  have hb := (Assembled.start (initial.declareSymbol .terminal "b" 1).2).leaf (hterminal 1) 1 none
  have harms := ((hb.leaf hany 1 none).perm (.swap _ _ [])).firstArm.addArm rfl
  have ha := (harms.iteration.declareSymbol .terminal "a" 1).leaf (hterminal 2) 1 none
  have hall : Assembled guarding [guardingPhrase] :=
    (ha.perm (.swap _ _ [])).sequence.declare (by decide) (by decide)
  exact ⟨hall, by decide, by decide⟩

/-- What begins the other arm and what follows are kept apart from the ANY. -/
theorem Composed.anysParted_guarding :
    let g := guarding.fillAnys.computeDeletable.computeFirsts.computeAnys
    guarding.Composed [guardingPhrase] ∧ g.leadingAny (some 2) = some 1 ∧
      g.Avoids (some 2) (g.first (some 5)) ∧ g.Avoids (some 1) (g.first (some 0)) := by
  intro g
  have hp : ∀ p ∈ guardingPhrase.nodes, g.AnysParted p := fun p hp =>
    guarding_composed.anysParted (s := 3) (by decide)
      ⟨guardingPhrase, List.mem_singleton_self _, by decide, hp⟩
  have hloop : (g.node 4).sub = some 2 ∧ (g.node 4).next = some 5 := by decide +kernel
  have harms : (g.node 2).sub = some 0 ∧ (g.node 2).down = some 3 ∧ (g.node 3).sub = some 1 := by
    decide +kernel
  have hfollows := (hp 4 (by decide)).group (.inr (by decide +kernel))
  have hother := (hp 2 (by decide)).earlier (by decide +kernel) (by decide +kernel) 3
    (.single harms.2.1)
  rw [hloop.1, hloop.2] at hfollows
  rw [harms.1, harms.2.2] at hother
  exact ⟨guarding_composed, by decide +kernel, hfollows, hother⟩

end Grammar

end Ebnf
