import Mathlib.Data.Option.Basic
import Mathlib.Logic.Relation
import Ebnf.Analysis.Any
import Ebnf.Proofs.Grammar.Rules

/-!
# Narrowing the sets of ANYs

Whatever way the passes go through the productions, all they do is to take terminals
from ANYs that they can see.  What this leaves alone is said once, for one ANY after the
other.

Main results:

- Theorem `Grammar.narrowAnys_narrows`: only ANYs among the nodes that an outline is
  linked to are narrowed.
- Theorem `Grammar.Shrinks.mem_first`: where the sets of ANYs get smaller, chains start
  with fewer terminals.
-/

namespace Ebnf

namespace Grammar

variable {g g' g'' : Grammar} {nodes : NodeId → Prop} {o : Outline} {p q : NodeId}
  {k : Option NodeId} {taken set : BitSet} {n : Nat}

/-! ## Nodes that are linked to each other only -/

/-- A set of nodes that is closed under links. -/
structure Linked (g : Grammar) (nodes : NodeId → Prop) : Prop where
  sub_mem : ∀ p, nodes p → ∀ q ∈ (g.node p).sub, nodes q
  down_mem : ∀ p, nodes p → ∀ q ∈ (g.node p).down, nodes q
  next_mem : ∀ p, nodes p → ∀ q ∈ (g.node p).next, nodes q

theorem linked_all (g : Grammar) : g.Linked fun _ => True :=
  ⟨fun _ _ _ _ => trivial, fun _ _ _ _ => trivial, fun _ _ _ _ => trivial⟩

theorem Linked.congr (h : g.Linked nodes) (hagrees : g.Agrees g') : g'.Linked nodes where
  sub_mem p hp := hagrees.sub_eq p ▸ h.sub_mem p hp
  down_mem p hp := hagrees.down_eq p ▸ h.down_mem p hp
  next_mem p hp := hagrees.next_eq p ▸ h.next_mem p hp

theorem Linked.mem_outlineWithin (h : g.Linked nodes) (fuel : Nat) (hk : ∀ p ∈ k, nodes p) :
    ∀ q ∈ (g.outlineWithin fuel k).nodes, nodes q := by
  induction fuel generalizing k with
  | zero => simp [outlineWithin, Outline.nodes]
  | succ fuel ih =>
    cases k with
    | none => simp [outlineWithin, Outline.nodes]
    | some p =>
      have hp := hk p rfl
      have hbody := ih (h.sub_mem p hp)
      have hdown := ih (h.down_mem p hp)
      have hnext : ∀ q ∈ (if (g.node p).leaves then Outline.done
          else g.outlineWithin fuel (g.node p).next).nodes, nodes q := by
        split
        · simp [Outline.nodes]
        · exact ih (h.next_mem p hp)
      rw [outlineWithin]
      cases (g.node p).kind with
      | alt =>
        simp only [Outline.nodes, List.forall_mem_append, List.forall_mem_cons]
        exact ⟨⟨⟨hp, hbody⟩, hdown⟩, hnext⟩
      | iter | opt =>
        simp only [Outline.nodes, List.forall_mem_append, List.forall_mem_cons]
        exact ⟨⟨hp, hbody⟩, hnext⟩
      | _ =>
        simp only [Outline.nodes, List.forall_mem_cons]
        exact ⟨hp, hnext⟩

/-- The ANY with which a chain can begin. -/
def leadingAny (g : Grammar) (k : Option NodeId) : Option NodeId :=
  g.frontAny (g.outline k)

/-- The first ANY of an outline is one of its nodes. -/
theorem mem_of_frontAny (h : g.frontAny o = some p) :
    p ∈ o.nodes ∧ (g.node p).kind = .any := by
  induction o with
  | done => cases h
  | leaf q next ih =>
    rw [frontAny] at h
    split at h
    · next hkind =>
      obtain rfl := Option.some.inj h
      exact ⟨List.mem_cons_self, hkind⟩
    · split at h
      · exact (ih () h).imp_left (List.mem_cons_of_mem q)
      · cases h
  | group q body next ihb ihn =>
    rw [frontAny, Option.orElse_eq_some] at h
    rcases h with h | ⟨_, h⟩
    · exact (ihb () h).imp_left fun hmem => List.mem_append_left _ (List.mem_cons_of_mem q hmem)
    · exact (ihn () h).imp_left (List.mem_append_right _)
  | arm q body down next ihb ihd ihn =>
    rw [frontAny, Option.orElse_eq_some, Option.orElse_eq_some] at h
    rcases h with h | ⟨_, h | ⟨_, h⟩⟩
    · refine (ihb () h).imp_left fun hmem => List.mem_append_left _ (List.mem_append_left _ ?_)
      exact List.mem_cons_of_mem q hmem
    · exact (ihd () h).imp_left fun hmem => List.mem_append_left _ (List.mem_append_right _ hmem)
    · split at h
      · exact (ihn () h).imp_left (List.mem_append_right _)
      · cases h

/-! ## One ANY after the other -/

/-- Terminals are taken from ANYs among the nodes. -/
def Narrows (nodes : NodeId → Prop) : Grammar → Grammar → Prop :=
  Relation.ReflTransGen fun g g' =>
    ∃ any, nodes any ∧ (g.node any).kind = .any ∧ ∃ set, g' = g.narrow any set

theorem node_narrow : (g.narrow p set).node q =
    if q = p ∧ p < g.nodes.size then { g.node q with set := (g.node q).set.diff set }
    else g.node q :=
  node_modifyNode

theorem narrow_agrees (g : Grammar) (p : NodeId) (set : BitSet) : g.Agrees (g.narrow p set) where
  size_eq := size_modifyNode
  links_eq q := by
    rw [node_narrow]
    split <;> rfl
  deletable_eq _ := rfl

theorem Agrees.refl (g : Grammar) : g.Agrees g :=
  ⟨rfl, fun _ => rfl, fun _ => rfl⟩

theorem Agrees.trans (h : g.Agrees g') (h' : g'.Agrees g'') : g.Agrees g'' where
  size_eq := h'.size_eq.trans h.size_eq
  links_eq p := (h'.links_eq p).trans (h.links_eq p)
  deletable_eq s := (h'.deletable_eq s).trans (h.deletable_eq s)

theorem Narrows.refl (g : Grammar) : Narrows nodes g g :=
  Relation.ReflTransGen.refl

theorem Narrows.trans (h : Narrows nodes g g') (h' : Narrows nodes g' g'') : Narrows nodes g g'' :=
  Relation.ReflTransGen.trans h h'

theorem Narrows.agrees (h : Narrows nodes g g') : g.Agrees g' := by
  induction h with
  | refl => exact .refl g
  | tail _ hstep ih =>
    obtain ⟨any, _, _, set, rfl⟩ := hstep
    exact ih.trans (narrow_agrees _ any set)

/-- Where there are no ANYs, nothing is done. -/
theorem Narrows.eq_of_forall (h : Narrows nodes g g')
    (hnone : ∀ p, nodes p → (g.node p).kind ≠ .any) : g' = g := by
  induction h with
  | refl => rfl
  | tail hrun hstep _ =>
    obtain ⟨any, hmem, hkind, _⟩ := hstep
    rw [(Narrows.agrees hrun).kind_eq] at hkind
    exact absurd hkind (hnone any hmem)

/-- Other nodes keep their sets. -/
theorem Narrows.set_eq (h : Narrows nodes g g') (hp : ¬ nodes p) :
    (g'.node p).set = (g.node p).set := by
  induction h with
  | refl => rfl
  | tail _ hstep ih =>
    obtain ⟨any, hmem, _, set, rfl⟩ := hstep
    have hne : p ≠ any := fun heq => hp (heq ▸ hmem)
    rw [node_narrow, if_neg fun hand => hne hand.1, ih]

theorem Narrows.start_eq (h : Narrows nodes g g') : g'.start = g.start := by
  induction h with
  | refl => rfl
  | tail _ hstep ih =>
    obtain ⟨any, _, _, set, rfl⟩ := hstep
    exact ih

/-- The first ANY of an outline is narrowed. -/
theorem narrows_frontAny (ho : ∀ q ∈ o.nodes, nodes q) (h : g.frontAny o = some p) (set : BitSet) :
    Narrows nodes g (g.narrow p set) :=
  .single ⟨p, ho p (mem_of_frontAny h).1, (mem_of_frontAny h).2, set, rfl⟩

theorem narrowBehind_narrows (h : g.Linked nodes) (hp : nodes p) :
    Narrows nodes g (g.narrowBehind p) := by
  unfold narrowBehind
  split
  · split
    · next hany => exact narrows_frontAny (h.mem_outlineWithin _ (h.next_mem p hp)) hany _
    · exact .refl g
  · exact .refl g

theorem narrowGroup_narrows (ho : ∀ q ∈ o.nodes, nodes q) (p : NodeId) :
    Narrows nodes g (g.narrowGroup p o) := by
  unfold narrowGroup
  split
  · next hany => exact narrows_frontAny ho hany _
  · exact .refl g

theorem narrowArm_narrows (ho : ∀ q ∈ o.nodes, nodes q) (p : NodeId) (taken : BitSet) :
    Narrows nodes g (g.narrowArm p o taken).2 := by
  unfold narrowArm
  split
  · next hany => exact narrows_frontAny ho hany _
  · exact .refl g

theorem narrowArms_arm {body down next : Unit → Outline} :
    g.narrowArms taken (.arm p body down next) =
      ((g.narrowAnys (body ())).narrowArm p (body ()) taken).2.narrowArms
        ((g.narrowAnys (body ())).narrowArm p (body ()) taken).1 (down ()) := by
  rw [narrowArms]

theorem narrowArms_of_arms (h : o.arms = []) : g.narrowArms taken o = g := by
  cases o with
  | arm => cases h
  | _ => simp [narrowArms]

/-- An alternative is gone through as the further arms of one without an earlier arm, and then as a
node. -/
theorem narrowAnys_arm {body down next : Unit → Outline} :
    g.narrowAnys (.arm p body down next) =
      ((g.narrowArms ∅ (.arm p body down next)).narrowBehind p).narrowAnys (next ()) := by
  rw [narrowAnys, narrowArms_arm]

/-- Only ANYs among the nodes that an outline is linked to are narrowed.  An outline is gone through in
two ways, as a chain and as the further arms of an alternative. -/
theorem narrowAnys_narrows (h : g.Linked nodes) (ho : ∀ q ∈ o.nodes, nodes q) :
    Narrows nodes g (g.narrowAnys o) ∧ ∀ taken, Narrows nodes g (g.narrowArms taken o) := by
  induction o generalizing g with
  | done =>
    rw [narrowAnys]
    exact ⟨.refl g, fun taken => narrowArms_of_arms (o := .done) rfl ▸ .refl g⟩
  | leaf p next ih =>
    obtain ⟨hp, hnext⟩ := List.forall_mem_cons.1 ho
    have hbehind := narrowBehind_narrows h hp
    rw [narrowAnys]
    refine ⟨hbehind.trans (ih () (h.congr hbehind.agrees) hnext).1, fun taken => ?_⟩
    rw [narrowArms_of_arms rfl]
    exact .refl g
  | group p body next ihb ihn =>
    obtain ⟨hbody, hnext⟩ := List.forall_mem_append.1 ho
    obtain ⟨hp, hbody⟩ := List.forall_mem_cons.1 hbody
    have hinner := (ihb () h hbody).1.trans (narrowGroup_narrows hbody p)
    have hbehind := hinner.trans (narrowBehind_narrows (h.congr hinner.agrees) hp)
    rw [narrowAnys]
    refine ⟨hbehind.trans (ihn () (h.congr hbehind.agrees) hnext).1, fun taken => ?_⟩
    rw [narrowArms_of_arms rfl]
    exact .refl g
  | arm p body down next ihb ihd ihn =>
    obtain ⟨hdown, hnext⟩ := List.forall_mem_append.1 ho
    obtain ⟨hbody, hdown⟩ := List.forall_mem_append.1 hdown
    obtain ⟨hp, hbody⟩ := List.forall_mem_cons.1 hbody
    have harms : ∀ taken, Narrows nodes g (g.narrowArms taken (.arm p body down next)) := by
      intro taken
      have hinner := (ihb () h hbody).1.trans (narrowArm_narrows hbody p taken)
      rw [narrowArms_arm]
      exact hinner.trans ((ihd () (h.congr hinner.agrees) hdown).2 _)
    refine ⟨?_, harms⟩
    have hall := (harms ∅).trans (narrowBehind_narrows (h.congr (harms ∅).agrees) hp)
    rw [narrowAnys_arm]
    exact hall.trans (ihn () (h.congr hall.agrees) hnext).1

/-- Whatever is gone through, only ANYs are narrowed. -/
theorem narrows_narrowAnys (g : Grammar) (o : Outline) :
    Narrows (fun _ => True) g (g.narrowAnys o) :=
  (narrowAnys_narrows g.linked_all fun _ _ => trivial).1

theorem computeAnys_narrows (g : Grammar) : Narrows (fun _ => True) g g.computeAnys :=
  List.foldlRecOn g.nonterminals _ (motive := Narrows (fun _ => True) g) (.refl g) fun g' h _ _ =>
    h.trans (g'.narrows_narrowAnys _)

/-! ## Smaller sets -/

/-- The grammars differ in the sets of nodes only, and these get smaller. -/
structure Shrinks (g g' : Grammar) : Prop where
  symbols_eq : g'.symbols = g.symbols
  size_eq : g'.nodes.size = g.nodes.size
  links_eq : ∀ p, (g'.node p).links = (g.node p).links
  mem_set : ∀ p, ∀ n ∈ (g'.node p).set, n ∈ (g.node p).set

theorem narrow_shrinks (g : Grammar) (p : NodeId) (set : BitSet) : g.Shrinks (g.narrow p set) where
  symbols_eq := rfl
  size_eq := size_modifyNode
  links_eq := (narrow_agrees g p set).links_eq
  mem_set q n hn := by
    rw [node_narrow] at hn
    split at hn
    · exact (BitSet.mem_diff.1 hn).1
    · exact hn

namespace Shrinks

theorem refl (g : Grammar) : g.Shrinks g :=
  ⟨rfl, rfl, fun _ => rfl, fun _ _ hn => hn⟩

theorem trans (h : g.Shrinks g') (h' : g'.Shrinks g'') : g.Shrinks g'' where
  symbols_eq := h'.symbols_eq.trans h.symbols_eq
  size_eq := h'.size_eq.trans h.size_eq
  links_eq p := (h'.links_eq p).trans (h.links_eq p)
  mem_set p n hn := h.mem_set p n (h'.mem_set p n hn)

variable (h : g.Shrinks g')
include h

theorem sym_eq (s : SymbolId) : g'.sym s = g.sym s := by
  unfold sym
  rw [h.symbols_eq]

theorem agrees : g.Agrees g' :=
  ⟨h.size_eq, h.links_eq, fun s => congrArg Symbol.deletable (h.sym_eq s)⟩

theorem startEdges_eq : g'.startEdges = g.startEdges := by
  funext p
  simp only [startEdges, h.agrees.kind_eq, h.sym_eq, h.agrees.sub_eq, h.agrees.down_eq,
    h.agrees.next_eq, h.agrees.deletableNode_eq]

theorem mem_startTerminals (hn : n ∈ g'.startTerminals p) : n ∈ g.startTerminals p := by
  unfold startTerminals at hn ⊢
  simp only [h.agrees.kind_eq, h.sym_eq] at hn
  split at hn
  all_goals first | exact hn | exact h.mem_set p n hn

/-- Chains start with fewer terminals. -/
theorem mem_first (hn : n ∈ g'.first k) : n ∈ g.first k := by
  unfold first at hn ⊢
  rw [h.startEdges_eq, h.size_eq, BitSet.mem_foldl_union] at hn
  refine BitSet.mem_foldl_union.2 (hn.imp_right fun ⟨r, hr, hn⟩ => ⟨r, hr, ?_⟩)
  exact h.mem_startTerminals hn

theorem leadingAny_eq (k : Option NodeId) : g'.leadingAny k = g.leadingAny k := by
  unfold leadingAny
  rw [h.agrees.outline_eq]
  induction g.outline k with
  | done => rfl
  | leaf p next ih => simp only [frontAny, h.agrees.kind_eq, h.agrees.leafDeletable_eq, ih]
  | group p body next ihb ihn => simp only [frontAny, ihb, ihn]
  | arm p body down next ihb ihd ihn =>
    simp only [frontAny, h.agrees.deletableNode_eq, ihb, ihd, ihn]

end Shrinks

theorem Narrows.shrinks (h : Narrows nodes g g') : g.Shrinks g' := by
  induction h with
  | refl => exact .refl g
  | tail _ hstep ih =>
    obtain ⟨any, _, _, set, rfl⟩ := hstep
    exact ih.trans (narrow_shrinks _ any set)

end Grammar

end Ebnf
