import Ebnf.Proofs.Check.Conflicts

/-!
# The arms of an alternative

A chain of arms is seen from its first node: through the outline one gets to the nodes of
all arms, and each of them leads to the contents of its arm.  An alternative that stands
anywhere within a phrase is a part of it that is shown like the phrase itself.

Main results:

- Theorem `Grammar.Shows.subs_armNodes`: the nodes of the arms lead to their contents.
- Theorem `Grammar.Shows.showsArms`: an alternative within a phrase is shown as a part of it.
-/

namespace Ebnf

namespace Phrase

/-- The nodes of the arms of an alternative. -/
def armNodes : Phrase → List NodeId
  | arm p _ => [p]
  | alt p _ r => p :: r.armNodes
  | _ => []

theorem arms_outline {e : Phrase} {rest : Outline} (harms : e.isArms = true) :
    (e.outline rest).arms = e.armNodes := by
  induction e generalizing rest with
  | leaf | seq | opt | iter => cases harms
  | arm p e => rfl
  | alt p e r _ ihr => exact congrArg (p :: ·) (ihr harms)

end Phrase

namespace Grammar

variable {g : Grammar} {e : Phrase} {k : Option NodeId} {up : Bool} {p : NodeId}
  {fs : List Phrase} {ns ms : List NodeId}

/-- The nodes of the arms lead to their contents. -/
theorem Shows.subs_armNodes (h : g.Shows e k up) (harms : e.isArms = true) :
    e.armNodes.map (fun p => (g.node p).sub) = e.bodies.map fun f => some f.entry := by
  induction e generalizing k up with
  | leaf | seq | opt | iter => cases harms
  | arm p e => simp [Phrase.armNodes, Phrase.bodies, h.1.sub_eq]
  | alt p e r _ ihr =>
    obtain ⟨hr, hp, _, hmore⟩ := h
    simp [Phrase.armNodes, Phrase.bodies, hp.sub_eq, ihr hmore hr]

/-- Some of the nodes are an alternative with the first node `p` and these contents of its arms. -/
def ShowsArms (g : Grammar) (p : NodeId) (fs : List Phrase) (ns : List NodeId) : Prop :=
  ∃ e k up, e.isArms = true ∧ e.entry = p ∧ e.bodies = fs ∧ g.Shows e k up ∧ e.nodes.Sublist ns

theorem ShowsArms.mono (h : g.ShowsArms p fs ns) (hsub : ns.Sublist ms) : g.ShowsArms p fs ms := by
  obtain ⟨e, k, up, harms, hentry, hbodies, hshows, hnodes⟩ := h
  exact ⟨e, k, up, harms, hentry, hbodies, hshows, hnodes.trans hsub⟩

/-- An alternative within a phrase is shown as a part of it. -/
theorem Shows.showsArms (h : g.Shows e k up) (ha : (p, fs) ∈ e.alternatives) :
    g.ShowsArms p fs e.nodes := by
  induction e generalizing k up with
  | leaf => cases ha
  | seq a b iha ihb =>
    rcases List.mem_append.1 ha with ha | ha
    · exact (iha h.1 ha).mono (List.sublist_append_left _ _)
    · exact (ihb h.2 ha).mono (List.sublist_append_right _ _)
  | arm q e ih =>
    rcases List.mem_cons.1 ha with heq | ha
    · obtain ⟨rfl, rfl⟩ := Prod.mk.inj heq
      exact ⟨.arm p e, k, up, rfl, rfl, rfl, h, .refl _⟩
    · exact (ih h.2 ha).mono (List.sublist_cons_self q _)
  | alt q e r ihe ihr =>
    obtain ⟨hr, _, he, hmore⟩ := id h
    rcases List.mem_cons.1 ha with heq | ha
    · obtain ⟨rfl, rfl⟩ := Prod.mk.inj heq
      exact ⟨.alt p e r, k, up, hr, rfl, rfl, h, .refl _⟩
    · rcases List.mem_append.1 ha with ha | ha
      · exact (ihe he ha).mono ((List.sublist_append_left _ _).cons q)
      · exact (ihr hmore (List.mem_of_mem_tail ha)).mono ((List.sublist_append_right _ _).cons q)
  | opt q e ih | iter q e ih => exact (ih h.2 ha).mono (List.sublist_cons_self q _)

end Grammar

end Ebnf
