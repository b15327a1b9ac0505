import Ebnf.Proofs.Phrase.Chain
import Ebnf.Proofs.Phrase.Deletable
import Ebnf.Proofs.Phrase.Outline

/-!
# Parts of sequences

However the parts of a sequence are bracketed, the nodes are linked in the same way, and
the outline is the same.  So a phrase is given by its parts, and a part in the middle can
be looked at with those in front of it and those behind it.

Main results:

- Theorem `Grammar.shows_iff_parts`: a phrase is shown if its parts are shown one after the
  other.
- Theorem `Grammar.showsParts_append`: what is in front leads to the entry of what is
  behind.
-/

namespace Ebnf

namespace Phrase

variable {e : Phrase}

/-- The parts of a phrase that is a sequence, in order. -/
def parts : Phrase → List Phrase
  | seq a b => a.parts ++ b.parts
  | e => [e]

theorem exists_parts_eq_cons (e : Phrase) : ∃ f fs, e.parts = f :: fs ∧ f.entry = e.entry := by
  induction e with
  | seq a b iha _ =>
    obtain ⟨f, fs, hparts, hentry⟩ := iha
    exact ⟨f, fs ++ b.parts, by rw [parts, hparts, List.cons_append], hentry⟩
  | _ => exact ⟨_, [], rfl, rfl⟩

/-- The nodes of several phrases. -/
def allNodes (es : List Phrase) : List NodeId :=
  es.flatMap nodes

theorem allNodes_cons {es : List Phrase} : allNodes (e :: es) = e.nodes ++ allNodes es :=
  List.flatMap_cons

theorem allNodes_parts : allNodes e.parts = e.nodes := by
  induction e with
  | seq a b iha ihb => rw [parts, allNodes, List.flatMap_append, ← allNodes, ← allNodes, iha, ihb, nodes]
  | _ => exact List.append_nil _

theorem outline_eq_foldr {rest : Outline} : e.outline rest = e.parts.foldr outline rest := by
  induction e generalizing rest with
  | seq a b iha ihb => rw [outline, iha, ihb, parts, List.foldr_append]
  | _ => rfl

theorem nullable_parts {del : NodeId → Bool} : e.nullable del = e.parts.all (·.nullable del) := by
  induction e with
  | seq a b iha ihb => rw [nullable, iha, ihb, parts, List.all_append]
  | _ => simp [parts]

theorem nodes_foldr_outline {es : List Phrase} {rest : Outline} :
    (es.foldr outline rest).nodes = allNodes es ++ rest.nodes := by
  induction es with
  | nil => rfl
  | cons e es ih =>
    rw [List.foldr_cons, nodes_outline, ih, allNodes_cons, List.append_assoc]

end Phrase

namespace Grammar

variable {g : Grammar} {e f : Phrase} {es fs : List Phrase} {k : Option NodeId} {up : Bool}
  {p q : NodeId}

/-- The phrases are shown one after the other. -/
def ShowsParts (g : Grammar) : List Phrase → Option NodeId → Bool → Prop
  | [], _, _ => True
  | [e], k, up => g.Shows e k up
  | e :: f :: es, k, up => g.Shows e (some f.entry) false ∧ g.ShowsParts (f :: es) k up

/-- What is in front leads to the entry of what is behind. -/
theorem showsParts_append : g.ShowsParts (es ++ f :: fs) k up ↔
    g.ShowsParts es (some f.entry) false ∧ g.ShowsParts (f :: fs) k up := by
  induction es with
  | nil => exact (and_iff_right trivial).symm
  | cons e es ih =>
    cases es with
    | nil => rfl
    | cons e' es =>
      rw [List.cons_append, List.cons_append, ShowsParts, ← List.cons_append, ih, ShowsParts,
        and_assoc]

/-- A phrase is shown if its parts are shown one after the other. -/
theorem shows_iff_parts : g.Shows e k up ↔ g.ShowsParts e.parts k up := by
  induction e generalizing k up with
  | seq a b iha ihb =>
    obtain ⟨f, fs, hparts, hentry⟩ := b.exists_parts_eq_cons
    rw [Shows, iha, ihb, Phrase.parts, hparts, showsParts_append, hentry]
  | _ => rfl

/-- The contents of a node are nodes of the same part. -/
theorem ShowsParts.mem_of_contents (h : g.ShowsParts es k up) (hp : p ∈ Phrase.allNodes es)
    (hq : (g.node p).sub = some q ∨ (g.node p).down = some q) : q ∈ Phrase.allNodes es := by
  induction es with
  | nil => cases hp
  | cons e es ih =>
    rw [Phrase.allNodes_cons, List.mem_append] at hp ⊢
    cases es with
    | nil => exact .inl (Shows.mem_of_contents h (hp.resolve_right List.not_mem_nil) hq)
    | cons e' es => exact hp.imp (fun hp => h.1.mem_of_contents hp hq) (ih h.2)

/-- The successor of a node is a node of the same part or of the next one, or follows. -/
theorem ShowsParts.mem_of_next (h : g.ShowsParts es k up) (hp : p ∈ Phrase.allNodes es)
    (hq : (g.node p).next = some q) : q ∈ Phrase.allNodes es ∨ k = some q := by
  induction es with
  | nil => cases hp
  | cons e es ih =>
    rw [Phrase.allNodes_cons, List.mem_append] at hp ⊢
    cases es with
    | nil => exact (Shows.mem_of_next h (hp.resolve_right List.not_mem_nil) hq).imp_left .inl
    | cons e' es =>
      rcases hp with hp | hp
      · refine .inl ((h.1.mem_of_next hp hq).imp_right fun heq => ?_)
        obtain rfl := Option.some.inj heq
        exact List.mem_append_left _ e'.entry_mem_nodes
      · exact (ih h.2 hp).imp_left .inr

end Grammar

end Ebnf
