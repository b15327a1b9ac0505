import Ebnf.Fragment

/-!
# Nodes after each operation

Symbols, nodes and classes live in tables.  This module says how each operation
on a table changes what one reads from it.

Main results:

- Theorems `Grammar.node_modifyNode` and `Grammar.node_addNode`: the node with an
  index after a change or an addition.
- Theorems `Grammar.node_link` and `Grammar.node_markLeaving`: the nodes after
  several of them got a successor or were marked.
-/

namespace Ebnf

namespace Grammar

variable {g : Grammar} {p q : NodeId} {f : Node → Node}

/-- Behind the last node there is none. -/
theorem node_of_size_le (hp : g.nodes.size ≤ p) : g.node p = default := by
  rw [node, Array.getD_eq_getD_getElem?, Array.getElem?_eq_none hp]
  rfl

theorem node_modifyNode :
    (g.modifyNode p f).node q = if q = p ∧ p < g.nodes.size then f (g.node q) else g.node q := by
  simp only [node, modifyNode, Array.getD_eq_getD_getElem?, Array.getElem?_modify]
  by_cases hpq : p = q
  · subst hpq
    by_cases hp : p < g.nodes.size <;> simp [hp]
  · simp [hpq, Ne.symm hpq]

theorem node_modifyNode_of_ne (hne : q ≠ p) : (g.modifyNode p f).node q = g.node q := by
  rw [node_modifyNode, if_neg fun h => hne h.1]

theorem node_modifyNode_self (hp : p < g.nodes.size) : (g.modifyNode p f).node p = f (g.node p) := by
  rw [node_modifyNode, if_pos ⟨rfl, hp⟩]

@[simp]
theorem size_modifyNode : (g.modifyNode p f).nodes.size = g.nodes.size :=
  Array.size_modify

theorem node_addNode {n : Node} :
    (g.addNode n).2.node q = if q = g.nodes.size then n else g.node q := by
  simp only [node, addNode, Array.getD_eq_getD_getElem?, Array.getElem?_push]
  split <;> rfl

@[simp]
theorem size_addNode {n : Node} : (g.addNode n).2.nodes.size = g.nodes.size + 1 :=
  Array.size_push n

/-- Several nodes are changed in the same way, one after the other. -/
theorem node_foldl_modifyNode {ps : List NodeId} (hf : ∀ n, f (f n) = f n) :
    (ps.foldl (fun g p => g.modifyNode p f) g).node q =
      if q ∈ ps ∧ q < g.nodes.size then f (g.node q) else g.node q := by
  induction ps generalizing g with
  | nil => simp
  | cons p ps ih =>
    rw [List.foldl_cons, ih, size_modifyNode, node_modifyNode]
    by_cases hqp : q = p
    · subst hqp
      by_cases hq : q < g.nodes.size <;> by_cases hmem : q ∈ ps <;> simp [hq, hmem, hf]
    · simp [hqp]

theorem size_foldl_modifyNode {ps : List NodeId} :
    (ps.foldl (fun g p => g.modifyNode p f) g).nodes.size = g.nodes.size := by
  induction ps generalizing g with
  | nil => rfl
  | cons p ps ih => rw [List.foldl_cons, ih, size_modifyNode]

@[simp]
theorem size_link {ps : List NodeId} {next : Option NodeId} :
    (g.link ps next).nodes.size = g.nodes.size :=
  size_foldl_modifyNode

@[simp]
theorem size_markLeaving {ps : List NodeId} : (g.markLeaving ps).nodes.size = g.nodes.size :=
  size_foldl_modifyNode

theorem classes_link {ps : List NodeId} {next : Option NodeId} :
    (g.link ps next).classes = g.classes := by
  unfold link
  induction ps generalizing g with
  | nil => rfl
  | cons p ps ih => exact ih

theorem node_link {ps : List NodeId} {next : Option NodeId} :
    (g.link ps next).node q =
      if q ∈ ps ∧ q < g.nodes.size then { g.node q with next } else g.node q :=
  node_foldl_modifyNode (f := fun n => { n with next }) fun _ => rfl

theorem node_markLeaving {ps : List NodeId} :
    (g.markLeaving ps).node q =
      if q ∈ ps ∧ q < g.nodes.size then { g.node q with leaves := true } else g.node q :=
  node_foldl_modifyNode (f := fun n => { n with leaves := true }) fun _ => rfl

end Grammar

end Ebnf
