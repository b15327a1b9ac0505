import Ebnf.Proofs.Check.Conflicts
import Ebnf.Proofs.Phrase.Parts

/-!
# Parts at the end of a phrase

The parts of a phrase that are no sequences are passed one after the other.  Behind some of
them everything in the phrase can be empty, and what follows the phrase may come next.  It
is not seen from all of them: one sees to the end of the structure that encloses a part,
and past it only from the part at its very end.

Main results:

- Theorem `Phrase.Borders.closes`: where what follows is seen, everything before it can be
  empty.
- Theorem `Phrase.Borders.of_body`: what is at the end of an arm is seen from where the
  alternative is.
-/

namespace Ebnf

namespace Phrase

variable {e f x : Phrase} {empty : Phrase → Prop} {up : Bool}

/-! ## Parts that are no sequences -/

/-- The phrase itself, unless it is a sequence. -/
def whole : Phrase → List Phrase
  | seq _ _ => []
  | e => [e]

/-- The parts within a phrase that are no sequences.  The further arms of an alternative are no part
of it by themselves. -/
def within : Phrase → List Phrase
  | leaf _ => []
  | seq a b => a.within ++ a.whole ++ (b.within ++ b.whole)
  | arm _ e | opt _ e | iter _ e => e.within ++ e.whole
  | alt _ e r => e.within ++ e.whole ++ r.within

/-- The parts of a phrase that are no sequences, in the order in which one gets to their ends. -/
def pieces (e : Phrase) : List Phrase :=
  e.within ++ e.whole

/-- The contents of an option, of an iteration, or of the first arm of an alternative. -/
def opening : Phrase → Phrase
  | arm _ e | alt _ e _ | opt _ e | iter _ e => e
  | e => e

theorem sublist_opening (e : Phrase) : e.opening.nodes.Sublist e.nodes := by
  cases e with
  | alt p e r => exact .cons p (List.sublist_append_left _ _)
  | arm p e | opt p e | iter p e => exact List.sublist_cons_self p _
  | leaf | seq => exact .refl _

/-! ## Contents of arms -/

/-- An alternative with certain contents of an arm has them in the first arm or in a later one. -/
theorem bodies_induction {motive : (e : Phrase) → x ∈ e.bodies → Prop}
    (last : ∀ p, motive (.arm p x) (List.mem_singleton_self x))
    (here : ∀ p r, motive (.alt p x r) List.mem_cons_self)
    (later : ∀ p b r (hx : x ∈ r.bodies), motive r hx → motive (.alt p b r) (List.mem_cons_of_mem b hx))
    (hx : x ∈ e.bodies) : motive e hx := by
  induction e with
  | arm p e =>
    obtain rfl := List.mem_singleton.1 hx
    exact last p
  | alt p e r _ ihr =>
    rcases List.mem_cons.1 hx with rfl | hrest
    · exact here p r
    · exact later p e r hrest (ihr hrest)
  | _ => cases hx

theorem sublist_of_mem_bodies (hx : x ∈ e.bodies) : x.nodes.Sublist e.nodes := by
  induction hx using bodies_induction with
  | last p => exact List.sublist_cons_self p _
  | here p r => exact .cons p (List.sublist_append_left _ _)
  | later p b r _ ih => exact .cons p (ih.trans (List.sublist_append_right _ _))

theorem length_lt_of_mem_bodies (hx : x ∈ e.bodies) : x.nodes.length < e.nodes.length := by
  induction hx using bodies_induction with
  | last p => exact Nat.lt_succ_self _
  | here p r =>
    rw [nodes, List.length_cons, List.length_append]
    omega
  | later p b r _ ih =>
    rw [nodes, List.length_cons, List.length_append]
    omega

theorem groups_subset_of_mem_bodies (hx : x ∈ e.bodies) : x.groups ⊆ e.groups := by
  induction hx using bodies_induction with
  | last p => exact List.Subset.refl _
  | here p r => exact List.subset_append_left _ _
  | later p b r _ ih => exact List.subset_append_of_subset_right _ ih

theorem pieces_subset_of_mem_bodies (hx : x ∈ e.bodies) : x.pieces ⊆ e.within := by
  induction hx using bodies_induction with
  | last p => exact List.Subset.refl _
  | here p r => exact List.subset_append_left _ _
  | later p b r _ ih => exact List.subset_append_of_subset_right _ ih

/-! ## Parts with nothing behind them -/

/-- Behind the part everything in the phrase can be empty. -/
inductive Closes (empty : Phrase → Prop) : Phrase → Phrase → Prop
  | self {e : Phrase} : Closes empty e e
  | second {a b f : Phrase} (h : Closes empty b f) : Closes empty (.seq a b) f
  | first {a b f : Phrase} (hb : empty b) (h : Closes empty a f) : Closes empty (.seq a b) f
  | option {p : NodeId} {e f : Phrase} (h : Closes empty e f) : Closes empty (.opt p e) f
  | round {p : NodeId} {e f : Phrase} (h : Closes empty e f) : Closes empty (.iter p e) f
  | body {e x f : Phrase} (hx : x ∈ e.bodies) (h : Closes empty x f) : Closes empty e f

/-- The part, which is no sequence, stands at the end of the phrase, or everything behind it in the
phrase can be empty, so that what follows is seen from there.  Here `up` says whether the phrase ends a
structure: then one sees what follows from the part at the very end only. -/
inductive Borders (empty : Phrase → Prop) : Bool → Phrase → Phrase → Prop
  | self {up : Bool} {e : Phrase} (hseq : ∀ a b, e ≠ .seq a b) : Borders empty up e e
  | second {up : Bool} {a b f : Phrase} (h : Borders empty up b f) : Borders empty up (.seq a b) f
  | first {a b f : Phrase} (hb : empty b) (h : Borders empty false a f) :
      Borders empty false (.seq a b) f
  | option {up : Bool} {p : NodeId} {e f : Phrase} (h : Borders empty true e f) :
      Borders empty up (.opt p e) f
  /-- after a round one is in front of the iteration, which one sees past -/
  | round {p : NodeId} {e f : Phrase} (h : Borders empty true e f) :
      Borders empty false (.iter p e) f
  | body {up : Bool} {e x f : Phrase} (hx : x ∈ e.bodies) (h : Borders empty true x f) :
      Borders empty up e f

namespace Borders

variable (h : Borders empty up e f)
include h

/-- Where what follows is seen, everything before it can be empty. -/
theorem closes : Closes empty e f := by
  induction h with
  | self => exact .self
  | second _ ih => exact .second ih
  | first hb _ ih => exact .first hb ih
  | option _ ih => exact .option ih
  | round _ ih => exact .round ih
  | body hx _ ih => exact .body hx ih

theorem ne_seq : ∀ a b, f ≠ .seq a b := by
  induction h with
  | self hseq => exact hseq
  | _ => assumption

theorem sublist : f.nodes.Sublist e.nodes := by
  induction h with
  | self => exact .refl _
  | second _ ih => exact ih.trans (List.sublist_append_right _ _)
  | first _ _ ih => exact ih.trans (List.sublist_append_left _ _)
  | option _ ih | round _ ih => exact .cons _ ih
  | body hx _ ih => exact ih.trans (sublist_of_mem_bodies hx)

theorem groups_subset : f.groups ⊆ e.groups := by
  induction h with
  | self => exact List.Subset.refl _
  | second _ ih => exact List.subset_append_of_subset_right _ ih
  | first _ _ ih => exact List.subset_append_of_subset_left _ ih
  | option _ ih | round _ ih => exact List.subset_cons_of_subset _ ih
  | body hx _ ih => exact List.Subset.trans ih (groups_subset_of_mem_bodies hx)

/-- What is at the end of an arm is seen from where the alternative is. -/
theorem of_body {y : Phrase} (hx : x ∈ f.bodies) (hy : Borders empty true x y) :
    Borders empty up e y := by
  induction h with
  | self => exact .body hx hy
  | second _ ih => exact .second (ih hx)
  | first hb _ ih => exact .first hb (ih hx)
  | option _ ih => exact .option (ih hx)
  | round _ ih => exact .round (ih hx)
  | body hx' _ ih => exact .body hx' (ih hx)

end Borders

end Phrase

namespace Grammar

variable {g : Grammar} {e f x : Phrase} {k : Option NodeId} {up : Bool}

/-! ## Parts are shown -/

theorem Shows.body (h : g.Shows e k up) (hx : x ∈ e.bodies) : g.Shows x k true := by
  induction hx using Phrase.bodies_induction generalizing up with
  | last p => exact h.2
  | here p r => exact h.2.2.1
  | later p b r _ ih => exact ih h.2.2.2

theorem Shows.of_borders {empty : Phrase → Prop} {leaves : Bool} (h : g.Shows e k leaves)
    (hborders : Phrase.Borders empty up e f) : ∃ k' leaves', g.Shows f k' leaves' := by
  induction hborders generalizing k leaves with
  | self => exact ⟨k, leaves, h⟩
  | second _ ih => exact ih h.2
  | first _ _ ih => exact ih h.1
  | option _ ih | round _ ih => exact ih h.2
  | body hx _ ih => exact ih (h.body hx)

theorem Shows.opening (h : g.Shows f k up) : ∃ k' up', g.Shows f.opening k' up' := by
  cases f with
  | leaf | seq => exact ⟨k, up, h⟩
  | alt p e r => exact ⟨k, true, h.2.2.1⟩
  | arm p e | opt p e => exact ⟨k, true, h.2⟩
  | iter p e => exact ⟨some p, true, h.2⟩

end Grammar

end Ebnf
