import Ebnf.Declaration
import Ebnf.Proofs.Analysis.Range

/-!
# Grammars that are put together

Symbols are declared, nodes are made and combined, and the results become productions.
Whatever nodes are combined in which order, no set of terminals is touched, and every
terminal gets the number of terminals before it.

Main results:

- Theorem `Grammar.Combined.unanalysed`: the analyses of a grammar that is put together begin
  without any sets.
- Theorem `Grammar.Combined.declareProduction`: declaring a production only combines nodes.
-/

namespace Ebnf

namespace Grammar

variable {g g' : Grammar} {p : NodeId} {line : Nat}

/-! ## Without sets -/

namespace Unanalysed

theorem addNode (h : g.Unanalysed) {n : Node} (hset : n.set = ∅) : (g.addNode n).2.Unanalysed where
  numbered := h.numbered
  eof_mem := h.eof_mem
  set_eq p := by
    rw [node_addNode]
    split
    · exact hset
    · exact h.set_eq p
  first_eq := h.first_eq
  follow_eq := h.follow_eq

theorem modifyNode (h : g.Unanalysed) {f : Node → Node} (hf : ∀ n, (f n).set = n.set) :
    (g.modifyNode p f).Unanalysed where
  numbered := h.numbered
  eof_mem := h.eof_mem
  set_eq q := by
    rw [node_modifyNode]
    split
    · exact (hf _).trans (h.set_eq q)
    · exact h.set_eq q
  first_eq := h.first_eq
  follow_eq := h.follow_eq

theorem modifyNodes (h : g.Unanalysed) {f : Node → Node} (hf : ∀ n, (f n).set = n.set)
    (ps : List NodeId) : (ps.foldl (fun g p => g.modifyNode p f) g).Unanalysed :=
  List.foldlRecOn ps _ h fun _ h _ _ => h.modifyNode hf

theorem link (h : g.Unanalysed) (ps : List NodeId) (next : Option NodeId) :
    (g.link ps next).Unanalysed :=
  h.modifyNodes (f := fun n => { n with next }) (fun _ => rfl) ps

theorem markLeaving (h : g.Unanalysed) (ps : List NodeId) : (g.markLeaving ps).Unanalysed :=
  h.modifyNodes (f := fun n => { n with leaves := true }) (fun _ => rfl) ps

theorem addChars (cs : List Char) (h : g.Unanalysed) : (g.addChars line p cs).2.Unanalysed := by
  induction cs generalizing g p with
  | nil => exact h
  | cons c cs ih => exact ih ((h.addNode rfl).modifyNode fun _ => rfl)

theorem reportAll (h : g.Unanalysed) (ds : List Diagnostic) : (g.reportAll ds).Unanalysed :=
  ⟨h.numbered, h.eof_mem, h.set_eq, h.first_eq, h.follow_eq⟩

theorem addString (h : g.Unanalysed) (quoted : String) (line : Nat) :
    (g.addString quoted line).2.Unanalysed := by
  have hread : (g.readQuoted quoted).2.Unanalysed := h.reportAll _
  unfold Grammar.addString
  simp only
  split
  · exact (hread.reportAll [_]).addNode rfl
  · exact (hread.addNode rfl).addChars _

/-- The next terminal gets the number of terminals before it. -/
theorem declareSymbol (h : g.Unanalysed) (kind : SymbolKind) (name : String) (line : Nat) :
    (g.declareSymbol kind name line).2.Unanalysed := by
  obtain ⟨name', ds, heq⟩ := exists_declareSymbol_eq g kind name line
  have hold : ∀ s ∈ g.terminals, s ≠ g.symbols.size := fun s hs => Nat.ne_of_lt (mem_ofKind.1 hs).1
  rw [heq]
  refine ⟨fun s hs => ?_, ?_, h.set_eq, fun s => ?_, fun s => ?_⟩
  · rw [terminals_push, List.mem_append] at hs
    rw [terminals_push, sym_push]
    rcases hs with hs | hs
    · rw [if_neg (hold s hs), List.getElem?_append_left (h.number_lt hs)]
      exact h.numbered s hs
    · split at hs
      · next hkind =>
        dsimp only at hkind
        subst hkind
        rw [List.mem_singleton.1 hs, if_pos rfl, if_pos rfl]
        exact List.getElem?_concat_length
      · cases hs
  · rw [terminals_push]
    exact List.mem_append_left _ h.eof_mem
  · rw [sym_push]
    split
    · rfl
    · exact h.first_eq s
  · rw [sym_push]
    split
    · rfl
    · exact h.follow_eq s

end Unanalysed

theorem unanalysed_initial : initial.Unanalysed where
  numbered := by decide
  eof_mem := by decide
  set_eq p := rfl
  first_eq s := by cases s <;> rfl
  follow_eq s := by cases s <;> rfl

/-! ## Combinations -/

/-- The grammars that arise when symbols are declared, nodes are made for any symbols, and fragments
are combined in any way. -/
inductive Combined : Grammar → Prop
  | initial : Combined .initial
  | declareSymbol {g : Grammar} (h : Combined g) (kind : SymbolKind) (name : String) (line : Nat) :
      Combined (g.declareSymbol kind name line).2
  | leaf {g : Grammar} (h : Combined g) (kind : NodeKind) (line : Nat) (pos : Option Position) :
      Combined (g.addLeaf { kind, line, pos }).2
  | text {g : Grammar} (h : Combined g) (quoted : String) (line : Nat) :
      Combined (g.addString quoted line).2
  | sequence {g : Grammar} (h : Combined g) (f₁ f₂ : Fragment) : Combined (g.sequence f₁ f₂).2
  | firstArm {g : Grammar} (h : Combined g) (f : Fragment) : Combined (g.firstArm f).2
  | addArm {g : Grammar} (h : Combined g) (alts f : Fragment) : Combined (g.addArm alts f).2
  | option {g : Grammar} (h : Combined g) (f : Fragment) : Combined (g.option f).2
  | iteration {g : Grammar} (h : Combined g) (f : Fragment) : Combined (g.iteration f).2
  | markContext {g : Grammar} (h : Combined g) (p : Option NodeId) : Combined (g.markContext p)
  | close {g : Grammar} (h : Combined g) (f : Fragment) : Combined (g.close f)
  /-- productions, kinds of tokens and states are noted, and what else there is in a grammar besides
  symbols and nodes -/
  | revise {g g' : Grammar} (h : Combined g) (hsize : g'.symbols.size = g.symbols.size)
      (hsym : ∀ s, g'.sym s = { g.sym s with
        production := (g'.sym s).production, tokenKind := (g'.sym s).tokenKind })
      (hnode : ∀ p, g'.node p = { g.node p with state := (g'.node p).state })
      (heof : g'.eof = g.eof) : Combined g'

namespace Combined

/-- No combination touches a set, and terminals are numbered as they are declared. -/
theorem unanalysed (h : g.Combined) : g.Unanalysed := by
  induction h with
  | initial => exact unanalysed_initial
  | declareSymbol _ kind name line ih => exact ih.declareSymbol kind name line
  | leaf _ kind line pos ih => exact ih.addNode rfl
  | text _ quoted line ih => exact ih.addString quoted line
  | sequence _ f₁ f₂ ih => exact ih.link _ _
  | firstArm _ f ih => exact (ih.addNode rfl).markLeaving _
  | addArm _ alts f ih => exact ((ih.addNode rfl).markLeaving _).modifyNode fun _ => rfl
  | option _ f ih => exact (ih.addNode rfl).markLeaving _
  | iteration _ f ih => exact ((ih.addNode rfl).markLeaving _).link _ _
  | markContext _ p ih =>
    exact ih.modifyNodes (f := fun n => { n with kind := n.kind.toContext }) (fun _ => rfl) _
  | close _ f ih => exact ih.link _ _
  | @revise g g' _ hsize hsym hnode heof ih =>
    have hkind : ∀ s, (g'.sym s).kind = (g.sym s).kind := fun s => by rw [hsym s]
    have hterminals : g'.terminals = g.terminals := by
      unfold terminals ofKind
      simp only [hsize, hkind]
    refine ⟨fun s hs => ?_, ?_, fun p => ?_, fun s => ?_, fun s => ?_⟩
    · rw [hsym s, hterminals]
      exact ih.numbered s (hterminals ▸ hs)
    · rw [heof, hterminals]
      exact ih.eof_mem
    · rw [hnode p]
      exact ih.set_eq p
    · rw [hsym s]
      exact ih.first_eq s
    · rw [hsym s]
      exact ih.follow_eq s

/-! ## Expressions -/

theorem internSymbol (h : g.Combined) (kind : SymbolKind) (name : String) (line : Nat) :
    (g.internSymbol kind name line).2.Combined := by
  unfold Grammar.internSymbol
  split
  · exact h
  · exact h.declareSymbol kind name line

theorem sequenceAll {f : Fragment} (h : g.Combined) (fs : List Fragment) :
    (g.sequenceAll f fs).2.Combined := by
  induction fs generalizing g f with
  | nil => exact h
  | cons f₂ fs ih => exact ih (h.sequence f f₂)

theorem addArms {alts : Fragment} (h : g.Combined) (fs : List Fragment) :
    (g.addArms alts fs).2.Combined := by
  induction fs generalizing g alts with
  | nil => exact h
  | cons f fs ih => exact ih (h.addArm alts f)

mutual

/-- Adding an expression only combines nodes. -/
theorem addExpr {g : Grammar} (h : g.Combined) (line : Nat) (e : Expr) :
    (g.addExpr line e).2.Combined := by
  cases e with
  | terminal name => exact (h.internSymbol .terminal name line).leaf _ line none
  | weak name => exact (h.internSymbol .terminal name line).leaf _ line none
  | nonterminal name => exact (h.internSymbol .nonterminal name line).leaf _ line none
  | pragma name => exact (h.internSymbol .pragma name line).leaf _ line none
  | any | eps | sync | char c | cls id => exact h.leaf _ line none
  | action pos | resolver pos => exact h.leaf _ line _
  | quoted text => exact h.text text line
  | seq e es => exact ((h.addExpr line e).addExprs line es).sequenceAll _
  | alt e es => exact (((h.addExpr line e).addExprs line es).firstArm _).addArms _
  | iter e => exact (h.addExpr line e).iteration _
  | opt e => exact (h.addExpr line e).option _
  | context e => exact (h.addExpr line e).markContext _
  | onLine line' e => exact h.addExpr line' e
  | fragment f => exact h

theorem addExprs {g : Grammar} (h : g.Combined) (line : Nat) (es : List Expr) :
    (g.addExprs line es).2.Combined := by
  cases es with
  | nil => exact h
  | cons e es => exact (h.addExpr line e).addExprs line es

end

theorem noteProduction (h : g.Combined) (s : SymbolId) (p : NodeId) :
    (g.modifySym s fun sym => { sym with production := some p }).Combined := by
  refine h.revise size_modifySym (fun t => ?_) (fun _ => rfl) rfl
  rw [sym_modifySym]
  split <;> rfl

/-- Declaring a production only combines nodes and notes the first one. -/
theorem declareProduction (h : g.Combined) (name : String) (e : Expr) (line : Nat) :
    (g.declareProduction name e line).2.2.Combined := by
  have hexpr := h.addExpr line e
  unfold Grammar.declareProduction
  generalize g.addExpr line e = added at hexpr ⊢
  have hintern := hexpr.internSymbol .nonterminal name line
  dsimp only
  generalize added.2.internSymbol .nonterminal name line = interned at hintern ⊢
  exact ((hintern.close _).noteProduction _ _).revise rfl (fun _ => rfl) (fun _ => rfl) rfl

end Combined

end Grammar

end Ebnf
