import Ebnf.Proofs.Machine.Traces

/-!
# What a further declaration leaves alone

All tokens share the start state, which gets the first moves of each of them.  A
move back to it would lead from the texts of one token into those of another.
There is none, and the moves that are added for a token never lead into the states
of others, so that these go on to recognise what they did.

Main results:

- Theorem `Draft.Edits.accepts_iff`: what is added for one token changes nothing for
  the others.
- Theorem `Draft.Declared.accepts_addition`: the start state is no end and the target of
  no move, and every further token or literal leaves the texts of all others as
  they are.
-/

namespace Ebnf

/-- An assembled token structure is complete once it is closed, and its nodes have no states yet. -/
theorem Grammar.Assembled.beginsStructure {g : Grammar} {e : Phrase} {pool : List Phrase}
    (h : Grammar.Assembled g (e :: pool)) : (g.close e.fragment).BeginsStructure e.entry := by
  have hpool := h.toPool
  refine ⟨e, false, h.shows_close, hpool.nodup e List.mem_cons_self, rfl, fun x hx => ?_⟩
  rw [Grammar.state_close]
  exact hpool.state_eq e List.mem_cons_self x hx

namespace Draft

variable {d d' : Draft} {tok a : SymbolId} {free : SymbolId → Prop} {w : List Nat}

/-- A text leads to an end of another token if and only if it did before.  Old ends stay, and what
leads to one of them leads through old states only. -/
theorem Edits.accepts_iff (hd : d.WellFormed)
    (h : Edits tok (d.machine.states.size ≤ ·) (Forward d.machine.states.size) d d')
    (hstart : (d.machine.state Machine.start).endOf = none)
    (hgrammar : d.grammar.Continues free d'.grammar) (hne : a ≠ tok) :
    d'.Accepts a Machine.start w ↔ d.Accepts a Machine.start w := by
  constructor
  · rintro ⟨t, hleads, hend⟩
    have hold := h.endOf_new hend |>.resolve_right fun hnew => hne hnew.1
    exact ⟨t, (h.leads_old hd (lt_size_of_endOf hold) hleads hgrammar).2, hold⟩
  · exact h.accepts_mono (fun _ => .inl) hd hstart hgrammar

/-- However tokens and literals were declared, no token ends in the start state and no move leads
there.  A further token, for a complete structure of its own, or a further literal leaves it to every
other token which texts lead from the start state to an end of it. -/
theorem Declared.accepts_addition (h : d.Declared Grammar.BeginsStructure) :
    (d.machine.state Machine.start).endOf = none ∧ d.NoReturn ∧
    (∀ p, d.grammar.BeginsStructure p → ∀ tok, ∀ a ≠ tok, ∀ w,
      (d.addToken p tok).Accepts a Machine.start w ↔ d.Accepts a Machine.start w) ∧
    ∀ quoted tok, ∀ a ≠ tok, ∀ w,
      (d.addLiteral quoted tok).Accepts a Machine.start w ↔ d.Accepts a Machine.start w := by
  have hstart : (d.machine.state Machine.start).endOf = none :=
    (h.mono fun _ _ => Grammar.BeginsStructure.inStructure).endOf_start
  refine ⟨hstart, h.noReturn, fun p hp tok a hne w => ?_, fun quoted tok a hne w => ?_⟩
  · exact (edits_addToken_whole hp tok).accepts_iff h.sound.wellFormed hstart
      (continues_addToken d p tok) hne
  · exact (edits_addLiteral d quoted tok).accepts_iff h.sound.wellFormed hstart
      (continues_addLiteral d quoted tok) hne

/-- The grammar in which the token structure `{a} b` is put together. -/
def roundsGrammar : Grammar :=
  let (a, g) := Grammar.initial.addLeaf { kind := .char 97 .main, line := 1 }
  let (loop, g) := g.iteration a
  let (b, g) := g.addLeaf { kind := .char 98 .main, line := 1 }
  (g.sequence loop b).2

/-- The token structure `{a} b`. -/
def roundsPhrase : Phrase :=
  .seq (.iter 1 (.leaf 0)) (.leaf 2)

/-- The machine of the token `{a} b`. -/
def rounds : Draft :=
  addToken ⟨.initial, roundsGrammar.close roundsPhrase.fragment⟩ roundsPhrase.entry 1

theorem declared_rounds : rounds.Declared Grammar.BeginsStructure := by
  have hchar : ∀ c, (NodeKind.char c .main).isLeaf = true := fun _ => rfl
  have hloop := ((Grammar.Assembled.start .initial).leaf (hchar 97) 1 none).iteration
  have hrounds : Grammar.Assembled roundsGrammar [roundsPhrase] :=
    ((hloop.leaf (hchar 98) 1 none).perm (.swap _ _ _)).sequence
  refine (Declared.initial ?_).token hrounds.beginsStructure 1
  exact Grammar.fit_of_isFresh (fun _ => CharSet.canonical_empty) (by decide +kernel)

/-- The token still ends behind `ab` when the literal `ba` is declared. -/
theorem Declared.accepts_addition_rounds :
    rounds.Declared Grammar.BeginsStructure ∧ rounds.Accepts 1 Machine.start [97, 98] ∧
      (rounds.addLiteral "\"ba\"" 2).Accepts 1 Machine.start [97, 98] := by
  have haccepts : rounds.Accepts 1 Machine.start [97, 98] := by
    have hfirst : (rounds.machine.state 0).moves[1]? = some ⟨.char 97, .main, .singleton 1⟩ := by
      decide +kernel
    have hsecond : (rounds.machine.state 1).moves[0]? = some ⟨.char 98, .main, .singleton 2⟩ := by
      decide +kernel
    exact ⟨2, ⟨1, ⟨_, List.mem_of_getElem? hfirst, rfl, BitSet.mem_singleton.2 rfl⟩,
      2, ⟨_, List.mem_of_getElem? hsecond, rfl, BitSet.mem_singleton.2 rfl⟩, rfl⟩, by decide +kernel⟩
  exact ⟨declared_rounds, haccepts,
    (declared_rounds.accepts_addition.2.2.2 "\"ba\"" 2 1 (by decide) _).2 haccepts⟩

end Draft

end Ebnf
