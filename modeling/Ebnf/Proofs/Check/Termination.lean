import Ebnf.Check
import Ebnf.Proofs.Analysis.Deletable

/-!
# Productive nonterminals are found

A nonterminal can be derived to terminals if its production can be passed along
leaves none of which refers to a nonterminal that cannot.  The numbers of such
nonterminals are noted until a round adds none.

Main results:

- Theorem `Grammar.Composed.productive_of_terminates`: a number is noted for a good
  reason.
- Theorem `Grammar.settled_closeTerminating`: there are enough rounds for all numbers.
- Theorem `Grammar.Composed.mem_terminating_iff`: where every nonterminal has a
  production, those that can be derived to forms without nonterminals are noted.
- Theorem `Grammar.Composed.runCheck_endlessSymbols`: the check reports exactly the
  others, each once.
-/

namespace Ebnf

namespace Grammar

variable {g : Grammar} {pool : List Phrase} {e : Phrase} {s t : SymbolId} {p : NodeId}
  {α β : List Letter} {known : BitSet} {ss : List SymbolId}

/-! ## Noted letters -/

/-- Whether a leaf refers to no nonterminal but those whose numbers are noted. -/
def leafTerminates (g : Grammar) (known : BitSet) (p : NodeId) : Bool :=
  match (g.node p).kind with
  | .nonterminal s => known.contains (g.sym s).number
  | _ => true

/-- The letter is no nonterminal, or its number is noted. -/
def Noted (g : Grammar) (known : BitSet) (x : Letter) : Prop :=
  ∀ s ∈ x.reference?, (g.sym s).number ∈ known

theorem terminates_eq_passable (o : Outline) :
    g.terminates known o = o.passable (g.leafTerminates known) := by
  induction o with
  | done => rfl
  | leaf p next ih =>
    rw [terminates, Outline.passable, ih]
    rfl
  | group p body next _ ih => rw [terminates, Outline.passable, ih]
  | arm p body down next ihb ihd ihn => rw [terminates, Outline.passable, ihb, ihd, ihn]

theorem leafTerminates_iff :
    g.leafTerminates known p = true ↔ ∀ x ∈ g.letters p, g.Noted known x := by
  unfold leafTerminates letters Noted
  cases (g.node p).kind <;> simp [Letter.reference?]

theorem forall_leafTerminates_iff {ps : List NodeId} :
    (∀ p ∈ ps, g.leafTerminates known p = true) ↔
      ∀ x ∈ ps.flatMap g.letters, g.Noted known x := by
  simp only [leafTerminates_iff, List.mem_flatMap]
  constructor
  · rintro h x ⟨p, hp, hx⟩
    exact h p hp x hx
  · intro h p hp x hx
    exact h x ⟨p, hp, hx⟩

/-- The production of a nonterminal can be passed along noted letters. -/
theorem Composed.terminates_iff (h : g.Composed pool) (he : e ∈ pool) :
    g.terminates known (g.outline (some e.entry)) = true ↔
      ∃ ps ∈ e.walks, ∀ x ∈ ps.flatMap g.letters, g.Noted known x := by
  rw [terminates_eq_passable, passable_entry (h.shows_of_mem he) (h.nodup he) (.inr rfl),
    Phrase.nullable_iff]
  simp only [forall_leafTerminates_iff]

/-! ## Derivations without end -/

theorem Derives.append_append {α' β' : List Letter} (hα : g.Derives pool α α')
    (hβ : g.Derives pool β β') : g.Derives pool (α ++ β) (α' ++ β') := by
  have hfront : g.Derives pool (α ++ β) (α' ++ β) := by simpa using hα.context [] β
  have hback : g.Derives pool (α' ++ β) (α' ++ β') := by simpa using hβ.context α' []
  exact hfront.trans hback

/-- Letters that are derived to forms without nonterminals one by one are so together. -/
theorem exists_derives_of_forall (h : ∀ x ∈ α, ∀ s ∈ x.reference?, g.Productive pool s) :
    ∃ β, g.Derives pool α β ∧ ∀ x ∈ β, x.reference? = none := by
  induction α with
  | nil => exact ⟨[], .refl, by simp⟩
  | cons x α ih =>
    obtain ⟨hx, hα⟩ := List.forall_mem_cons.1 h
    obtain ⟨β, hβ, hfree⟩ := ih hα
    have hfirst : ∃ γ, g.Derives pool [x] γ ∧ ∀ y ∈ γ, y.reference? = none := by
      cases x with
      | nonterminal s => exact hx s rfl
      | _ => exact ⟨_, .refl, by simp [Letter.reference?]⟩
    obtain ⟨γ, hγ, hfree'⟩ := hfirst
    exact ⟨γ ++ β, hγ.append_append hβ, List.forall_mem_append.2 ⟨hfree', hfree⟩⟩

/-! ## One step -/

/-- Noted nonterminals are derived to forms without nonterminals. -/
def NotesSound (g : Grammar) (pool : List Phrase) (known : BitSet) : Prop :=
  ∀ s ∈ g.nonterminals, (g.sym s).number ∈ known → g.Productive pool s

/-- Every nonterminal has a production. -/
def Complete (g : Grammar) : Prop :=
  ∀ s ∈ g.nonterminals, (g.sym s).production.isSome = true

theorem mem_noteTerminating {n : Nat} : n ∈ g.noteTerminating known s ↔
    n ∈ known ∨ n = (g.sym s).number ∧ g.terminates known (g.outline (g.sym s).production) = true := by
  unfold noteTerminating
  simp only [Bool.and_eq_true, Bool.not_eq_true', ← Bool.not_eq_true, BitSet.contains_iff]
  split
  · next hcond => simp [hcond.2, or_comm]
  · next hcond =>
    constructor
    · exact .inl
    · rintro (hmem | ⟨rfl, hterm⟩)
      · exact hmem
      · by_contra hnot
        exact hcond ⟨hnot, hterm⟩

/-- A nonterminal whose production is found to terminate is derived to a form without
nonterminals. -/
theorem Composed.productive_of_terminates (h : g.Composed pool) (hcomplete : g.Complete)
    (hsound : g.NotesSound pool known) (hs : s ∈ g.nonterminals)
    (hterm : g.terminates known (g.outline (g.sym s).production) = true) :
    g.Productive pool s := by
  obtain ⟨p, hprod⟩ := Option.isSome_iff_exists.1 (hcomplete s hs)
  obtain ⟨e, he, rfl⟩ := h.production s hs p hprod
  rw [hprod, h.terminates_iff he] at hterm
  obtain ⟨ps, hps, hnoted⟩ := hterm
  have hletters : ∀ x ∈ ps.flatMap g.letters, ∀ t ∈ x.reference?, g.Productive pool t := by
    intro x hx t ht
    refine hsound t (h.mem_of_letter he hps hx ht) (hnoted x hx t ht)
  obtain ⟨β, hβ, hfree⟩ := exists_derives_of_forall hletters
  exact ⟨β, (Derives.expand hs he hprod hps).trans hβ, hfree⟩

theorem Composed.notesSound_noteTerminating (h : g.Composed pool) (hnum : g.Numbered)
    (hcomplete : g.Complete) (hsound : g.NotesSound pool known) (hs : s ∈ g.nonterminals) :
    g.NotesSound pool (g.noteTerminating known s) := by
  intro t ht hmem
  rcases mem_noteTerminating.1 hmem with hmem | ⟨heq, hterm⟩
  · exact hsound t ht hmem
  · rw [hnum.eq_of_number ht hs heq]
    exact h.productive_of_terminates hcomplete hsound hs hterm

/-! ## Rounds -/

/-- The nonterminals that are noted. -/
def notedSymbols (g : Grammar) (known : BitSet) : List SymbolId :=
  g.nonterminals.filter fun s => known.contains (g.sym s).number

theorem mem_notedSymbols : s ∈ g.notedSymbols known ↔
    s ∈ g.nonterminals ∧ (g.sym s).number ∈ known := by
  rw [notedSymbols, List.mem_filter, BitSet.contains_iff]

theorem notedSymbols_sublist {known' : BitSet} (h : ∀ n ∈ known, n ∈ known') :
    (g.notedSymbols known).Sublist (g.notedSymbols known') := by
  refine List.monotone_filter_right _ fun s hs => ?_
  rw [BitSet.contains_iff] at hs ⊢
  exact h _ hs

/-- A step notes nothing or a further nonterminal. -/
theorem noteTerminating_eq_or_lt (hs : s ∈ g.nonterminals) :
    g.noteTerminating known s = known ∨
      (g.notedSymbols known).length < (g.notedSymbols (g.noteTerminating known s)).length := by
  by_cases hmem : (g.sym s).number ∈ g.noteTerminating known s → (g.sym s).number ∈ known
  · left
    refine BitSet.ext_mem fun n => ?_
    rw [mem_noteTerminating]
    constructor
    · rintro (hn | ⟨rfl, hterm⟩)
      · exact hn
      · exact hmem (mem_noteTerminating.2 (.inr ⟨rfl, hterm⟩))
    · exact .inl
  · right
    obtain ⟨hnew, hold⟩ := Classical.not_imp.1 hmem
    have hsub : (g.notedSymbols known).Sublist (g.notedSymbols (g.noteTerminating known s)) :=
      notedSymbols_sublist fun _ hn => mem_noteTerminating.2 (.inl hn)
    by_contra hle
    have heq := hsub.eq_of_length_le (Nat.not_lt.1 hle)
    have hmem' : s ∈ g.notedSymbols (g.noteTerminating known s) := mem_notedSymbols.2 ⟨hs, hnew⟩
    rw [← heq] at hmem'
    exact hold (mem_notedSymbols.1 hmem').2

theorem mem_noteAll {n : Nat} (hn : n ∈ known) : n ∈ ss.foldl g.noteTerminating known := by
  induction ss generalizing known with
  | nil => exact hn
  | cons s ss ih => exact ih (mem_noteTerminating.2 (.inl hn))

/-- A round notes nothing or a further nonterminal. -/
theorem noteAll_eq_or_lt (hss : ∀ s ∈ ss, s ∈ g.nonterminals) :
    ss.foldl g.noteTerminating known = known ∨
      (g.notedSymbols known).length < (g.notedSymbols (ss.foldl g.noteTerminating known)).length := by
  induction ss generalizing known with
  | nil => exact .inl rfl
  | cons s ss ih =>
    obtain ⟨hs, hss⟩ := List.forall_mem_cons.1 hss
    rw [List.foldl_cons]
    have hgrow : (g.notedSymbols (g.noteTerminating known s)).length ≤
        (g.notedSymbols (ss.foldl g.noteTerminating (g.noteTerminating known s))).length :=
      (notedSymbols_sublist fun _ hn => mem_noteAll hn).length_le
    rcases noteTerminating_eq_or_lt hs with heq | hlt
    · rw [heq]
      exact ih hss
    · exact .inr (Nat.lt_of_lt_of_le hlt hgrow)

/-- No further nonterminal has to be noted. -/
def Settled (g : Grammar) (known : BitSet) : Prop :=
  ∀ s ∈ g.nonterminals, g.terminates known (g.outline (g.sym s).production) = true →
    (g.sym s).number ∈ known

/-- Where a round notes nothing, nothing had to be noted. -/
theorem mem_of_noteAll_eq (hss : ∀ s ∈ ss, s ∈ g.nonterminals)
    (heq : ss.foldl g.noteTerminating known = known) (hs : s ∈ ss)
    (hterm : g.terminates known (g.outline (g.sym s).production) = true) :
    (g.sym s).number ∈ known := by
  induction ss with
  | nil => cases hs
  | cons r ss ih =>
    obtain ⟨hr, hss⟩ := List.forall_mem_cons.1 hss
    rw [List.foldl_cons] at heq
    have hfirst : g.noteTerminating known r = known := by
      rcases noteTerminating_eq_or_lt hr with hsame | hlt
      · exact hsame
      · have hgrow : (g.notedSymbols (g.noteTerminating known r)).length ≤
            (g.notedSymbols (ss.foldl g.noteTerminating (g.noteTerminating known r))).length :=
          (notedSymbols_sublist fun _ hn => mem_noteAll hn).length_le
        rw [heq] at hgrow
        omega
    rw [hfirst] at heq
    rcases List.mem_cons.1 hs with rfl | hs
    · rw [← hfirst]
      exact mem_noteTerminating.2 (.inr ⟨rfl, hterm⟩)
    · exact ih hss heq hs

/-- Each round but the last notes a nonterminal, so that there are enough of them. -/
theorem settled_closeTerminating {fuel : Nat}
    (hfuel : g.nonterminals.length < (g.notedSymbols known).length + fuel) :
    g.Settled (g.closeTerminating fuel known) := by
  induction fuel generalizing known with
  | zero => exact absurd (List.length_filter_le _ _) (Nat.not_le.2 hfuel)
  | succ fuel ih =>
    rw [closeTerminating]
    split
    · next heq =>
      intro s hs hterm
      exact mem_of_noteAll_eq (fun _ hs => hs) heq hs hterm
    · next hne =>
      have hround : g.nonterminals.foldl g.noteTerminating known = known ∨ _ :=
        noteAll_eq_or_lt fun _ hs => hs
      have hlt := hround.resolve_left hne
      exact ih (by omega)

theorem settled_terminating : g.Settled g.terminating :=
  settled_closeTerminating (by omega)

namespace Composed

variable (h : g.Composed pool)
include h

theorem notesSound_noteAll (hnum : g.Numbered) (hcomplete : g.Complete)
    (hsound : g.NotesSound pool known) (hss : ∀ s ∈ ss, s ∈ g.nonterminals) :
    g.NotesSound pool (ss.foldl g.noteTerminating known) := by
  induction ss generalizing known with
  | nil => exact hsound
  | cons s ss ih =>
    obtain ⟨hs, hss⟩ := List.forall_mem_cons.1 hss
    exact ih (h.notesSound_noteTerminating hnum hcomplete hsound hs) hss

theorem notesSound_closeTerminating (fuel : Nat) (hnum : g.Numbered) (hcomplete : g.Complete)
    (hsound : g.NotesSound pool known) : g.NotesSound pool (g.closeTerminating fuel known) := by
  induction fuel generalizing known with
  | zero => exact hsound
  | succ fuel ih =>
    rw [closeTerminating]
    split
    · exact hsound
    · exact ih (h.notesSound_noteAll hnum hcomplete hsound fun _ hs => hs)

/-! ## Notes and derivations -/

/-- Before a step to noted letters only there were noted letters only. -/
theorem noted_of_rewrites (hsettled : g.Settled known) (hstep : g.Rewrites pool α β)
    (hβ : ∀ x ∈ β, g.Noted known x) : ∀ x ∈ α, g.Noted known x := by
  cases hstep with
  | @expand s e ps γ δ hs he hprod hps =>
    simp only [List.forall_mem_append] at hβ
    have hterm : g.terminates known (g.outline (g.sym s).production) = true := by
      rw [hprod, h.terminates_iff he]
      exact ⟨ps, hps, hβ.1.2⟩
    have hnoted : g.Noted known (.nonterminal s) := by
      intro t ht
      rw [← Option.some.inj ht]
      exact hsettled s hs hterm
    exact List.forall_mem_append.2 ⟨hβ.1.1, List.forall_mem_cons.2 ⟨hnoted, hβ.2⟩⟩
  | choose γ δ hp hn =>
    rw [List.forall_mem_append, List.forall_mem_cons] at hβ ⊢
    exact ⟨hβ.1, by simp [Noted, Letter.reference?], hβ.2.2⟩

theorem noted_of_derives (hsettled : g.Settled known) (hderives : g.Derives pool α β)
    (hβ : ∀ x ∈ β, x.reference? = none) : ∀ x ∈ α, g.Noted known x := by
  induction hderives using Relation.ReflTransGen.head_induction_on with
  | refl =>
    intro x hx s hs
    rw [hβ x hx] at hs
    cases hs
  | head hstep _ ih => exact h.noted_of_rewrites hsettled hstep ih

/-- Where every nonterminal has a production, the noted ones are those that can be derived to forms
without nonterminals. -/
theorem mem_terminating_iff (hnum : g.Numbered) (hcomplete : g.Complete) (hs : s ∈ g.nonterminals) :
    (g.sym s).number ∈ g.terminating ↔ g.Productive pool s := by
  constructor
  · have hstart : g.NotesSound pool ∅ := fun t _ ht => absurd ht (BitSet.not_mem_empty _)
    exact h.notesSound_closeTerminating _ hnum hcomplete hstart s hs
  · rintro ⟨α, hα, hfree⟩
    exact h.noted_of_derives settled_terminating hα hfree _ List.mem_cons_self s rfl

/-- There is one error for each nonterminal that cannot be derived to a form without nonterminals. -/
theorem endlessSymbols_eq (hnum : g.Numbered) (hcomplete : g.Complete) :
    g.endlessSymbols = (g.nonterminalsWhere fun s => ¬ g.Productive pool s).map fun s =>
      .errorOn (g.sym s).line (.notTerminating (g.sym s).name) := by
  unfold endlessSymbols
  refine congrArg (List.map _) (filter_nonterminals fun s hs => ?_)
  rw [Bool.not_eq_true', ← Bool.not_eq_true, BitSet.contains_iff,
    h.mem_terminating_iff hnum hcomplete hs]

/-- The check finds nothing if all nonterminals can be derived to forms without nonterminals. -/
theorem endlessSymbols_eq_nil_iff (hnum : g.Numbered) (hcomplete : g.Complete) :
    g.endlessSymbols = [] ↔ ∀ s ∈ g.nonterminals, g.Productive pool s := by
  simp only [h.endlessSymbols_eq hnum hcomplete, List.map_eq_nil_iff, nonterminalsWhere_eq_nil_iff,
    not_not]

/-- Where every nonterminal has a production, the check reports those that cannot be derived to a form
without nonterminals, each once, and succeeds exactly if there is none. -/
theorem runCheck_endlessSymbols (hnum : g.Numbered) (hcomplete : g.Complete) :
    (g.runCheck endlessSymbols).2 =
      g.reportAll ((g.nonterminalsWhere fun s => ¬ g.Productive pool s).map fun s =>
        .errorOn (g.sym s).line (.notTerminating (g.sym s).name)) ∧
    ((g.runCheck endlessSymbols).1 = true ↔ ∀ s ∈ g.nonterminals, g.Productive pool s) := by
  rw [runCheck, List.isEmpty_iff, h.endlessSymbols_eq_nil_iff hnum hcomplete,
    h.endlessSymbols_eq hnum hcomplete]
  exact ⟨rfl, .rfl⟩

end Composed

/-! ## Productions without end -/

/-- The productions `S = s | S x`, `U = V [ S ]` and `V = U v`; the last two end in each other only,
and nothing leads to them. -/
def stranded : Grammar :=
  let g := (initial.declareProduction "S"
    (.alt (.terminal "s") [.seq (.nonterminal "S") [.terminal "x"]]) 1).2.2
  let g := (g.declareProduction "U" (.seq (.nonterminal "V") [.opt (.nonterminal "S")]) 2).2.2
  (g.declareProduction "V" (.seq (.nonterminal "U") [.terminal "v"]) 3).2.2

/-- The phrases of the productions. -/
def strandedPhrases : List Phrase :=
  [.seq (.leaf 8) (.leaf 9), .seq (.leaf 5) (.opt 7 (.leaf 6)),
    .alt 3 (.leaf 0) (.arm 4 (.seq (.leaf 1) (.leaf 2)))]

theorem stranded_composed : stranded.Composed strandedPhrases := by
  have hterminal : ∀ s, (NodeKind.terminal s).isLeaf = true := fun _ => rfl
  have hsymbol : ∀ s, (NodeKind.nonterminal s).isLeaf = true := fun _ => rfl
  have hs := (Assembled.start (initial.declareSymbol .terminal "s" 1).2).leaf (hterminal 1) 1 none
  have hS := (hs.declareSymbol .nonterminal "S" 1).leaf (hsymbol 2) 1 none
  have hx := (hS.declareSymbol .terminal "x" 1).leaf (hterminal 3) 1 none
  have hrest := ((hx.perm (.swap _ _ _)).sequence.perm (.swap _ _ _)).firstArm.addArm rfl
  have hV := (hrest.declareSymbol .nonterminal "V" 2).leaf (hsymbol 4) 2 none
  have hmore := ((hV.leaf (hsymbol 2) 2 none).option.perm (.swap _ _ _)).sequence
  have hU := (hmore.declareSymbol .nonterminal "U" 2).leaf (hsymbol 5) 3 none
  have hv := (hU.declareSymbol .terminal "v" 3).leaf (hterminal 6) 3 none
  have hall : Assembled stranded strandedPhrases :=
    (hv.perm (.swap _ _ _)).sequence.declare (by decide) (by decide)
  exact ⟨hall, by decide, by decide⟩

theorem stranded_numbered : stranded.Numbered := by
  unfold Numbered
  decide

/-- `U` and `V` are reported, and `S` is not. -/
theorem Composed.runCheck_endlessSymbols_stranded :
    stranded.Composed strandedPhrases ∧ stranded.Numbered ∧ stranded.Complete ∧
      (stranded.runCheck endlessSymbols).1 = false ∧
      ((stranded.nonterminalsWhere fun s => ¬ stranded.Productive strandedPhrases s).map fun s =>
        Diagnostic.errorOn (stranded.sym s).line (.notTerminating (stranded.sym s).name)) =
          [.errorOn 2 (.notTerminating "V"), .errorOn 2 (.notTerminating "U")] := by
  have hcomplete : stranded.Complete := by
    unfold Complete
    decide
  have hfound : (stranded.runCheck endlessSymbols).2.diags =
      [.errorOn 2 (.notTerminating "V"), .errorOn 2 (.notTerminating "U")] := by decide
  obtain ⟨hreport, -⟩ := stranded_composed.runCheck_endlessSymbols stranded_numbered hcomplete
  rw [hreport] at hfound
  exact ⟨stranded_composed, stranded_numbered, hcomplete, by decide, hfound⟩

end Grammar

end Ebnf
