import Ebnf.Expr
import Ebnf.Proofs.Machine.Contexts
import Ebnf.Proofs.Machine.Traces
import Ebnf.Proofs.Phrase.Context
import Ebnf.Proofs.Scanner.Folding
import Ebnf.Proofs.Scanner.WellFormed

/-!
# Contexts that are given back

The context of a token is read with it and given back where it is complete.  A scanner
reads a character as context if some of the machine states do for which its state
stands, so what is given back depends on all tokens at once: no context is given back
where some context can go on, and a character at the end of the token itself is given
back with its context if another token reads it as context.

Main results:

- Theorem `Draft.exists_heeds_toScanner`: the scanner of a machine reads as context what
  the machine does.
- Theorem `Draft.Tokenized.text_of_context`: what the text of a context token is.
-/

namespace Ebnf

namespace Scanner

variable {sc : Scanner} {g g' : Grammar} {d d' : Draft} {R : StateId → Set StateId → Prop}
  {s t : StateId} {c : Nat}

/-! ## What is read as context -/

/-- Where the scanner is in a state for a set of machine states, a shift reads context if some machine
state does, a context can go on if it can in some machine state, and the state is marked if a context
move leads to some machine state.  So the states that context shifts lead to are marked. -/
structure Heeds (sc : Scanner) (g : Grammar) (d : Draft) (R : StateId → Set StateId → Prop) : Prop where
  part_iff : ∀ {s set shift c}, R s set → shift ∈ (sc.state s).shifts → g.triggers shift.on c = true →
    (shift.part = .context ↔ ∃ y ∈ set, d.Trails y c)
  goesOn_iff : ∀ {s set}, R s set →
    ((∃ shift ∈ (sc.state s).shifts, shift.part = .context) ↔ ∃ y ∈ set, d.GoesOn y)
  context_iff : ∀ {s set}, R s set → ((sc.state s).context = true ↔
    ∃ y ∈ set, d.Entered y ∨ (d.machine.state y).context = true)
  marked : ∀ {s set shift c}, R s set → shift ∈ (sc.state s).shifts →
    g.triggers shift.on c = true → shift.part = .context → (sc.state shift.target).context = true

/-- With one target for each move, the shifts of a state are its moves. -/
theorem mem_shifts_ofMachine {shift : Shift} (hs : s < d.machine.states.size)
    (htargets : ∀ move ∈ (d.machine.state s).moves, move.targets.toList.length < 2) :
    shift ∈ ((ofMachine d.machine).state s).shifts ↔ ∃ move ∈ (d.machine.state s).moves,
      shift.target ∈ move.targets ∧ shift.on = move.on ∧ shift.part = move.part := by
  rw [state_ofMachine hs, mem_shifts_ofMachineState]
  refine exists_congr fun move => and_congr_right fun hmove => ?_
  simp only [mem_iff_min? (htargets move hmove)]
  constructor
  · rintro ⟨t, hmin, rfl⟩
    exact ⟨hmin, rfl, rfl⟩
  · rintro ⟨hmin, hon, hpart⟩
    obtain ⟨on, part, target⟩ := shift
    exact ⟨target, hmin, by rw [← hon, ← hpart]⟩

/-- The move of a shift is the only one on its characters, so the shift reads as context what the
state does. -/
theorem part_iff_trails {shift : Shift} (hs : s < d.machine.states.size)
    (hsep : d.grammar.Separated (d.machine.state s).moves)
    (htargets : ∀ move ∈ (d.machine.state s).moves, move.targets.toList.length < 2)
    (hmem : shift ∈ ((ofMachine d.machine).state s).shifts)
    (hc : d.grammar.triggers shift.on c = true) : shift.part = .context ↔ d.Trails s c := by
  obtain ⟨move, hmove, _, hon, hpart⟩ := (mem_shifts_ofMachine hs htargets).1 hmem
  rw [hon] at hc
  rw [hpart]
  constructor
  · exact fun hcontext => ⟨move, hmove, hc, hcontext⟩
  · rintro ⟨other, hother, hc', hcontext⟩
    have hsymm : Std.Symm fun a b : Move => ∀ c, ¬ (d.grammar.triggers a.on c = true ∧
        d.grammar.triggers b.on c = true) := ⟨fun a b hab c hand => hab c hand.symm⟩
    obtain rfl : move = other := by
      by_contra hne
      exact hsep.forall hmove hother hne c ⟨hc, hc'⟩
    exact hcontext

/-- Where every move leads somewhere, a state has a context shift if it can go on with a context. -/
theorem exists_context_iff_goesOn (hs : s < d.machine.states.size)
    (htargets : ∀ move ∈ (d.machine.state s).moves, move.targets.toList.length < 2)
    (haimed : d.Aimed) :
    (∃ shift ∈ ((ofMachine d.machine).state s).shifts, shift.part = .context) ↔ d.GoesOn s := by
  constructor
  · rintro ⟨shift, hmem, hcontext⟩
    obtain ⟨move, hmove, _, _, hpart⟩ := (mem_shifts_ofMachine hs htargets).1 hmem
    exact ⟨move, hmove, hpart.symm.trans hcontext⟩
  · rintro ⟨move, hmove, hcontext⟩
    obtain ⟨t, ht⟩ := haimed s move hmove
    have hmem : ⟨move.on, move.part, t⟩ ∈ ((ofMachine d.machine).state s).shifts :=
      (mem_shifts_ofMachine hs htargets).2 ⟨move, hmove, ht, rfl, rfl⟩
    exact ⟨_, hmem, hcontext⟩

/-- The scanner of the merged machine reads as context what the declared machine does. -/
theorem heeds_ofMachine (h : d.WellFormed) (haimed : d.Aimed) :
    (ofMachine d.mergeStates.machine).Heeds d.mergeStates.grammar d fun s set =>
      s < d.mergeStates.machine.states.size ∧ set = { x | x ∈ d.merging.behind s } := by
  have hdet := Draft.determinizes_mergeStates h
  have hmarks := Draft.marks_merging h haimed
  have hpart : ∀ {s c} {shift : Shift}, s < d.mergeStates.machine.states.size →
      shift ∈ ((ofMachine d.mergeStates.machine).state s).shifts →
      d.mergeStates.grammar.triggers shift.on c = true →
      (shift.part = .context ↔ ∃ y ∈ d.merging.behind s, d.Trails y c) := by
    intro s c shift hs hmem hc
    refine (part_iff_trails hs (hdet.separated s hs) (hdet.targets_lt s hs) hmem hc).trans
      ((hmarks.trails_iff s hs c).trans ?_)
    simp only [Draft.trails_markContextStates]
  have hcontext : ∀ {s}, s < d.mergeStates.machine.states.size →
      (((ofMachine d.mergeStates.machine).state s).context = true ↔
        ∃ y ∈ d.merging.behind s, d.Entered y ∨ (d.machine.state y).context = true) := by
    intro s hs
    rw [state_ofMachine hs]
    refine (hmarks.context_iff s hs).trans ?_
    simp only [Draft.context_markContextStates h]
  refine ⟨?_, ?_, ?_, ?_⟩
  · rintro s _ shift c ⟨hs, rfl⟩ hmem hc
    exact hpart hs hmem hc
  · rintro s _ ⟨hs, rfl⟩
    refine (exists_context_iff_goesOn hs (hdet.targets_lt s hs) hmarks.aimed).trans
      ((hmarks.goesOn_iff s hs).trans ?_)
    simp only [Draft.goesOn_markContextStates]
    rfl
  · rintro s _ ⟨hs, rfl⟩
    exact hcontext hs
  · rintro s _ shift c ⟨hs, rfl⟩ hmem hc hshift
    -- a context move leads from a declared state behind to one behind the target
    obtain ⟨y, hy, move, hmove, hyc, hmoveContext⟩ := (hpart hs hmem hc).1 hshift
    obtain ⟨x, hx⟩ := haimed y move hmove
    obtain ⟨t, hstep, hxt⟩ := (hdet.steps_iff s hs c x).2 ⟨y, hy, move, hmove, hyc, hx⟩
    obtain ⟨move', hmove', htarget, hon, _⟩ :=
      (mem_shifts_ofMachine hs (hdet.targets_lt s hs)).1 hmem
    have hstep' : d.mergeStates.Steps s c shift.target := ⟨move', hmove', hon ▸ hc, htarget⟩
    obtain rfl := steps_unique (hdet.separated s hs) (hdet.targets_lt s hs) hstep hstep'
    have hlt := hdet.wellFormed.lt_of_steps hstep'
    exact (hcontext hlt).2 ⟨x, hxt, .inl ⟨y, move, hmove, hmoveContext, hx⟩⟩

theorem context_of_isPlainEnd (h : sc.isPlainEnd s = true) : (sc.state s).context = false := by
  simp only [isPlainEnd, Bool.and_eq_true, Bool.not_eq_true'] at h
  exact h.2

theorem isPlainEnd_representative (h : sc.isPlainEnd s = true) :
    sc.isPlainEnd (sc.representative sc.ends s) = true := by
  rw [representative, if_pos h]
  cases hfind : sc.ends.find? fun t => (sc.state t).endOf == (sc.state s).endOf with
  | none => exact h
  | some t => exact (List.mem_filter.1 (List.mem_of_find?_eq_some hfind)).2

/-- Only plain ends are replaced, and by plain ends, so no mark is lost or added. -/
theorem context_dropRedundant (hs : s ∈ sc.used) :
    (sc.dropRedundant.state (sc.renumber s)).context = (sc.state s).context := by
  rw [state_dropRedundant hs]
  by_cases hplain : sc.isPlainEnd s = true
  · rw [context_of_isPlainEnd hplain]
    exact context_of_isPlainEnd (isPlainEnd_representative hplain)
  · rw [representative_of_not_plainEnd hplain]
    rfl

theorem Heeds.dropRedundant (h : sc.Heeds g d R) (hclosed : sc.Closed) :
    sc.dropRedundant.Heeds g d fun i set => ∃ s ∈ sc.used, sc.renumber s = i ∧ R s set where
  part_iff := by
    rintro _ set shift c ⟨s, hs, rfl, hR⟩ hmem hc
    rw [state_shifts_dropRedundant hs] at hmem
    obtain ⟨old, hold, rfl⟩ := List.mem_map.1 hmem
    have hpart := h.part_iff hR hold hc
    exact hpart
  goesOn_iff := by
    rintro _ set ⟨s, hs, rfl, hR⟩
    rw [state_shifts_dropRedundant hs, ← h.goesOn_iff hR]
    simp only [List.mem_map, exists_exists_and_eq_and]
  context_iff := by
    rintro _ set ⟨s, hs, rfl, hR⟩
    rw [context_dropRedundant hs]
    exact h.context_iff hR
  marked := by
    rintro _ set shift c ⟨s, hs, rfl, hR⟩ hmem hc hcontext
    rw [state_shifts_dropRedundant hs] at hmem
    obtain ⟨old, hold, rfl⟩ := List.mem_map.1 hmem
    rw [context_dropRedundant (target_mem_used hclosed hs hold)]
    exact h.marked hR hold hc hcontext

/-- Joined shifts read as context what the shifts read before. -/
theorem Heeds.condense {sc' : Scanner} (h : sc.Heeds g d R)
    (hstate : ∀ s, ∃ shifts, sc'.state s = { sc.state s with shifts } ∧
      Condenses g (sc.state s).shifts g' shifts) : sc'.Heeds g' d R := by
  have hold : ∀ {s c} {shift : Shift}, shift ∈ (sc'.state s).shifts →
      g'.triggers shift.on c = true → ∃ old ∈ (sc.state s).shifts, g.triggers old.on c = true ∧
        old.target = shift.target ∧ old.part = shift.part := by
    intro s c shift hmem hc
    obtain ⟨shifts, heq, hcond⟩ := hstate s
    rw [heq] at hmem
    exact (hcond.takes_iff c shift.target shift.part).1 ⟨shift, hmem, hc, rfl, rfl⟩
  refine ⟨fun hR hmem hc => ?_, fun {s set} hR => ?_, fun {s set} hR => ?_,
    fun hR hmem hc hcontext => ?_⟩
  · obtain ⟨old, hmem, hc, _, hpart⟩ := hold hmem hc
    rw [← hpart]
    exact h.part_iff hR hmem hc
  · obtain ⟨shifts, heq, hcond⟩ := hstate s
    have hways : ∀ ss : List Shift, (∃ shift ∈ ss, shift.part = .context) ↔ ∃ t, HasWay ss t .context :=
      fun ss => ⟨fun ⟨shift, hmem, hpart⟩ => ⟨_, shift, hmem, rfl, hpart⟩,
        fun ⟨_, shift, hmem, _, hpart⟩ => ⟨shift, hmem, hpart⟩⟩
    rw [heq, ← h.goesOn_iff hR, hways, hways]
    simp only [hcond.hasWay_iff]
  · obtain ⟨shifts, heq, _⟩ := hstate s
    rw [heq]
    exact h.context_iff hR
  · obtain ⟨old, hmem, hc, htarget, hpart⟩ := hold hmem hc
    obtain ⟨shifts, heq, _⟩ := hstate _
    rw [heq, ← htarget]
    exact h.marked hR hmem hc (hpart.trans hcontext)

end Scanner

namespace Draft

variable {d : Draft}

/-- The scanner of a machine tracks it, and reads as context what it does. -/
theorem exists_heeds_toScanner (h : d.WellFormed) (haimed : d.Aimed) :
    ∃ R, d.toScanner.1.Tracks d.toScanner.2 d R ∧ d.toScanner.1.Heeds d.toScanner.2 d R := by
  have hdet := determinizes_mergeStates h
  have hclosed := closed_ofMachine hdet.wellFormed
  have htracks := (Scanner.tracks_ofMachine hdet).dropRedundant hclosed
  have hheeds := (Scanner.heeds_ofMachine h haimed).dropRedundant hclosed
  refine ⟨_, tracks_toScanner h htracks, hheeds.condense fun s => ?_⟩
  obtain ⟨shifts, heq, hcond, _⟩ := (state_toScanner h).2 s
  exact ⟨shifts, heq, hcond⟩

/-! ## Texts and contexts -/

/-- Behind a text the machine reads a character as context. -/
def TrailsAfter (d : Draft) (w : List Char) (c : Char) : Prop :=
  ∃ s, d.Leads Machine.start (w.map Char.toNat) s ∧ d.Trails s c.toNat

/-- Behind a text the machine can go on with a context. -/
def GoesOnAfter (d : Draft) (w : List Char) : Prop :=
  ∃ s, d.Leads Machine.start (w.map Char.toNat) s ∧ d.GoesOn s

/-- A text without the characters at its end that are read as context. -/
inductive Trimmed (d : Draft) : List Char → List Char → Prop
  | stop {w : List Char} (h : ∀ u c, w = u ++ [c] → ¬ d.TrailsAfter u c) : Trimmed d w w
  | cut {w w' : List Char} {c : Char} (hc : d.TrailsAfter w c) (h : Trimmed d w w') :
      Trimmed d (w ++ [c]) w'

variable {w w' v : List Char} {c : Char}

theorem Trimmed.of_append_singleton (h : d.Trimmed (w ++ [c]) w') (hc : d.TrailsAfter w c) :
    d.Trimmed w w' := by
  generalize heq : w ++ [c] = u at h
  cases h with
  | stop h => exact absurd hc (h w c heq.symm)
  | cut hc' h =>
    obtain ⟨rfl, hcc⟩ := List.append_inj' heq rfl
    exact h

/-- What is read as context behind a text is cut off. -/
theorem Trimmed.of_append (h : d.Trimmed (w ++ v) w')
    (hv : ∀ v₁ c v₂, v = v₁ ++ c :: v₂ → d.TrailsAfter (w ++ v₁) c) : d.Trimmed w w' := by
  induction v using List.reverseRecOn with
  | nil => rwa [List.append_nil] at h
  | append_singleton v c ih =>
    rw [← List.append_assoc] at h
    refine ih (h.of_append_singleton (hv v c [] rfl)) fun v₁ c' v₂ heq => ?_
    exact hv v₁ c' (v₂ ++ [c]) (by simp [heq])

/-- Where the last character is not read as context, nothing is cut off. -/
theorem Trimmed.eq_of_not_trails (h : d.Trimmed w w')
    (hlast : ∀ u c, w = u ++ [c] → ¬ d.TrailsAfter u c) : w' = w := by
  cases h with
  | stop => rfl
  | cut hc => exact absurd hc (hlast _ _ rfl)

end Draft

namespace Scanner

variable {sc : Scanner} {g : Grammar} {d : Draft} {R : StateId → Set StateId → Prop} {s : StateId}
  {read cs input : List Char} {parts : List Part} {best : Option Recognised}

/-! ## Reading -/

/-- What was read on the way to a state, and how, both given backwards. -/
inductive ReadTo (sc : Scanner) : List Char → List Part → StateId → Prop
  | start : ReadTo sc [] [] start
  | shift {read : List Char} {parts : List Part} {s : StateId} {c : Char} {shift : Shift}
      (h : ReadTo sc read parts s) (hfind : sc.findShift s c = some shift) :
      ReadTo sc (c :: read) (shift.part :: parts) shift.target

/-- Number of characters that were read as context last. -/
def trailing (parts : List Part) : Nat :=
  (parts.takeWhile (· = .context)).length

theorem trailing_context : trailing (.context :: parts) = trailing parts + 1 := by
  simp [trailing]

theorem trailing_main : trailing (.main :: parts) = 0 := by
  simp [trailing]

/-- How many characters are given back in a state: those that were read as context last, if no context
can go on. -/
def back (sc : Scanner) (s : StateId) (parts : List Part) : Nat :=
  if ∃ shift ∈ (sc.state s).shifts, shift.part = .context then 0 else trailing parts

/-- A state that a context shift leads to is marked. -/
def Flagged (sc : Scanner) : Prop :=
  ∀ read parts s, sc.ReadTo read (.context :: parts) s → (sc.state s).context = true

/-- The token was recognised in a state behind a beginning of the input, and what follows from the
context on was given back. -/
structure Finds (sc : Scanner) (input : List Char) (found : Recognised) (read : List Char)
    (parts : List Part) (s : StateId) : Prop where
  readTo : sc.ReadTo read parts s
  endOf_eq : (sc.state s).endOf = some found.sym
  read_eq : found.read = read.drop (sc.back s parts)
  rest_eq : ∃ rest, input = read.reverse ++ rest ∧
    found.rest = (read.take (sc.back s parts)).reverse ++ rest

/-- In an unmarked state nothing was read as context last. -/
theorem ReadTo.trailing_eq_zero (h : sc.ReadTo read parts s) (hflag : sc.Flagged)
    (hcontext : ¬ (sc.state s).context = true) : trailing parts = 0 := by
  cases parts with
  | nil => rfl
  | cons part parts =>
    cases part with
    | main => exact trailing_main
    | context => exact absurd (hflag _ _ _ h) hcontext

/-- The counter of a reading is the number of characters read as context last. -/
theorem ReadTo.nextAppendix_eq {shift : Shift} (h : sc.ReadTo read parts s) (hflag : sc.Flagged) :
    nextAppendix (sc.state s) shift (trailing parts) = trailing (shift.part :: parts) := by
  unfold nextAppendix
  cases hpart : shift.part with
  | context => rw [if_pos rfl, trailing_context]
  | main =>
    rw [if_neg nofun, trailing_main]
    split
    · rfl
    next hcontext => exact h.trailing_eq_zero hflag hcontext

/-- So what is given back does not depend on the mark. -/
theorem ReadTo.back_eq (h : sc.ReadTo read parts s) (hflag : sc.Flagged) :
    (if (sc.state s).endsContext then trailing parts else 0) = sc.back s parts := by
  unfold back ScannerState.endsContext
  by_cases hgoesOn : ∃ shift ∈ (sc.state s).shifts, shift.part = .context
  · have hall : (sc.state s).shifts.all (·.part != .context) = false := by
      obtain ⟨shift, hmem, hpart⟩ := hgoesOn
      exact List.all_eq_false.2 ⟨shift, hmem, by simp [hpart]⟩
    rw [if_pos hgoesOn, hall, Bool.and_false, if_neg Bool.false_ne_true]
  · have hall : (sc.state s).shifts.all (·.part != .context) = true := by
      refine List.all_eq_true.2 fun shift hmem => bne_iff_ne.2 fun hpart => ?_
      exact hgoesOn ⟨shift, hmem, hpart⟩
    rw [if_neg hgoesOn, hall, Bool.and_true]
    split
    · rfl
    next hcontext => exact (h.trailing_eq_zero hflag hcontext).symm

/-- What is recognised in a state after a reading. -/
theorem ReadTo.finds_or (h : sc.ReadTo read parts s) (hflag : sc.Flagged)
    (hbest : ∀ found ∈ best, ∃ read parts s, sc.Finds input found read parts s)
    (hinput : read.reverse ++ cs = input) :
    ∀ found ∈ (recognise? (sc.state s) read (trailing parts) cs).or best,
      ∃ read parts s, sc.Finds input found read parts s := by
  intro found hfound
  rcases Option.or_eq_some_iff.1 hfound with hfound | ⟨_, hfound⟩
  · obtain ⟨sym, hsym, rfl⟩ := Option.map_eq_some_iff.1 hfound
    refine ⟨read, parts, s, h, hsym, ?_, cs, hinput.symm, ?_⟩
    · rw [← h.back_eq hflag]
    · rw [← h.back_eq hflag]
  · exact hbest found hfound

/-- What is found in an input was recognised behind a beginning of it. -/
theorem ReadTo.longest_finds (h : sc.ReadTo read parts s) (hflag : sc.Flagged)
    (hbest : ∀ found ∈ best, ∃ read parts s, sc.Finds input found read parts s)
    (hinput : read.reverse ++ cs = input) :
    ∀ found ∈ sc.longest s read (trailing parts) best cs,
      ∃ read parts s, sc.Finds input found read parts s := by
  induction cs generalizing s read parts best with
  | nil => exact h.finds_or hflag hbest hinput
  | cons c cs ih =>
    have hhere := h.finds_or hflag hbest hinput
    rw [longest]
    cases hfind : sc.findShift s c with
    | none => exact hhere
    | some shift =>
      dsimp only
      rw [h.nextAppendix_eq hflag]
      exact ih (h.shift hfind) hhere (by simpa using hinput)

/-- The text of what is found and the input behind it make up the input. -/
theorem Finds.input_eq {found : Recognised} (h : sc.Finds input found read parts s) :
    found.read.reverse ++ found.rest = input := by
  obtain ⟨rest, rfl, hrest⟩ := h.rest_eq
  rw [h.read_eq, hrest, ← List.append_assoc, ← List.reverse_append, List.take_append_drop]

/-! ## Readings of the machine -/

/-- A reading leads to a state for all machine states that the text can lead to. -/
theorem Tracks.readTo (h : sc.Tracks g d R) (htriggers : ∀ on c, sc.triggers on c = g.triggers on c)
    (hread : sc.ReadTo read parts s) :
    R s { x | d.Leads Machine.start (read.reverse.map Char.toNat) x } := by
  induction hread with
  | start =>
    have hset : { x | d.Leads Machine.start [] x } = {Machine.start} := Set.ext fun x => eq_comm
    rw [List.reverse_nil, List.map_nil, hset]
    exact h.start
  | @shift read parts s c shift _ hfind ih =>
    have hset : { x | d.Leads Machine.start ((c :: read).reverse.map Char.toNat) x } =
        after d c.toNat { x | d.Leads Machine.start (read.reverse.map Char.toNat) x } := by
      ext x
      rw [List.reverse_cons, List.map_append]
      exact Draft.leads_append_singleton
    rw [hset]
    exact h.step ih (offers_of_findShift htriggers hfind)

section Heeds

variable (h : sc.Tracks g d R) (hheeds : sc.Heeds g d R)
  (htriggers : ∀ on c, sc.triggers on c = g.triggers on c)
include h hheeds htriggers

theorem flagged_of_heeds : sc.Flagged := by
  intro read parts s hread
  generalize hparts : Part.context :: parts = all at hread
  cases hread with
  | start => cases hparts
  | shift hread hfind =>
    obtain ⟨hmem, hc⟩ := mem_of_findShift htriggers hfind
    exact hheeds.marked (h.readTo htriggers hread) hmem hc (List.cons.inj hparts).1.symm

/-- A character is read as context if the machine does so behind what was read before. -/
theorem part_iff_of_readTo {c : Char} {shift : Shift} (hread : sc.ReadTo read parts s)
    (hfind : sc.findShift s c = some shift) :
    shift.part = .context ↔ d.TrailsAfter read.reverse c := by
  obtain ⟨hmem, hc⟩ := mem_of_findShift htriggers hfind
  exact hheeds.part_iff (h.readTo htriggers hread) hmem hc

/-- What is left of a text without the characters read as context last. -/
theorem trimmed_of_readTo (hread : sc.ReadTo read parts s) :
    d.Trimmed read.reverse (read.drop (trailing parts)).reverse := by
  induction hread with
  | start => exact .stop fun u c heq => by simp at heq
  | @shift read parts s c shift hread hfind ih =>
    have hiff := part_iff_of_readTo h hheeds htriggers hread hfind
    rw [List.reverse_cons]
    cases hpart : shift.part with
    | context =>
      rw [trailing_context, List.drop_succ_cons]
      exact .cut (hiff.1 hpart) ih
    | main =>
      rw [trailing_main, List.drop_zero, List.reverse_cons]
      refine .stop fun u c' heq => ?_
      obtain ⟨rfl, hcc⟩ := List.append_inj' heq rfl
      obtain rfl := List.singleton_inj.1 hcc
      rw [← hiff, hpart]
      nofun

/-- What the machine reads as context last is given back, unless a context can go on. -/
theorem back_spec (hread : sc.ReadTo read parts s) :
    (d.GoesOnAfter read.reverse → sc.back s parts = 0) ∧
      (¬ d.GoesOnAfter read.reverse → d.Trimmed read.reverse (read.drop (sc.back s parts)).reverse) := by
  have hiff := hheeds.goesOn_iff (h.readTo htriggers hread)
  constructor
  · exact fun hgoesOn => if_pos (hiff.2 hgoesOn)
  · intro hgoesOn
    rw [back, if_neg fun hshift => hgoesOn (hiff.1 hshift)]
    exact trimmed_of_readTo h hheeds htriggers hread

end Heeds

/-! ## Items -/

/-- The item was found in a text, which stands at the byte `start`. -/
inductive FoundIn (sc : Scanner) (start : Nat) (cs : List Char) : Item → Prop
  | token {found : Recognised} {read : List Char} {parts : List Part} {s : StateId}
      (h : sc.Finds cs found read parts s) (stop : Nat) :
      FoundIn sc start cs (.token (sc.classify found.sym (String.ofList found.read.reverse))
        (String.ofList found.read.reverse) start stop)
  | stray (c : Char) (stop : Nat) : FoundIn sc start cs (.stray c start stop)

variable {offset offset' limit : Nat} {rest rest' : List Char} {item : Item}

/-- The next item is found behind a gap, and the text it consists of is passed. -/
theorem foundIn_of_next? (hflag : sc.Flagged) (hdelimited : ∀ k ∈ sc.comments, k.Delimited)
    (hnext : sc.next? offset rest = some (item, offset', rest')) :
    ∃ gap text, rest = gap ++ (text ++ rest') ∧
      offset' = offset + byteLength gap + byteLength text ∧
      item.Spans (offset + byteLength gap) text ∧
      sc.FoundIn (offset + byteLength gap) (text ++ rest') item := by
  obtain ⟨gap, _, hrest⟩ := exists_gap hdelimited rest
  unfold next? at hnext
  split at hnext
  · cases hnext
  next c cs hskip =>
    rw [hskip] at hrest
    have hstart : byteLength rest - byteLength (c :: cs) = byteLength gap := by
      rw [hrest, byteLength_append, Nat.add_sub_cancel]
    dsimp only at hnext
    rw [hstart] at hnext
    split at hnext
    next found hlongest =>
      obtain ⟨rfl, hplace⟩ := Prod.mk.inj (Option.some.inj hnext)
      obtain ⟨rfl, rfl⟩ := Prod.mk.inj hplace
      obtain ⟨read, parts, s, hfinds⟩ :=
        ReadTo.start.longest_finds hflag (by simp) rfl found hlongest
      have hinput := hfinds.input_eq
      rw [← byteLength_reverse found.read]
      refine ⟨gap, found.read.reverse, hinput ▸ hrest, rfl, .token .., ?_⟩
      rw [hinput]
      exact .token hfinds _
    next =>
      obtain ⟨rfl, hplace⟩ := Prod.mk.inj (Option.some.inj hnext)
      obtain ⟨rfl, rfl⟩ := Prod.mk.inj hplace
      refine ⟨gap, [c], hrest, ?_, .stray _ c, .stray c _⟩
      simp [byteLength]

/-- Every item of an input is found where it stands. -/
theorem exists_foundIn (hflag : sc.Flagged) (hdelimited : ∀ k ∈ sc.comments, k.Delimited)
    (hitem : item ∈ (sc.itemsFrom limit offset rest).1) :
    ∃ before cs, rest = before ++ cs ∧ sc.FoundIn (offset + byteLength before) cs item := by
  induction limit generalizing offset rest with
  | zero => cases hitem
  | succ limit ih =>
    rw [itemsFrom] at hitem
    split at hitem
    · cases hitem
    next first offset' rest' hnext =>
      obtain ⟨gap, text, rfl, rfl, _, hfound⟩ := foundIn_of_next? hflag hdelimited hnext
      rcases List.mem_cons.1 hitem with rfl | hitem
      · exact ⟨gap, _, rfl, hfound⟩
      · obtain ⟨before, cs, rfl, hlater⟩ := ih hitem
        refine ⟨gap ++ (text ++ before), cs, by simp only [List.append_assoc], ?_⟩
        simpa only [byteLength_append, Nat.add_assoc] using hlater

theorem sym_of_classify {a T : SymbolId} {text : String} (h : sc.classify a text = T)
    (hliteral : ∀ l ∈ sc.literals, l.sym ≠ T) : a = T := by
  unfold classify at h
  split at h
  · cases hfind : sc.literals.find? fun l => l.text == text with
    | none => simpa [hfind] using h
    | some l =>
      rw [hfind] at h
      exact absurd h (hliteral l (List.mem_of_find?_eq_some hfind))
  · exact h

end Scanner

/-! ## Context tokens -/

/-- The structure is a main part, and behind it a context. -/
structure Declaration.Contextual (e : Declaration) (m c : Phrase) : Prop where
  phrase_eq : e.phrase = .seq m c
  main : m.ReadsAll e.grammar
  context : c.ReadsAs e.grammar .context

namespace Draft

variable {d : Draft} {g : Grammar} {s t x : StateId} {w v : List Nat} {ps : List NodeId}
  {es : List Declaration}

theorem Leads.append (h : d.Leads s w x) (h' : d.Leads x v t) : d.Leads s (w ++ v) t := by
  induction w generalizing s with
  | nil =>
    obtain rfl : s = x := h
    exact h'
  | cons c w ih =>
    obtain ⟨u, hstep, hrest⟩ := h
    exact ⟨u, hstep, ih hrest⟩

/-- A run along leaves that are read as context reads its characters as context. -/
theorem Traces.exists_trails {v₁ v₂ : List Nat} {c : Nat} (h : d.Traces g s ps w t)
    (hps : ∀ q ∈ ps, ∃ on, (g.node q).kind.reads? = some (on, .context)) (hw : w = v₁ ++ c :: v₂) :
    ∃ y, d.Leads s v₁ y ∧ d.Trails y c := by
  induction h generalizing v₁ with
  | nil => simp at hw
  | @cons s _ u q _ _ _ m hm hreads _ hc hu _ ih =>
    obtain ⟨hq, hps⟩ := List.forall_mem_cons.1 hps
    cases v₁ with
    | nil =>
      obtain ⟨rfl, _⟩ := List.cons.inj hw
      obtain ⟨on, hq⟩ := hq
      rw [hreads] at hq
      exact ⟨s, rfl, m, hm, hc, (Prod.mk.inj (Option.some.inj hq)).2⟩
    | cons c' v₁ =>
      obtain ⟨rfl, htail⟩ := List.cons.inj hw
      obtain ⟨y, hleads, htrails⟩ := ih hps htail
      exact ⟨y, ⟨u, ⟨m, hm, hc, hu⟩, hleads⟩, htrails⟩

/-- Making a machine deterministic does not change the comments. -/
theorem comments_toScanner (d : Draft) : d.toScanner.1.comments = d.machine.comments := by
  have hkept : Merging.Kept fun d' : Draft => d'.machine.comments = d.machine.comments :=
    ⟨fun d' h => d'.markContextStates_eq.2.1.trans h, fun _ _ h => h, fun _ _ h => h,
      fun _ _ _ h => h, fun _ _ _ _ h => h⟩
  exact hkept.mergeStates rfl

theorem Single.aimed (h : d.Single) : d.Aimed := by
  intro s m hm
  obtain ⟨t, ht⟩ := h s m hm
  exact ⟨t, ht ▸ BitSet.mem_singleton.2 rfl⟩

/-- What is read along a context is cut off. -/
theorem Trimmed.of_traces {u v w' : List Char} (h : d.Trimmed (u ++ v) w')
    (hmain : d.Leads Machine.start (u.map Char.toNat) x)
    (hback : d.Traces g x ps (v.map Char.toNat) t)
    (hps : ∀ q ∈ ps, ∃ on, (g.node q).kind.reads? = some (on, .context)) : d.Trimmed u w' := by
  refine h.of_append fun v₁ c v₂ hv => ?_
  have hsplit : v.map Char.toNat = v₁.map Char.toNat ++ c.toNat :: v₂.map Char.toNat := by
    rw [hv, List.map_append, List.map_cons]
  obtain ⟨y, hleads, htrails⟩ := hback.exists_trails hps hsplit
  refine ⟨y, ?_, htrails⟩
  rw [List.map_append]
  exact hmain.append hleads

/-- A text that leads to the end of a context token is a text of the main part and one of the context,
which is cut off. -/
theorem Tokenized.exists_split {T : SymbolId} {w : List Char} (h : Tokenized es d)
    (hcontext : ∀ e ∈ es, e.tok = T → ∃ m c, e.Contextual m c)
    (hleads : d.Leads Machine.start (w.map Char.toNat) t)
    (hend : (d.machine.state t).endOf = some T) :
    ∃ e ∈ es, ∃ m c, e.tok = T ∧ e.phrase = .seq m c ∧ ∃ u v, w = u ++ v ∧
      u.map Char.toNat ∈ m.language e.grammar ∧ v.map Char.toNat ∈ c.language e.grammar ∧
      ∀ w', d.Trimmed (u ++ v) w' → d.Trimmed u w' := by
  obtain ⟨e, he, htok, htrace⟩ := h.exists_trace hleads hend
  obtain ⟨m, c, hform⟩ := hcontext e he htok
  rw [hform.phrase_eq] at htrace
  obtain ⟨_, ⟨ps, hps, qs, hqs, rfl⟩, htrace⟩ := htrace ⟨hform.main, hform.context.readsAll⟩
  obtain ⟨_, _, x, hw, hmain, hback⟩ := htrace.exists_append
  obtain ⟨u, v, rfl, rfl, rfl⟩ := List.map_eq_append_iff.1 hw
  refine ⟨e, he, m, c, htok, hform.phrase_eq, u, v, rfl, ?_, ?_, fun w' htrimmed => ?_⟩
  · exact Phrase.mem_language.2 ⟨ps, hps, hmain.spells⟩
  · exact Phrase.mem_language.2 ⟨qs, hqs, hback.spells⟩
  · exact htrimmed.of_traces hmain.leads hback fun q hq => hform.context.of_mem_walks hqs hq

/-- A context token is found where a text of its main part stands, and behind it a text of its
context.  If no context can go on behind both, the token consists of the main part, without the
characters at its end that some token reads as context; else it consists of both. -/
theorem Tokenized.text_of_context {T : SymbolId} {limit : Nat} {input text : String}
    {start stop : Nat} (h : Tokenized es d)
    (hcontext : ∀ e ∈ es, e.tok = T → ∃ m c, e.Contextual m c)
    (hliteral : ∀ l ∈ d.grammar.literals, l.sym ≠ T)
    (hclean : d.toScanner.2.diags.errors = d.grammar.diags.errors)
    (hitem : .token T text start stop ∈ (d.toScanner.1.items limit input).1) :
    ∃ e ∈ es, ∃ m c, e.tok = T ∧ e.phrase = .seq m c ∧ ∃ before u v after,
      input.toList = before ++ (u ++ (v ++ after)) ∧ start = byteLength before ∧
      u.map Char.toNat ∈ m.language e.grammar ∧ v.map Char.toNat ∈ c.language e.grammar ∧
      (d.GoesOnAfter (u ++ v) → text.toList = u ++ v) ∧
      (¬ d.GoesOnAfter (u ++ v) → d.Trimmed u text.toList ∧
        ((∀ x c, u = x ++ [c] → ¬ d.TrailsAfter x c) → text.toList = u)) := by
  have hwf := h.declared.sound.wellFormed
  obtain ⟨R, htracks, hheeds⟩ := exists_heeds_toScanner hwf h.declared.single.aimed
  have htriggers : ∀ on c, d.toScanner.1.triggers on c = d.toScanner.2.triggers on c := fun _ _ =>
    triggers_toScanner
  have hdelimited : ∀ k ∈ d.toScanner.1.comments, k.Delimited := by
    rw [comments_toScanner]
    exact h.declared.delimited
  obtain ⟨before, cs, hinput, hfound⟩ := Scanner.exists_foundIn
    (Scanner.flagged_of_heeds htracks hheeds htriggers) hdelimited hitem
  generalize hitem' : Item.token T text start stop = item at hfound
  cases hfound with
  | stray => cases hitem'
  | @token found read parts s hfinds =>
    obtain ⟨hT, rfl, rfl, _⟩ := Item.token.inj hitem'
    have hsym := Scanner.sym_of_classify hT.symm fun l hl => hliteral l (mem_literals_toScanner.1 hl).1
    -- the machine recognises the token behind what was read
    have hend := hfinds.endOf_eq
    rw [htracks.endOf_iff (hwf.diags_eq_of_errors_eq hclean) (htracks.readTo htriggers hfinds.readTo),
      hsym] at hend
    obtain ⟨y, hleads, hy⟩ := hend
    obtain ⟨e, he, m, c, htok, hphrase, u, v, hread, hu, hv, hcut⟩ :=
      h.exists_split hcontext hleads hy
    obtain ⟨rest, rfl, _⟩ := hfinds.rest_eq
    obtain ⟨hgoes, hstops⟩ := Scanner.back_spec htracks hheeds htriggers hfinds.readTo
    rw [hread] at hinput hgoes hstops
    rw [String.toList_ofList, hfinds.read_eq]
    refine ⟨e, he, m, c, htok, hphrase, before, u, v, rest, ?_, Nat.zero_add _, hu, hv,
      fun hgoesOn => ?_, fun hgoesOn => ?_⟩
    · rw [hinput, List.append_assoc]
    · rw [hgoes hgoesOn, List.drop_zero, hread]
    · have htrimmed := hcut _ (hstops hgoesOn)
      exact ⟨htrimmed, htrimmed.eq_of_not_trails⟩

/-! ## Contexts that overlap -/

/-- The token `X` is `ab` before `c`, and the token `Y` is `a` before `b` or `bd`. -/
def overlappingGrammar : Grammar :=
  let (x, g) := Grammar.initial.addExpr 1
    (.seq (.seq (.char 97) [.char 98]) [.context (.char 99)])
  let g := g.close x
  let (y, g) := g.addExpr 2
    (.seq (.char 97) [.context (.seq (.char 98) [.opt (.char 100)])])
  let g := g.close y
  let g := (g.declareSymbol .terminal "X" 1).2
  (g.declareSymbol .terminal "Y" 2).2

/-- The machine of the first token. -/
def overlappingFirst : Draft :=
  addToken ⟨.initial, overlappingGrammar⟩ 0 1

/-- The machine of both tokens. -/
def overlapping : Draft :=
  overlappingFirst.addToken 3 2

/-- The declared structures, the last one in front. -/
def overlappingDeclarations : List Declaration :=
  [⟨2, overlappingFirst.grammar, .seq (.leaf 3) (.seq (.leaf 4) (.opt 6 (.leaf 5)))⟩,
    ⟨1, overlappingGrammar, .seq (.seq (.leaf 0) (.leaf 1)) (.leaf 2)⟩]

theorem tokenized_overlapping : Tokenized overlappingDeclarations overlapping := by
  have hfit : overlappingGrammar.Fit 1 :=
    Grammar.fit_of_isFresh (fun _ => CharSet.canonical_empty) (by decide +kernel)
  have hx : overlappingGrammar.Shows (.seq (.seq (.leaf 0) (.leaf 1)) (.leaf 2)) none false := by
    refine ⟨⟨⟨?_, ?_, ?_⟩, ?_, ?_, ?_⟩, ?_, ?_, ?_⟩ <;> decide +kernel
  have hfirst : Tokenized _ overlappingFirst :=
    (Tokenized.initial hfit).token hx (by decide) (by decide +kernel) 1
  have hy : overlappingFirst.grammar.Shows (.seq (.leaf 3) (.seq (.leaf 4) (.opt 6 (.leaf 5))))
      none false := by
    refine ⟨⟨?_, ?_, ?_⟩, ⟨?_, ?_, ?_⟩, ⟨?_, ?_⟩, ?_, ?_, ?_⟩ <;> decide +kernel
  exact hfirst.token hy (by decide) (by decide +kernel) 2

/-- What the leaves of both structures read. -/
theorem reads_overlapping :
    ([0, 1, 2].map fun q => (overlappingGrammar.node q).kind.reads?) =
        [some (.char 97, .main), some (.char 98, .main), some (.char 99, .context)] ∧
      ([3, 4, 5].map fun q => (overlappingFirst.grammar.node q).kind.reads?) =
        [some (.char 97, .main), some (.char 98, .context), some (.char 100, .context)] := by
  decide +kernel

theorem contextual_overlapping : ∀ e ∈ overlappingDeclarations, ∃ m c, e.Contextual m c ∧
    [] ∉ m.language e.grammar ∧ [] ∉ c.language e.grammar := by
  have hreads := reads_overlapping
  simp only [List.map_cons, List.map_nil, List.cons.injEq, and_true] at hreads
  obtain ⟨⟨h0, h1, h2⟩, h3, h4, h5⟩ := hreads
  simp only [overlappingDeclarations, List.forall_mem_cons, List.not_mem_nil, false_imp_iff,
    implies_true, and_true, Phrase.nil_mem_language]
  constructor
  · refine ⟨.leaf 3, .seq (.leaf 4) (.opt 6 (.leaf 5)), ⟨rfl, ?_, ⟨_, h4⟩, ⟨_, h5⟩⟩, by decide, by decide⟩
    exact Option.isSome_of_eq_some h3
  · refine ⟨.seq (.leaf 0) (.leaf 1), .leaf 2, ⟨rfl, ⟨?_, ?_⟩, ⟨_, h2⟩⟩, by decide, by decide⟩
    · exact Option.isSome_of_eq_some h0
    · exact Option.isSome_of_eq_some h1

theorem items_overlapping :
    overlapping.toScanner.2.diags.errors = overlapping.grammar.diags.errors ∧
      (overlapping.toScanner.1.items 3 "ab").1 = [.token 2 "ab" 0 2] ∧
      (overlapping.toScanner.1.items 3 "abc").1 = [.token 1 "a" 0 1, .stray 'b' 1 2, .stray 'c' 2 3] ∧
      (overlapping.toScanner.1.items 3 "abd").1 =
        [.token 2 "a" 0 1, .stray 'b' 1 2, .stray 'd' 2 3] := by
  decide +kernel

/-- On `abd` the context of `Y` is complete, and it is given back. -/
theorem Tokenized.text_of_context_overlapping :
    ∃ e ∈ overlappingDeclarations, ∃ m c, e.tok = 2 ∧ e.phrase = .seq m c ∧ ∃ before u v after,
      "abd".toList = before ++ (u ++ (v ++ after)) ∧ 0 = byteLength before ∧
      u.map Char.toNat ∈ m.language e.grammar ∧ v.map Char.toNat ∈ c.language e.grammar ∧
      (overlapping.GoesOnAfter (u ++ v) → "a".toList = u ++ v) ∧
      (¬ overlapping.GoesOnAfter (u ++ v) → overlapping.Trimmed u "a".toList ∧
        ((∀ x c, u = x ++ [c] → ¬ overlapping.TrailsAfter x c) → "a".toList = u)) := by
  obtain ⟨herrors, _, _, hitems⟩ := items_overlapping
  have hitem : .token 2 "a" 0 1 ∈ (overlapping.toScanner.1.items 3 "abd").1 := by
    rw [hitems]
    exact List.mem_cons_self
  refine text_of_context tokenized_overlapping (fun e he _ => ?_) ?_ herrors hitem
  · obtain ⟨m, c, h, _⟩ := contextual_overlapping e he
    exact ⟨m, c, h⟩
  · have hnone : overlapping.grammar.literals = [] := by decide +kernel
    simp [hnone]

/-- A context that can go on is not given back, and `Y` reads the end of `X` as context. -/
theorem Tokenized.not_text_of_context_overlapping :
    Tokenized overlappingDeclarations overlapping ∧
      (∀ e ∈ overlappingDeclarations, ∃ m c, e.Contextual m c ∧
        [] ∉ m.language e.grammar ∧ [] ∉ c.language e.grammar) ∧
      overlapping.toScanner.2.diags.errors = overlapping.grammar.diags.errors ∧
      (.token 2 "ab" 0 2 ∈ (overlapping.toScanner.1.items 3 "ab").1 ∧
        [97, 98] ∉ (Phrase.leaf 3).language overlappingFirst.grammar) ∧
      .token 1 "a" 0 1 ∈ (overlapping.toScanner.1.items 3 "abc").1 ∧
        [97] ∉ (Phrase.seq (.leaf 0) (.leaf 1)).language overlappingGrammar := by
  obtain ⟨herrors, hopen, hend, _⟩ := items_overlapping
  refine ⟨tokenized_overlapping, contextual_overlapping, herrors, ⟨?_, ?_⟩, ?_, ?_⟩
  · rw [hopen]
    exact List.mem_cons_self
  · rintro ⟨c, _, heq⟩
    cases heq
  · rw [hend]
    exact List.mem_cons_self
  · rintro ⟨_, ⟨c, _, rfl⟩, _, ⟨c', _, rfl⟩, heq⟩
    cases heq

end Draft

end Ebnf
