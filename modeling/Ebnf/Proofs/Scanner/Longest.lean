import Ebnf.Proofs.Scanner.WellFormed

/-!
# The longest token

A scanner whose shifts read no contexts takes from every place the longest text that leads to
the end of a token.  It reads on as long as there are shifts, maybe far beyond the last end that
it has passed, and then goes back to this end.  If no token begins at the place, it passes one
character.

Main results:

- Theorem `Scanner.findShift_eq_some_iff`: where shifts are disjoint, the shift that is found is
  the only one on the character.
- Theorem `Scanner.longest_outcome`: what reading from a state finds, whatever was recognised before.
- Theorem `Scanner.next?_longest`: the next item is the longest token, or else one character.
-/

namespace Ebnf

namespace Scanner

variable {sc : Scanner} {s t : StateId} {c : Char} {w cs gap read : List Char} {sym : SymbolId}
  {best : Option Recognised} {text : String}

/-! ## Where texts lead -/

/-- A text leads from one state to another, by any shifts on its characters. -/
def Leads (sc : Scanner) : StateId → List Char → StateId → Prop
  | s, [], t => s = t
  | s, c :: w, t => ∃ shift ∈ (sc.state s).shifts,
      sc.triggers shift.on c.toNat = true ∧ sc.Leads shift.target w t

/-- The shifts of every state have disjoint characters. -/
def Deterministic (sc : Scanner) : Prop :=
  ∀ s, (sc.state s).shifts.Pairwise fun a b =>
    ∀ c, ¬ (c ∈ sc.triggerSet a.on ∧ c ∈ sc.triggerSet b.on)

/-- Where shifts are disjoint, the shift that is found is the only one on the character. -/
theorem findShift_eq_some_iff (h : sc.Deterministic) {shift : Shift} :
    sc.findShift s c = some shift ↔
      shift ∈ (sc.state s).shifts ∧ sc.triggers shift.on c.toNat = true := by
  have hfound : ∀ {a : Shift}, sc.findShift s c = some a →
      a ∈ (sc.state s).shifts ∧ sc.triggers a.on c.toNat = true := fun ha =>
    ⟨List.mem_of_find?_eq_some ha,
      List.find?_some (p := fun a : Shift => sc.triggers a.on c.toNat) ha⟩
  refine ⟨hfound, fun ⟨hmem, hc⟩ => ?_⟩
  have hsome : (sc.findShift s c).isSome = true := List.find?_isSome.2 ⟨shift, hmem, hc⟩
  obtain ⟨a, ha⟩ := Option.isSome_iff_exists.1 hsome
  obtain ⟨hmem', hc'⟩ := hfound ha
  have hsymm : Std.Symm fun a b : Shift => ∀ c, ¬ (c ∈ sc.triggerSet a.on ∧ c ∈ sc.triggerSet b.on) :=
    ⟨fun _ _ hab c hand => hab c hand.symm⟩
  obtain rfl : a = shift := by
    by_contra hne
    exact (h s).forall hmem' hmem hne c.toNat ⟨triggers_iff.1 hc', triggers_iff.1 hc⟩
  exact ha

theorem leads_cons_iff (h : sc.Deterministic) :
    sc.Leads s (c :: w) t ↔ ∃ shift, sc.findShift s c = some shift ∧ sc.Leads shift.target w t := by
  simp only [findShift_eq_some_iff h, and_assoc]
  exact Iff.rfl

/-! ## Tokens at a place -/

/-- A text leads from a state to the end of a token. -/
def Accepts (sc : Scanner) (s : StateId) (w : List Char) (sym : SymbolId) : Prop :=
  ∃ t, sc.Leads s w t ∧ (sc.state t).endOf = some sym

/-- The token `sym` begins at a place with the characters `cs`, and has the text `w`. -/
structure Matches (sc : Scanner) (cs w : List Char) (sym : SymbolId) : Prop where
  nonempty : w ≠ []
  beginning : w <+: cs
  accepts : sc.Accepts start w sym

/-- What a text of the token `sym` is: the literal with this text, if texts of `sym` are looked up and
there is one, and else the token itself. -/
inductive Names (sc : Scanner) (sym : SymbolId) (text : String) : SymbolId → Prop
  | literal {l : Literal} (hsym : sym ∈ sc.classLiterals) (hl : l ∈ sc.literals)
      (htext : l.text = text) : Names sc sym text l.sym
  | token (h : sym ∈ sc.classLiterals → ∀ l ∈ sc.literals, l.text ≠ text) : Names sc sym text sym

theorem names_classify (sc : Scanner) (sym : SymbolId) (text : String) :
    sc.Names sym text (sc.classify sym text) := by
  unfold classify
  split
  next hsym =>
    have hmem : sym ∈ sc.classLiterals := List.contains_iff_mem.1 hsym
    cases hfind : sc.literals.find? fun l => l.text == text with
    | none => exact .token fun _ l hl => by simpa using List.find?_eq_none.1 hfind l hl
    | some l =>
      exact .literal hmem (List.mem_of_find?_eq_some hfind) (by simpa using List.find?_some hfind)
  next hsym => exact .token fun hmem => absurd (List.contains_iff_mem.2 hmem) hsym

@[simp]
theorem accepts_nil : sc.Accepts s [] sym ↔ (sc.state s).endOf = some sym := by
  simp [Accepts, Leads]

theorem accepts_cons_iff (h : sc.Deterministic) :
    sc.Accepts s (c :: w) sym ↔
      ∃ shift, sc.findShift s c = some shift ∧ sc.Accepts shift.target w sym := by
  simp only [Accepts, leads_cons_iff h]
  constructor
  · rintro ⟨t, ⟨shift, hfind, hleads⟩, hend⟩
    exact ⟨shift, hfind, t, hleads, hend⟩
  · rintro ⟨shift, hfind, t, hleads, hend⟩
    exact ⟨t, ⟨shift, hfind, hleads⟩, hend⟩

/-- Without a context, what is recognised in a state is what was read. -/
theorem recognise?_zero (st : ScannerState) (read rest : List Char) :
    recognise? st read 0 rest = st.endOf.map fun sym => ⟨sym, read, rest⟩ := by
  simp [recognise?]

/-- What reading from a state finds: the longest text that leads to the end of a token, or what was
recognised before if no text does. -/
inductive Outcome (sc : Scanner) (s : StateId) (cs read : List Char) (best : Option Recognised) :
    Option Recognised → Prop
  | token {w rest : List Char} {sym : SymbolId} (hcs : cs = w ++ rest) (haccepts : sc.Accepts s w sym)
      (hlongest : ∀ v a, v <+: cs → sc.Accepts s v a → v.length ≤ w.length) :
      Outcome sc s cs read best (some ⟨sym, w.reverse ++ read, rest⟩)
  | before (h : ∀ v a, v <+: cs → ¬ sc.Accepts s v a) : Outcome sc s cs read best best

/-- Where no token goes on, the state itself decides. -/
theorem outcome_recognise? (h : ∀ v a, v <+: cs → sc.Accepts s v a → v = []) :
    sc.Outcome s cs read best ((recognise? (sc.state s) read 0 cs).or best) := by
  rw [recognise?_zero]
  cases hend : (sc.state s).endOf with
  | some sym =>
    refine .token (w := []) rfl (accepts_nil.2 hend) fun v a hv ha => ?_
    rw [h v a hv ha]
  | none =>
    refine .before fun v a hv ha => ?_
    obtain rfl := h v a hv ha
    rw [accepts_nil, hend] at ha
    cases ha

/-- The outcome of the next state is the outcome, with one character more. -/
theorem Outcome.cons {shift : Shift} {found : Option Recognised} (h : sc.Deterministic)
    (hfind : sc.findShift s c = some shift)
    (hnext : sc.Outcome shift.target cs (c :: read)
      ((recognise? (sc.state s) read 0 (c :: cs)).or best) found) :
    sc.Outcome s (c :: cs) read best found := by
  -- a token of this state is empty, or it goes on in the next state
  have hcons : ∀ v a, v <+: c :: cs → sc.Accepts s v a →
      v = [] ∨ ∃ u, v = c :: u ∧ u <+: cs ∧ sc.Accepts shift.target u a := by
    intro v a hv ha
    cases v with
    | nil => exact .inl rfl
    | cons d v =>
      obtain ⟨rfl, hbeginning⟩ := List.cons_prefix_cons.1 hv
      obtain ⟨shift', hfind', ha⟩ := (accepts_cons_iff h).1 ha
      rw [hfind] at hfind'
      exact .inr ⟨v, rfl, hbeginning, Option.some.inj hfind' ▸ ha⟩
  cases hnext with
  | @token w rest sym hcs haccepts hlongest =>
    have heq : w.reverse ++ c :: read = (c :: w).reverse ++ read := by simp
    rw [heq]
    refine .token (hcs ▸ rfl) ((accepts_cons_iff h).2 ⟨shift, hfind, haccepts⟩) fun v a hv ha => ?_
    rcases hcons v a hv ha with rfl | ⟨u, rfl, hu, hua⟩
    · exact Nat.zero_le _
    · exact Nat.succ_le_succ (hlongest u a hu hua)
  | before hnone =>
    refine outcome_recognise? fun v a hv ha => ?_
    rcases hcons v a hv ha with rfl | ⟨u, rfl, hu, hua⟩
    · rfl
    · exact absurd hua (hnone u a hu)

/-- Reading from a state finds the longest text that leads to the end of a token.  If there is none,
what was recognised before is kept. -/
theorem longest_outcome (hdet : sc.Deterministic) (hcontext : sc.NoContext) :
    sc.Outcome s cs read best (sc.longest s read 0 best cs) := by
  induction cs generalizing s read best with
  | nil => exact outcome_recognise? fun v a hv _ => List.prefix_nil.1 hv
  | cons c cs ih =>
    rw [longest]
    cases hfind : sc.findShift s c with
    | none =>
      refine outcome_recognise? fun v a hv ha => ?_
      cases v with
      | nil => rfl
      | cons d v =>
        obtain ⟨rfl, _⟩ := List.cons_prefix_cons.1 hv
        obtain ⟨shift, hshift, _⟩ := (accepts_cons_iff hdet).1 ha
        rw [hfind] at hshift
        cases hshift
    | some shift =>
      dsimp only
      rw [hcontext.nextAppendix_eq hfind]
      exact .cons hdet hfind ih

/-! ## The next item -/

/-- From every place at which nothing is skipped, the next item is the longest token that begins
there; if there is none, it is one character. -/
theorem next?_longest (hdet : sc.Deterministic) (hcontext : sc.NoContext)
    (hstart : (sc.state start).endOf = none) (offset : Nat) (hskip : sc.skip (gap ++ cs) = cs) :
    ((∃ w sym, sc.Matches cs w sym) →
      ∃ w rest sym kind, cs = w ++ rest ∧ sc.Matches cs w sym ∧
        (∀ v a, sc.Matches cs v a → v.length ≤ w.length) ∧
        sc.Names sym (String.ofList w) kind ∧
        sc.next? offset (gap ++ cs) =
          some (.token kind (String.ofList w) (offset + byteLength gap)
              (offset + byteLength gap + byteLength w),
            offset + byteLength gap + byteLength w, rest)) ∧
      ((∀ w sym, ¬ sc.Matches cs w sym) → ∀ c rest, cs = c :: rest →
        sc.next? offset (gap ++ cs) =
          some (.stray c (offset + byteLength gap) (offset + byteLength gap + c.utf8Size),
            offset + byteLength gap + c.utf8Size, rest)) := by
  have hplace : byteLength (gap ++ cs) - byteLength cs = byteLength gap := by
    rw [byteLength_append, Nat.add_sub_cancel]
  -- no token ends in the start state, so tokens are not empty
  have hmatches : ∀ {v a}, v <+: cs → sc.Accepts start v a → sc.Matches cs v a := by
    intro v a hv ha
    refine ⟨?_, hv, ha⟩
    rintro rfl
    rw [accepts_nil, hstart] at ha
    cases ha
  have houtcome : sc.Outcome start cs [] none (sc.longest start [] 0 none cs) :=
    longest_outcome hdet hcontext
  generalize hfound : sc.longest start [] 0 none cs = found at houtcome
  cases houtcome with
  | @token w rest sym hcs haccepts hlongest =>
    have hw : sc.Matches cs w sym := hmatches ⟨rest, hcs.symm⟩ haccepts
    refine ⟨fun _ => ⟨w, rest, sym, _, hcs, hw, fun v a hv => hlongest v a hv.beginning hv.accepts,
      sc.names_classify sym _, ?_⟩, fun hnone => absurd hw (hnone w sym)⟩
    obtain ⟨c, w, rfl⟩ := List.exists_cons_of_ne_nil hw.nonempty
    subst hcs
    unfold next?
    rw [hskip]
    dsimp only [List.cons_append] at hfound hplace ⊢
    rw [hplace, hfound]
    simp only [List.append_nil, List.reverse_reverse, byteLength_reverse]
  | before hnone =>
    refine ⟨fun ⟨w, sym, hw⟩ => absurd hw.accepts (hnone w sym hw.beginning), ?_⟩
    rintro - c rest rfl
    unfold next?
    rw [hskip]
    dsimp only
    rw [hplace, hfound]

/-- The token 1 is `é` or `b`, and the token 2 is `éab`; the text `é` is a literal of its own. -/
def accented : Scanner where
  states := #[⟨0, [⟨.char 233, .main, 1⟩, ⟨.char 98, .main, 1⟩], none, false⟩,
    ⟨1, [⟨.char 97, .main, 2⟩], some 1, false⟩, ⟨2, [⟨.char 98, .main, 3⟩], none, false⟩,
    ⟨3, [], some 2, false⟩]
  literals := [⟨"é", 5⟩]
  classLiterals := [1]

/-- Behind a blank, `éa` is read, and the second character is given back; then it is passed. -/
theorem next?_longest_accented :
    (accented.Deterministic ∧ accented.NoContext ∧ (accented.state start).endOf = none ∧
      accented.skip " éac".toList = "éac".toList) ∧
    (∃ w rest sym kind, "éac".toList = w ++ rest ∧ accented.Matches "éac".toList w sym ∧
      (∀ v a, accented.Matches "éac".toList v a → v.length ≤ w.length) ∧
      accented.Names sym (String.ofList w) kind ∧
      accented.next? 0 " éac".toList =
        some (.token kind (String.ofList w) 1 (1 + byteLength w), 1 + byteLength w, rest)) ∧
    accented.next? 3 "ac".toList = some (.stray 'a' 3 4, 4, ['c']) := by
  have hdet : accented.Deterministic := by
    rintro (_ | _ | _ | _ | s)
    · simp [accented, state, triggerSet, CharSet.mem_singleton]
    · simp [accented, state]
    · simp [accented, state]
    · simp [accented, state]
    · exact .nil
  have hcontext : accented.NoContext := by
    rintro (_ | _ | _ | _ | s)
    · simp [accented, state]
    · simp [accented, state]
    · simp [accented, state]
    · simp [accented, state]
    · exact fun shift hmem => absurd hmem List.not_mem_nil
  have hskip : accented.skip ([' '] ++ ['é', 'a', 'c']) = ['é', 'a', 'c'] := by decide +kernel
  have hskip' : accented.skip ([] ++ ['a', 'c']) = ['a', 'c'] := by decide +kernel
  refine ⟨⟨hdet, hcontext, rfl, hskip⟩, ?_, ?_⟩
  · refine (next?_longest hdet hcontext rfl 0 hskip).1 ⟨['é'], 1, by simp, ⟨_, rfl⟩, 1, ?_, rfl⟩
    exact ⟨⟨.char 233, .main, 1⟩, by decide +kernel, by decide +kernel, rfl⟩
  · refine (next?_longest hdet hcontext rfl 3 hskip').2 (fun w sym hw => ?_) 'a' ['c'] rfl
    obtain ⟨c, w, rfl⟩ := List.exists_cons_of_ne_nil hw.nonempty
    obtain ⟨rfl, _⟩ := List.cons_prefix_cons.1 hw.beginning
    obtain ⟨shift, hfind, _⟩ := (accepts_cons_iff hdet).1 hw.accepts
    have hnone : accented.findShift start 'a' = none := by decide +kernel
    rw [hnone] at hfind
    cases hfind

end Scanner

end Ebnf
