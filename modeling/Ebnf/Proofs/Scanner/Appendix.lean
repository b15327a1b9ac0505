import Ebnf.Proofs.Scanner.Contexts

/-!
# The context read last

While it reads a token, a scanner counts what it has read as context last, so that it can give
this back where a context is complete.  The counter starts again only where a shift that reads no
context leaves a marked state.  It is right all the same, because every context shift of a finished
scanner leads to a marked state.  So no more is given back than was read, and what is left of the
token ends between two characters.

`longest` counts characters.  The readings of this module keep its arguments and the way in which
each character was read, and beside its counter one that counts the bytes of the characters by the
same rule.

Main results:

- Theorem `Scanner.Reading.Sound.advance?`: one shift keeps both counters right.
- Theorem `Scanner.Reaches.sound`: so they are right behind any number of shifts.
- Theorem `Draft.Declared.flagged_toScanner`: the context shifts of a scanner lead to marked states.
- Theorem `Draft.Declared.appendix_toScanner`: the counters are right in every call of `next?`,
  and the items of an input are places in it that follow one another.
-/

namespace Ebnf

namespace Scanner

variable {sc : Scanner} {cs rest rest' input : List Char} {offset offset' limit : Nat} {s : StateId}
  {c : Char} {taken : List (Char × Part)} {item : Item}

/-! ## Counters -/

/-- The characters read as context last, of characters that were read and how, all given backwards. -/
def lastContext (taken : List (Char × Part)) : List Char :=
  (taken.takeWhile (·.2 = .context)).map Prod.fst

theorem lastContext_context : lastContext ((c, .context) :: taken) = c :: lastContext taken := by
  simp [lastContext]

theorem lastContext_main : lastContext ((c, .main) :: taken) = [] := by
  simp [lastContext]

theorem length_lastContext : (lastContext taken).length = trailing (taken.map Prod.snd) := by
  simp [lastContext, trailing, List.takeWhile_map, Function.comp_def]

/-- What was read as context last is the end of what was read. -/
theorem exists_lastContext_append (taken : List (Char × Part)) :
    ∃ kept, taken.map Prod.fst = lastContext taken ++ kept := by
  refine ⟨(taken.dropWhile (·.2 = .context)).map Prod.fst, ?_⟩
  rw [lastContext, ← List.map_append, List.takeWhile_append_dropWhile]

/-- Number of bytes read as context last, after a further shift from the state `st`. -/
def nextBytes (st : ScannerState) (shift : Shift) (c : Char) (bytes : Nat) : Nat :=
  if shift.part = .context then bytes + c.utf8Size else if st.context then 0 else bytes

/-- The counter of bytes measures what was read as context last. -/
theorem ReadTo.nextBytes_eq {shift : Shift}
    (h : sc.ReadTo (taken.map Prod.fst) (taken.map Prod.snd) s) (hflag : sc.Flagged) :
    nextBytes (sc.state s) shift c (byteLength (lastContext taken)) =
      byteLength (lastContext ((c, shift.part) :: taken)) := by
  unfold nextBytes
  cases hpart : shift.part with
  | context => rw [if_pos rfl, lastContext_context, byteLength, Nat.add_comm]
  | main =>
    rw [if_neg (by decide), lastContext_main]
    split
    · rfl
    next hcontext =>
      -- in an unmarked state the counter was not started
      have hlength : (lastContext taken).length = 0 :=
        length_lastContext.trans (h.trailing_eq_zero hflag hcontext)
      rw [List.length_eq_zero_iff.1 hlength]

/-! ## Readings -/

/-- A place on the way through a token: what `longest` is called with, how the characters were read,
and the appendix in bytes. -/
structure Reading where
  state : StateId
  /-- the characters read, and how, backwards -/
  taken : List (Char × Part)
  appendix : Nat
  bytes : Nat
  best : Option Recognised
  rest : List Char
  deriving DecidableEq, Repr

namespace Reading

variable {r r' : Reading}

/-- The place before the first character of a token. -/
def first (cs : List Char) : Reading :=
  ⟨start, [], 0, 0, none, cs⟩

/-- The characters read, backwards. -/
def read (r : Reading) : List Char :=
  r.taken.map Prod.fst

/-- What `longest` finds from here on. -/
def found (sc : Scanner) (r : Reading) : Option Recognised :=
  sc.longest r.state r.read r.appendix r.best r.rest

/-- The place behind one more character, if there is a shift on it. -/
def advance? (sc : Scanner) (r : Reading) : Option Reading :=
  match r.rest with
  | [] => none
  | c :: cs => (sc.findShift r.state c).map fun shift =>
    { state := shift.target
      taken := (c, shift.part) :: r.taken
      appendix := nextAppendix (sc.state r.state) shift r.appendix
      bytes := nextBytes (sc.state r.state) shift c r.bytes
      best := (recognise? (sc.state r.state) r.read r.appendix (c :: cs)).or r.best
      rest := cs }

theorem exists_of_advance? (h : r.advance? sc = some r') :
    ∃ c cs shift, r.rest = c :: cs ∧ sc.findShift r.state c = some shift ∧
      r' = ⟨shift.target, (c, shift.part) :: r.taken, nextAppendix (sc.state r.state) shift r.appendix,
        nextBytes (sc.state r.state) shift c r.bytes,
        (recognise? (sc.state r.state) r.read r.appendix (c :: cs)).or r.best, cs⟩ := by
  unfold advance? at h
  split at h
  · cases h
  next c cs hrest =>
    obtain ⟨shift, hfind, rfl⟩ := Option.map_eq_some_iff.1 h
    exact ⟨c, cs, shift, hrest, hfind, rfl⟩

/-- Going on is one call of `longest`. -/
theorem found_of_advance? (h : r.advance? sc = some r') : r.found sc = r'.found sc := by
  obtain ⟨c, cs, shift, hrest, hfind, rfl⟩ := exists_of_advance? h
  unfold found
  rw [hrest, longest, hfind]
  rfl

/-- The place is on the way through a token that begins with the characters `cs`, and both counters
measure what was read as context last. -/
structure Sound (sc : Scanner) (cs : List Char) (r : Reading) : Prop where
  readTo : sc.ReadTo r.read (r.taken.map Prod.snd) r.state
  appendix_eq : r.appendix = (lastContext r.taken).length
  bytes_eq : r.bytes = byteLength (lastContext r.taken)
  input_eq : r.read.reverse ++ r.rest = cs
  found_eq : r.found sc = sc.longest start [] 0 none cs

theorem sound_first : (first cs).Sound sc cs where
  readTo := .start
  appendix_eq := rfl
  bytes_eq := rfl
  input_eq := rfl
  found_eq := rfl

/-- One more shift keeps both counters right, since context shifts lead to marked states. -/
theorem Sound.advance? (h : r.Sound sc cs) (hflag : sc.Flagged) (hnext : r.advance? sc = some r') :
    r'.Sound sc cs := by
  have hfound := found_of_advance? hnext
  obtain ⟨c, cs', shift, hrest, hfind, rfl⟩ := exists_of_advance? hnext
  refine ⟨h.readTo.shift hfind, ?_, ?_, ?_, hfound.symm.trans h.found_eq⟩
  · dsimp only
    rw [h.appendix_eq, length_lastContext, length_lastContext, h.readTo.nextAppendix_eq hflag]
    rfl
  · dsimp only
    rw [h.bytes_eq, h.readTo.nextBytes_eq hflag]
  · rw [← h.input_eq, hrest]
    simp [read]

end Reading

/-- The places on the way through a token that begins with the characters `cs`. -/
inductive Reaches (sc : Scanner) (cs : List Char) : Reading → Prop
  | first : Reaches sc cs (.first cs)
  | advance {r r' : Reading} (h : Reaches sc cs r) (hnext : r.advance? sc = some r') :
      Reaches sc cs r'

/-- At every place on the way through a token both counters are right. -/
theorem Reaches.sound {r : Reading} (h : sc.Reaches cs r) (hflag : sc.Flagged) : r.Sound sc cs := by
  induction h with
  | first => exact Reading.sound_first
  | advance _ hnext ih => exact ih.advance? hflag hnext

/-! ## Places in the input -/

/-- The byte `place` of an input begins a character, or it is the end of the input. -/
def Boundary (input : List Char) (place : Nat) : Prop :=
  ∃ before after, input = before ++ after ∧ place = byteLength before

/-- The byte behind what was read of a token that begins at the byte `start`. -/
def Reading.place (start : Nat) (r : Reading) : Nat :=
  start + byteLength r.read

/-- On the way through a token that begins at the byte `start` of an input, both counters measure what
was read as context last.  Without it, what was read ends between two characters of the input, and not
before `start`. -/
structure Reading.Trims (input : List Char) (start : Nat) (r : Reading) : Prop where
  appendix_eq : r.appendix = (lastContext r.taken).length
  bytes_eq : r.bytes = byteLength (lastContext r.taken)
  start_add_le : start + r.bytes ≤ r.place start
  boundary : Boundary input (r.place start - r.bytes)
  rest_eq : ∃ before, input = before ++ r.rest ∧ r.place start = byteLength before

theorem Reading.Sound.trims {r : Reading} {before : List Char} (h : r.Sound sc cs) :
    r.Trims (before ++ cs) (byteLength before) := by
  obtain ⟨kept, hread⟩ := exists_lastContext_append r.taken
  have hlength : byteLength r.read = r.bytes + byteLength kept := by
    rw [h.bytes_eq, ← byteLength_append, ← hread]
    rfl
  have hplace : r.place (byteLength before) = byteLength before + byteLength r.read := rfl
  refine ⟨h.appendix_eq, h.bytes_eq, by omega, ⟨before ++ kept.reverse,
    (lastContext r.taken).reverse ++ r.rest, ?_, ?_⟩, before ++ r.read.reverse, ?_, ?_⟩
  · rw [← h.input_eq, Reading.read, hread]
    simp
  · rw [byteLength_append, byteLength_reverse]
    omega
  · rw [← h.input_eq, List.append_assoc]
  · rw [byteLength_append, byteLength_reverse, hplace]

/-- The calls of `next?` for an input: the first one, and one behind every item. -/
inductive Calls (sc : Scanner) (input : List Char) : Nat → List Char → Prop
  | first : Calls sc input 0 input
  | next {offset offset' : Nat} {rest rest' : List Char} {item : Item}
      (h : Calls sc input offset rest) (hnext : sc.next? offset rest = some (item, offset', rest')) :
      Calls sc input offset' rest'

section Items

variable (hflag : sc.Flagged) (hdelimited : ∀ k ∈ sc.comments, k.Delimited)
include hflag hdelimited

/-- Every call is given what follows its place in the input. -/
theorem Calls.exists_before (h : sc.Calls input offset rest) :
    ∃ before, input = before ++ rest ∧ offset = byteLength before := by
  induction h with
  | first => exact ⟨[], rfl, rfl⟩
  | next _ hnext ih =>
    obtain ⟨before, hinput, rfl⟩ := ih
    obtain ⟨gap, text, rfl, rfl, _⟩ := foundIn_of_next? hflag hdelimited hnext
    refine ⟨before ++ gap ++ text, ?_, ?_⟩
    · simp only [hinput, List.append_assoc]
    · simp only [byteLength_append]

/-- An item begins and ends in the input that is left. -/
theorem within_of_mem_itemsFrom (hitem : item ∈ (sc.itemsFrom limit offset rest).1) :
    offset ≤ item.start ∧ item.start ≤ item.stop ∧ item.stop ≤ offset + byteLength rest := by
  induction limit generalizing offset rest with
  | zero => cases hitem
  | succ limit ih =>
    rw [itemsFrom] at hitem
    split at hitem
    · cases hitem
    next first offset' rest' hnext =>
      obtain ⟨gap, text, rfl, rfl, hspans, _⟩ := foundIn_of_next? hflag hdelimited hnext
      simp only [byteLength_append]
      rcases List.mem_cons.1 hitem with rfl | hitem
      · rw [hspans.start_eq, hspans.stop_eq]
        omega
      · have hlater := ih hitem
        omega

/-- Items follow one another. -/
theorem ascending_itemsFrom :
    (sc.itemsFrom limit offset rest).1.Pairwise fun a b => a.stop ≤ b.start := by
  induction limit generalizing offset rest with
  | zero => exact .nil
  | succ limit ih =>
    rw [itemsFrom]
    split
    · exact .nil
    next first offset' rest' hnext =>
      obtain ⟨gap, text, rfl, rfl, hspans, _⟩ := foundIn_of_next? hflag hdelimited hnext
      refine List.pairwise_cons.2 ⟨fun item hitem => ?_, ih⟩
      rw [hspans.stop_eq]
      exact (within_of_mem_itemsFrom hflag hdelimited hitem).1

end Items

end Scanner

namespace Draft

variable {d : Draft} {ok : Grammar → NodeId → Prop}

/-- In the scanner of declared tokens every context shift on the way leads to a marked state. -/
theorem Declared.flagged_toScanner (h : d.Declared ok) : d.toScanner.1.Flagged := by
  obtain ⟨R, htracks, hheeds⟩ := exists_heeds_toScanner h.sound.wellFormed h.single.aimed
  exact Scanner.flagged_of_heeds htracks hheeds fun _ _ => triggers_toScanner

theorem Declared.delimited_toScanner (h : d.Declared ok) :
    ∀ k ∈ d.toScanner.1.comments, k.Delimited := by
  rw [comments_toScanner]
  exact h.delimited

/-- In the scanner of declared tokens, whatever their contexts are, the counters measure what was read
as context last, at every place on the way through a token and in every call.  So what is given back
was read, and the items of an input are places in it that follow one another. -/
theorem Declared.appendix_toScanner (h : d.Declared ok) (input : String) :
    (∀ offset rest r, d.toScanner.1.Calls input.toList offset rest →
      d.toScanner.1.Reaches (d.toScanner.1.skip rest) r →
      r.found d.toScanner.1 = d.toScanner.1.longest Scanner.start [] 0 none (d.toScanner.1.skip rest) ∧
      r.Trims input.toList
        (offset + (byteLength rest - byteLength (d.toScanner.1.skip rest)))) ∧
    ∀ limit,
      (∀ item ∈ (d.toScanner.1.items limit input).1,
        item.start ≤ item.stop ∧ item.stop ≤ byteLength input.toList) ∧
      (d.toScanner.1.items limit input).1.Pairwise fun a b => a.stop ≤ b.start := by
  have hflag := h.flagged_toScanner
  have hdelimited := h.delimited_toScanner
  constructor
  · intro offset rest r hcall hreaches
    obtain ⟨before, hinput, rfl⟩ := hcall.exists_before hflag hdelimited
    obtain ⟨gap, _, hrest⟩ := Scanner.exists_gap hdelimited rest
    generalize d.toScanner.1.skip rest = cs at hreaches hrest ⊢
    subst hrest
    have hsound := hreaches.sound hflag
    refine ⟨hsound.found_eq, ?_⟩
    -- the token begins behind the gap
    rw [hinput, ← List.append_assoc, byteLength_append gap, Nat.add_sub_cancel, ← byteLength_append]
    exact hsound.trims
  · refine fun limit => ⟨fun item hitem => ?_, Scanner.ascending_itemsFrom hflag hdelimited⟩
    have hwithin := Scanner.within_of_mem_itemsFrom hflag hdelimited hitem
    rw [Nat.zero_add] at hwithin
    exact hwithin.2

/-- The token `X` is `a` before `éc`. -/
def accentedGrammar : Grammar :=
  let (x, g) := Grammar.initial.addExpr 1
    (.seq (.char 97) [.context (.seq (.char 233) [.char 99])])
  ((g.close x).declareSymbol .terminal "X" 1).2

/-- The machine of this token. -/
def accented : Draft :=
  addToken ⟨.initial, accentedGrammar⟩ 0 1

/-- Behind `aéc` the appendix has two characters, which are three bytes. -/
def accentedReading : Scanner.Reading :=
  ⟨3, [('c', .context), ('é', .context), ('a', .main)], 2, 3, none, []⟩

theorem reaches_accentedReading :
    accented.toScanner.1.Reaches (accented.toScanner.1.skip " aéc".toList) accentedReading := by
  have hskip : accented.toScanner.1.skip " aéc".toList = ['a', 'é', 'c'] := by decide +kernel
  rw [hskip]
  have ha : accented.toScanner.1.Reaches ['a', 'é', 'c']
      ⟨1, [('a', .main)], 0, 0, none, ['é', 'c']⟩ := .advance .first (by decide +kernel)
  have he : accented.toScanner.1.Reaches ['a', 'é', 'c']
      ⟨2, [('é', .context), ('a', .main)], 1, 2, none, ['c']⟩ := ha.advance (by decide +kernel)
  exact he.advance (by decide +kernel)

/-- Behind a blank, `aéc` is read from the byte 1 on, and three of the four bytes are given back. -/
theorem Declared.appendix_toScanner_accented :
    (accentedReading.found accented.toScanner.1 = some ⟨1, ['a'], ['é', 'c']⟩ ∧
      accentedReading.Trims " aéc".toList 1) ∧
    ((accented.toScanner.1.items 4 " aéc").1 =
        [.token 1 "a" 1 2, .stray 'é' 2 4, .stray 'c' 4 5] ∧
      (accented.toScanner.1.items 4 " aéc").1.Pairwise fun a b => a.stop ≤ b.start) := by
  have hfit : accentedGrammar.Fit 1 :=
    Grammar.fit_of_isFresh (fun _ => CharSet.canonical_empty) (by decide +kernel)
  have hdeclared : accented.Declared fun _ _ => True := (Declared.initial hfit).token trivial 1
  obtain ⟨hreadings, hitems⟩ := hdeclared.appendix_toScanner " aéc"
  obtain ⟨_, htrims⟩ := hreadings 0 _ _ .first reaches_accentedReading
  have hstart : 0 + (byteLength " aéc".toList -
      byteLength (accented.toScanner.1.skip " aéc".toList)) = 1 := by decide +kernel
  rw [hstart] at htrims
  exact ⟨⟨by decide +kernel, htrims⟩, by decide +kernel, (hitems 4).2⟩

end Draft

end Ebnf
