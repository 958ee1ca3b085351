import Directory.Proofs.Search.Leaves
import Directory.Search.Nested
import Mathlib.Data.List.Forall2

/-!
# Walkers around walkers walk their candidates

If the walkers inside walk their candidates, the walker around them walks these with more tests, one
after another.

* `TestedWalker.walks`: the candidates of one walker, each with the same tests.
* `EitherWalker.walks`: **the candidates of several walkers in turn**, each with the tests that no
  earlier one has it.
-/

namespace Directory

variable {p : Partition} {w : Way} {σ : Type} {n : Navigation σ SearchKey}
  {S : Standing σ SearchKey (List Test)}

/-! ## More tests -/

namespace Test

theorem passAll_append (ts ts' : List Test) (el : Element SearchKey) :
    passAll p (ts ++ ts') el = (do
      if ← passAll p ts then passAll p ts' else return false : EStateM Error _ Bool) el := by
  induction ts generalizing el with
  | nil => rfl
  | cons t ts ih =>
    rw [List.cons_append, passAll, passAll]
    show EStateM.bind (t.evaluator.evaluate p) _ el =
      EStateM.bind (EStateM.bind (t.evaluator.evaluate p) _) _ el
    unfold EStateM.bind
    cases t.evaluator.evaluate p el with
    | error e el => rfl
    | ok b el =>
      dsimp only
      cases b == t.expected with
      | true => exact ih el
      | false => rfl

/-- The tests of a candidate come first, then the further ones. -/
theorem accept_withTests (ts : List Test) (k : Candidate) :
    accept p (k.withTests ts) =
      (accept p k).bind (·.elim (.ok none) fun el => accept p (el, ts)) := by
  rw [accept, accept, Candidate.withTests, passAll_append]
  cases h : passAll p k.2 k.1 with
  | error e el =>
    rw [bind_of_error h]
    rfl
  | ok b el =>
    rw [bind_of_ok h]
    cases b <;> rfl

end Test

/-! ## Tests -/

namespace TestedWalker

variable {c : TestedWalker σ} {s' : σ} {ts : List Test}

/-- The walker is open; the one inside stands for a track, and with the tests that is the track. -/
def Stands (S : Standing σ SearchKey (List Test)) (c : TestedWalker σ) (t : Track Candidate)
    (e : Option (Element SearchKey)) : Prop :=
  c.closed = false ∧ c.current = e ∧
    ∃ u e', S c.inner u e' ∧ t = u.map (Candidate.withTests · c.tests)

theorem onInner_ok {α : Type} {m : EStateM Error σ α} {a : α} (hm : m c.inner = .ok a s') :
    onInner m c = .ok a { c with inner := s' } := by
  rw [onInner, onPart, hm]

theorem onInner_error {α : Type} {m : EStateM Error σ α} {e : Error}
    (hm : m c.inner = .error e s') : onInner m c = .error e { c with inner := s' } := by
  rw [onInner, onPart, hm]

theorem attempt_met {el : Element SearchKey} (hmove : n.advance w c.inner = .ok true s')
    (hel : n.element s' = .ok el s') :
    attempt p n w c = match Test.accept p (el, c.tests) with
      | .ok (some el) => .ok (some true) { c with inner := s', current := some el }
      | .ok none => .ok none { c with inner := s' }
      | .error e => .error e { c with inner := s' } := by
  have hel : onInner n.element { c with inner := s' } = .ok el { c with inner := s' } :=
    onInner_ok hel
  rw [attempt, bind_of_ok (onInner_ok hmove)]
  refine (bind_of_ok hel).trans ?_
  show EStateM.bind (liftM (Test.accept p (el, c.tests))) _ { c with inner := s' } = _
  cases Test.accept p (el, c.tests) with
  | error e => rfl
  | ok found => cases found <;> rfl

/-- The walker is open and on no element; the one inside stands for a track with so many elements
ahead. -/
def Moving (S : Standing σ SearchKey (List Test)) (w : Way) (ts : List Test) (k : Nat)
    (c : TestedWalker σ) (t : Track Candidate) : Prop :=
  c.closed = false ∧ c.current = none ∧ c.tests = ts ∧
    ∃ u e, S c.inner u e ∧ t = u.map (Candidate.withTests · ts) ∧ k = (u.seen w).ahead.length

theorem Moving.attempt (hn : n.Walks (Test.accept p) S) {k : Nat} {t : Track Candidate}
    (h : Moving S w ts k c t) :
    Tried (Test.accept p) w (Moving S w ts) (Stands S) k t (attempt p n w c) := by
  obtain ⟨hopen, hcurrent, rfl, u, e, hS, rfl, rfl⟩ := h
  have hlands := hn.advance w hS
  have hmap := Track.move_map (w := w) (f := (Candidate.withTests · c.tests))
    (Test.accept_withTests (p := p) c.tests) u
  cases hmove : u.move w (Test.accept p) with
  | mk r u' =>
    rw [hmove] at hlands hmap
    cases r with
    | error err =>
      obtain ⟨s', hs', hS'⟩ := hlands.of_error
      have hattempt : TestedWalker.attempt p n w c = .error err { c with inner := s' } := by
        rw [TestedWalker.attempt, bind_of_error (onInner_error hs')]
      rw [hattempt]
      exact .failed hmap ⟨hopen, hcurrent, u', none, hS', rfl⟩
    | ok found =>
      obtain ⟨s', hs', hS'⟩ := hlands.of_ok
      cases found with
      | none =>
        rw [TestedWalker.attempt, bind_of_ok (onInner_ok hs')]
        exact Tried.moved hmap ⟨hopen, hcurrent, u', none, hS', rfl⟩
      | some el =>
        rw [attempt_met hs' (hn.element hS')]
        dsimp only at hmap
        cases haccept : Test.accept p (el, c.tests) with
        | error err =>
          rw [haccept] at hmap
          exact .failed hmap ⟨hopen, hcurrent, u', some el, hS', rfl⟩
        | ok found =>
          rw [haccept] at hmap
          cases found with
          | none =>
            exact .again hmap (Track.move_some hmove)
              ⟨hopen, hcurrent, rfl, u', some el, hS', rfl, rfl⟩
          | some el' => exact .moved hmap ⟨hopen, rfl, u', some el, hS', rfl⟩

theorem walks (hn : n.Walks (Test.accept p) S) (seeking : Seeking) :
    (navigation p n seeking).Walks (Test.accept p) (Stands S) where
  isOpen h := h.1
  size := by
    rintro c _ _ ⟨_, _, u, e, hS, rfl⟩
    rw [Track.length, Track.toList_map, List.length_map]
    exact hn.size hS
  restart := by
    rintro c _ _ w ⟨hopen, _, u, e, hS, rfl⟩
    obtain ⟨s', hs', hS'⟩ := hn.restart w hS
    have hrestart : (navigation p n seeking).restart w c =
        onInner (n.restart w) { c with current := none } := by
      cases w with
      | forward => exact bind_of_ok (ensureOpen_ok hopen _)
      | backward => exact bind_of_ok (ensureOpen_ok hopen _)
    refine ⟨_, hrestart.trans (onInner_ok hs'), hopen, rfl, _, _, hS', ?_⟩
    exact Track.outset_map _
  advance := by
    rintro c _ _ w ⟨hopen, _, u, e, hS, rfl⟩
    have hadvance : (navigation p n seeking).advance w c =
        rounds (attempt p n w) (n.size c.inner + 1) { c with current := none } := by
      cases w with
      | forward => exact bind_of_ok (ensureOpen_ok hopen _)
      | backward => exact bind_of_ok (ensureOpen_ok hopen _)
    rw [hadvance]
    refine lands_rounds (Moving.attempt hn) ⟨hopen, rfl, rfl, u, e, hS, rfl, rfl⟩ ?_
    exact Nat.lt_succ_of_le (Nat.le_trans (Track.length_ahead_le u) (hn.size hS))
  element := by
    rintro ⟨inner, tests, current, closed⟩ _ _ ⟨hopen, rfl, _⟩
    obtain rfl : closed = false := hopen
    cases current <;> rfl
  available := by
    rintro c _ _ ⟨hopen, rfl, _⟩
    show (!c.closed && c.current.isSome) = _
    rw [hopen]
    rfl

end TestedWalker

/-! ## Several in turn -/

section Lists

variable {α β : Type} {R : α → β → Prop} {xs : List α} {ys : List β} {i : Nat} {x : α} {y : β}

theorem forall₂_getElem? (h : List.Forall₂ R xs ys) (hy : ys[i]? = some y) :
    ∃ x, xs[i]? = some x ∧ R x y := by
  induction h generalizing i with
  | nil => cases hy
  | cons hr _ ih =>
    cases i with
    | zero =>
      cases hy
      exact ⟨_, rfl, hr⟩
    | succ i => exact ih hy

theorem forall₂_set (h : List.Forall₂ R xs ys) (hy : ys[i]? = some y) (hx : R x y) :
    List.Forall₂ R (xs.set i x) ys := by
  induction h generalizing i with
  | nil => exact .nil
  | cons hr h ih =>
    cases i with
    | zero =>
      cases hy
      exact .cons hx h
    | succ i => exact .cons hr (ih hy)

end Lists

namespace EitherWalker

variable {c : EitherWalker σ} {s s' : σ} {xs : List Evaluator} {ls : List (List Candidate)}
  {t : Track Candidate}

/-- The tests of the walker with a number. -/
def testsAt (xs : List Evaluator) (i : Nat) : List Test := (xs.take i).map (⟨·, false⟩)

/-- The candidates of walkers, each with the tests that no earlier walker has it. -/
def parts (xs : List Evaluator) (ls : List (List Candidate)) : List (List Candidate) :=
  ls.mapIdx fun i l => l.map (Candidate.withTests · (testsAt xs i))

/-- A track of candidates of the walker with a number, as a part of all. -/
def partOf (xs : List Evaluator) (ls : List (List Candidate)) (i : Nat) (u : Track Candidate) :
    Track Candidate :=
  (u.map (Candidate.withTests · (testsAt xs i))).inPart (parts xs ls) i

/-- A movement among the candidates of one walker: it stops at an element that passes, and goes on
beyond them. -/
theorem move_partOf {i : Nat} {u : Track Candidate} :
    (partOf xs ls i u).move w (Test.accept p) = match u.move w (Test.accept p) with
      | (.ok none, v) => (partOf xs ls i v).move w (Test.accept p)
      | (.ok (some el), v) => match Test.accept p (el, testsAt xs i) with
        | .ok none => (partOf xs ls i v).move w (Test.accept p)
        | r => (r, partOf xs ls i v)
      | (.error e, v) => (.error e, partOf xs ls i v) := by
  have hmap := Track.move_map (w := w) (f := (Candidate.withTests · (testsAt xs i)))
    (Test.accept_withTests (p := p) (testsAt xs i)) u
  rw [partOf, Track.inPart, Track.move_among, hmap]
  obtain ⟨r, v⟩ := u.move w (Test.accept p)
  cases r with
  | error e => rfl
  | ok found =>
    cases found with
    | none => rfl
    | some el =>
      dsimp only
      cases Test.accept p (el, testsAt xs i) with
      | error e => rfl
      | ok found =>
        cases found with
        | none => exact Track.move_among.symm
        | some el' => rfl

theorem ahead_partOf {i : Nat} {u : Track Candidate} : ((partOf xs ls i u).seen w).ahead =
    (u.seen w).ahead.map (Candidate.withTests · (testsAt xs i)) ++
      Track.beyond w ((parts xs ls).take i).flatten ((parts xs ls).drop (i + 1)).flatten := by
  rw [partOf, Track.inPart, Track.ahead_among, Track.seen_map, Track.ahead_map]

theorem ahead_partOf_end {i : Nat} {u : Track Candidate} :
    ((partOf xs ls i (u.outset w.opposite)).seen w).ahead =
      Track.beyond w ((parts xs ls).take i).flatten ((parts xs ls).drop (i + 1)).flatten := by
  rw [ahead_partOf, Track.ahead_outset_opposite]
  rfl

/-- The walker stands for a track of these candidates. -/
def Has (S : Standing σ SearchKey (List Test)) (s : σ) (l : List Candidate) : Prop :=
  ∃ u e, S s u e ∧ u.toList = l

/-- The walker is open. Each of those inside stands for a track of its candidates, and the one whose
turn it is for the part at the place of the track. -/
structure Raw (S : Standing σ SearchKey (List Test)) (xs : List Evaluator)
    (ls : List (List Candidate)) (c : EitherWalker σ) (t : Track Candidate) : Prop where
  isOpen : c.closed = false
  evaluators : c.evaluators = xs
  children : List.Forall₂ (Has S) c.children ls
  place : ∃ s u e, c.children[c.index]? = some s ∧ S s u e ∧ ls[c.index]? = some u.toList ∧
    t = partOf xs ls c.index u

theorem getElem?_parts {i : Nat} {l : List Candidate} (h : ls[i]? = some l) :
    (parts xs ls)[i]? = some (l.map (Candidate.withTests · (testsAt xs i))) := by
  rw [parts, List.getElem?_mapIdx, h]
  rfl

theorem length_parts : (parts xs ls).length = ls.length := List.length_mapIdx

theorem partOf_joint {i j : Nat} {u : Track Candidate} {l : List Candidate}
    (hu : ls[i]? = some u.toList) (hj : w.neighbour? i ls.length = some j) (hl : ls[j]? = some l) :
    partOf xs ls i (u.outset w.opposite) = partOf xs ls j ((Track.start l).outset w) := by
  rw [partOf, partOf, ← Track.outset_map, ← Track.outset_map, Track.start_map]
  refine Track.inPart_neighbour ?_ (length_parts.symm ▸ hj) (getElem?_parts hl)
  rw [getElem?_parts hu, Track.toList_map]

theorem Raw.toList (h : Raw S xs ls c t) : t.toList = (parts xs ls).flatten := by
  obtain ⟨s, u, e, _, _, hl, rfl⟩ := h.place
  refine Track.toList_inPart ?_
  rw [getElem?_parts hl, Track.toList_map]

theorem onChild_ok {α : Type} {m : EStateM Error σ α} {a : α} (hs : c.children[c.index]? = some s)
    (hm : m s = .ok a s') :
    onChild m c = .ok (some a) { c with children := c.children.set c.index s' } := by
  rw [onChild, hs]
  dsimp only
  rw [map_of_ok hm]
  rfl

theorem onChild_error {α : Type} {m : EStateM Error σ α} {e : Error}
    (hs : c.children[c.index]? = some s) (hm : m s = .error e s') :
    onChild m c = .error e { c with children := c.children.set c.index s' } := by
  rw [onChild, hs]
  dsimp only
  rw [map_of_error hm]
  rfl

theorem Raw.set (h : Raw S xs ls c t) {u : Track Candidate} {e : Option (Element SearchKey)}
    (hS : S s' u e) (hl : ls[c.index]? = some u.toList) (current : Option (Element SearchKey)) :
    Raw S xs ls { c with children := c.children.set c.index s', current }
      (partOf xs ls c.index u) where
  isOpen := h.isOpen
  evaluators := h.evaluators
  children := forall₂_set h.children hl ⟨u, e, hS, rfl⟩
  place := by
    obtain ⟨s, _, _, hs, _⟩ := h.place
    obtain ⟨hi, _⟩ := List.getElem?_eq_some_iff.1 hs
    exact ⟨s', u, e, List.getElem?_set_self hi, hS, hl, rfl⟩

theorem Raw.left (h : Raw S xs ls c t) (current : Option (Element SearchKey)) :
    Raw S xs ls { c with current } t :=
  ⟨h.isOpen, h.evaluators, h.children, h.place⟩

theorem Raw.enter (hn : n.Walks (Test.accept p) S) (h : Raw S xs ls c t) {i : Nat}
    {l : List Candidate} (hl : ls[i]? = some l) : ∃ c', EitherWalker.enter n w i c = .ok () c' ∧
      Raw S xs ls c' (partOf xs ls i ((Track.start l).outset w)) ∧ c'.index = i ∧
      c'.current = c.current ∧ c'.children.length = c.children.length := by
  obtain ⟨s, hs, u, e, hS, rfl⟩ := forall₂_getElem? h.children hl
  obtain ⟨s', hs', hS'⟩ := hn.restart w hS
  have henter : EitherWalker.enter n w i c =
      .ok () { c with children := c.children.set i s', index := i } := by
    have hpart : EitherWalker.enter n w i c = (do
        let _ ← onChild (n.restart w) : EStateM Error (EitherWalker σ) Unit)
          { c with index := i } := rfl
    rw [hpart, bind_of_ok (onChild_ok (c := { c with index := i }) hs hs')]
    rfl
  refine ⟨_, henter, ⟨h.isOpen, h.evaluators, ?_, s', u.outset w, none, ?_, hS', ?_, ?_⟩, rfl, rfl,
    List.length_set⟩
  · exact forall₂_set h.children hl ⟨_, _, hS', Track.toList_outset⟩
  · obtain ⟨hi, _⟩ := List.getElem?_eq_some_iff.1 hs
    exact List.getElem?_set_self hi
  · rw [Track.toList_outset]
    exact hl
  · rw [Track.outset_congr (Track.toList_start u.toList)]

/-- The number of walkers whose turn is still to come. -/
def turns (w : Way) (c : EitherWalker σ) : Nat := w.turns c.index c.children.length

theorem Raw.index_lt (h : Raw S xs ls c t) : c.index < c.children.length := by
  obtain ⟨_, _, _, hs, _⟩ := h.place
  exact (List.getElem?_eq_some_iff.1 hs).1

theorem Raw.turns_le (h : Raw S xs ls c t) : turns w c ≤ c.children.length := by
  have := h.index_lt
  cases w <;> simp only [turns, Way.turns] <;> omega

/-- The walker is open and on no element; this is the number of elements ahead and of turns to
come. -/
def Moving (S : Standing σ SearchKey (List Test)) (w : Way) (xs : List Evaluator)
    (ls : List (List Candidate)) (k : Nat) (c : EitherWalker σ) (t : Track Candidate) : Prop :=
  Raw S xs ls c t ∧ c.current = none ∧ k = (t.seen w).ahead.length + turns w c

/-- The walker is open and stands for a track of the candidates of those inside. -/
def Stands (S : Standing σ SearchKey (List Test)) (c : EitherWalker σ) (t : Track Candidate)
    (e : Option (Element SearchKey)) : Prop :=
  (∃ xs ls, Raw S xs ls c t) ∧ c.current = e

theorem turns_set {current : Option (Element SearchKey)} :
    turns w { c with children := c.children.set c.index s', current } = turns w c := by
  rw [turns, List.length_set]
  rfl

theorem attempt_met {el : Element SearchKey} (hs : c.children[c.index]? = some s)
    (hmove : n.advance w s = .ok true s') (hel : n.element s' = .ok el s') :
    attempt p n w c = match Test.accept p (el, c.tests) with
      | .ok (some el) =>
        .ok (some true) { c with children := c.children.set c.index s', current := some el }
      | .ok none => .ok none { c with children := c.children.set c.index s' }
      | .error e => .error e { c with children := c.children.set c.index s' } := by
  obtain ⟨hi, _⟩ := List.getElem?_eq_some_iff.1 hs
  have hel : onChild n.element { c with children := c.children.set c.index s' } =
      .ok (some el) { c with children := c.children.set c.index s' } := by
    rw [onChild_ok (List.getElem?_set_self hi) hel, List.set_set]
  rw [attempt, bind_of_ok (onChild_ok hs hmove)]
  refine (bind_of_ok hel).trans ?_
  show EStateM.bind (liftM (Test.accept p (el, c.tests))) _
    { c with children := c.children.set c.index s' } = _
  cases Test.accept p (el, c.tests) with
  | error e => rfl
  | ok found => cases found <;> rfl

theorem attempt_ended (hs : c.children[c.index]? = some s)
    (hmove : n.advance w s = .ok false s') :
    attempt p n w c = (match w.neighbour? c.index c.children.length with
      | some i => do
        enter n w i
        return none
      | none => return some false : EStateM Error (EitherWalker σ) (Option Bool))
        { c with children := c.children.set c.index s' } := by
  have hlength : (c.children.set c.index s').length = c.children.length := List.length_set
  rw [attempt, bind_of_ok (onChild_ok hs hmove), ← hlength]
  rfl

section Attempt

variable {u u' : Track Candidate} {el : Element SearchKey}

/-- An attempt where the walker whose turn it is finds an element: it is shown unless an earlier
walker has it. -/
theorem Raw.attempt_found (hn : n.Walks (Test.accept p) S)
    (hraw : Raw S xs ls c (partOf xs ls c.index u)) (hcurrent : c.current = none)
    (hs : c.children[c.index]? = some s) (hl : ls[c.index]? = some u'.toList)
    (hinner : u.move w (Test.accept p) = (.ok (some el), u'))
    (hs' : n.advance w s = .ok true s') (hS' : S s' u' (some el)) :
    Tried (Test.accept p) w (Moving S w xs ls) (Stands S)
      (((partOf xs ls c.index u).seen w).ahead.length + turns w c) (partOf xs ls c.index u)
      (EitherWalker.attempt p n w c) := by
  have htests : c.tests = testsAt xs c.index := by rw [← hraw.evaluators]; rfl
  have hmove : (partOf xs ls c.index u).move w (Test.accept p) = _ := move_partOf
  have hnearer : ((partOf xs ls c.index u').seen w).ahead.length <
      ((partOf xs ls c.index u).seen w).ahead.length := by
    rw [ahead_partOf, ahead_partOf, List.length_append, List.length_append, List.length_map,
      List.length_map]
    exact Nat.add_lt_add_right (Track.move_some hinner) _
  rw [hinner] at hmove
  dsimp only at hmove
  rw [attempt_met hs hs' (hn.element hS'), htests]
  cases haccept : Test.accept p (el, testsAt xs c.index) with
  | error err =>
    rw [haccept] at hmove
    exact .failed hmove ⟨⟨_, _, hraw.set hS' hl c.current⟩, hcurrent⟩
  | ok found =>
    rw [haccept] at hmove
    cases found with
    | some el' => exact .moved hmove ⟨⟨_, _, hraw.set hS' hl (some el')⟩, rfl⟩
    | none =>
      refine .again hmove ?_ ⟨hraw.set hS' hl c.current, hcurrent, rfl⟩
      rw [turns_set]
      exact Nat.add_lt_add_right hnearer _

/-- An attempt where the walker whose turn it is has come to its end: its neighbour gets the turn,
if there is one. -/
theorem Raw.attempt_ended (hn : n.Walks (Test.accept p) S)
    (hraw : Raw S xs ls c (partOf xs ls c.index u)) (hcurrent : c.current = none)
    (hs : c.children[c.index]? = some s) (hl : ls[c.index]? = some u.toList)
    (hinner : u.move w (Test.accept p) = (.ok none, u.outset w.opposite))
    (hs' : n.advance w s = .ok false s') (hS' : S s' (u.outset w.opposite) none) :
    Tried (Test.accept p) w (Moving S w xs ls) (Stands S)
      (((partOf xs ls c.index u).seen w).ahead.length + turns w c) (partOf xs ls c.index u)
      (EitherWalker.attempt p n w c) := by
  have hl' : ls[c.index]? = some (u.outset w.opposite).toList := by rw [Track.toList_outset, hl]
  have hmove : (partOf xs ls c.index u).move w (Test.accept p) = _ := move_partOf
  rw [hinner] at hmove
  dsimp only at hmove
  have hnil : ((partOf xs ls c.index (u.outset w.opposite)).seen w).ahead = _ := ahead_partOf_end
  have hi := hraw.index_lt
  have hlength : (parts xs ls).length = c.children.length :=
    length_parts.trans hraw.children.length_eq.symm
  have hset := hraw.set hS' hl' c.current
  rw [EitherWalker.attempt_ended hs hs']
  cases hturn : w.neighbour? c.index c.children.length with
  | none =>
    have hbeyond := Track.beyond_of_neighbour (w := w) (hlength ▸ hi) (hlength.symm ▸ hturn)
    have hhere : (partOf xs ls c.index (u.outset w.opposite)).here = none := by
      show (u.outset w.opposite).here.map _ = none
      rw [Track.here_outset]
      rfl
    have hstands : Raw S xs ls { c with children := c.children.set c.index s' }
        ((partOf xs ls c.index (u.outset w.opposite)).stepOn w) := by
      rwa [Track.stepOn_self (hnil.trans hbeyond) hhere]
    rw [Track.move_nil (hnil.trans hbeyond)] at hmove
    exact .moved hmove ⟨⟨xs, ls, hstands⟩, hcurrent⟩
  | some j =>
    obtain ⟨hj, hturns⟩ := Way.turns_neighbour hi hturn
    obtain ⟨l, hlj⟩ : ∃ l, ls[j]? = some l :=
      ⟨_, List.getElem?_eq_getElem (hraw.children.length_eq ▸ hj)⟩
    obtain ⟨c', hc', hraw', hindex, hcurrent', hchildren⟩ := hset.enter hn (w := w) hlj
    have hjoint : partOf xs ls c.index (u.outset w.opposite) = _ :=
      partOf_joint hl (hraw.children.length_eq ▸ hturn) hlj
    dsimp only
    rw [bind_of_ok hc']
    refine .again (hmove.trans (congrArg (Track.move w _) hjoint)) ?_
      ⟨hraw', hcurrent'.trans hcurrent, rfl⟩
    rw [← hjoint, hnil, ahead_partOf, List.length_append]
    have hfewer : turns w c' < turns w c := by
      rw [turns, turns, hindex, hchildren, List.length_set]
      exact hturns
    omega

end Attempt

theorem Moving.attempt (hn : n.Walks (Test.accept p) S) {k : Nat} (h : Moving S w xs ls k c t) :
    Tried (Test.accept p) w (Moving S w xs ls) (Stands S) k t (attempt p n w c) := by
  obtain ⟨hraw, hcurrent, rfl⟩ := h
  obtain ⟨s, u, e, hs, hS, hl, rfl⟩ := hraw.place
  have hlands := hn.advance w hS
  have hlist : (u.move w (Test.accept p)).2.toList = u.toList := Track.toList_move
  cases hinner : u.move w (Test.accept p) with
  | mk r u' =>
    rw [hinner] at hlands hlist
    have hl' : ls[c.index]? = some u'.toList := hlist ▸ hl
    cases r with
    | error err =>
      have hmove : (partOf xs ls c.index u).move w (Test.accept p) = _ := move_partOf
      rw [hinner] at hmove
      obtain ⟨s', hs', hS'⟩ := hlands.of_error
      have hattempt : EitherWalker.attempt p n w c =
          .error err { c with children := c.children.set c.index s' } := by
        rw [EitherWalker.attempt, bind_of_error (onChild_error hs hs')]
      rw [hattempt]
      exact .failed hmove ⟨⟨_, _, hraw.set hS' hl' c.current⟩, hcurrent⟩
    | ok found =>
      obtain ⟨s', hs', hS'⟩ := hlands.of_ok
      cases found with
      | some el => exact hraw.attempt_found hn hcurrent hs hl' hinner hs' hS'
      | none =>
        obtain ⟨-, rfl⟩ := Track.move_none hinner
        exact hraw.attempt_ended hn hcurrent hs hl hinner hs' hS'

/-- The sizes of the walkers inside count all candidates and all turns. -/
theorem length_parts_le (hn : n.Walks (Test.accept p) S) {ss : List σ}
    (h : List.Forall₂ (Has S) ss ls) :
    (parts xs ls).flatten.length + ss.length ≤ ss.foldr (fun s m => n.size s + 1 + m) 0 := by
  have hlength : (parts xs ls).flatten.length = ls.flatten.length := by
    rw [List.length_flatten, List.length_flatten, parts]
    congr 1
    refine List.ext_getElem? fun i => ?_
    rw [List.getElem?_map, List.getElem?_map, List.getElem?_mapIdx]
    cases ls[i]? with
    | none => rfl
    | some l => exact congrArg some (List.length_map _)
  rw [hlength]
  clear hlength
  induction h with
  | nil => exact Nat.le_refl 0
  | cons hs _ ih =>
    obtain ⟨u, e, hS, rfl⟩ := hs
    have := hn.size hS
    rw [Track.length] at this
    rw [List.flatten_cons, List.length_append, List.length_cons, List.foldr_cons]
    omega

theorem Raw.length_le (hn : n.Walks (Test.accept p) S) (h : Raw S xs ls c t) :
    t.length + c.children.length ≤ size n c := by
  rw [Track.length, h.toList]
  exact length_parts_le hn h.children

theorem walks (hn : n.Walks (Test.accept p) S) :
    (navigation p n).Walks (Test.accept p) (Stands S) where
  isOpen := by
    rintro c _ _ ⟨⟨_, _, hraw⟩, _⟩
    exact hraw.isOpen
  size := by
    rintro c _ _ ⟨⟨_, _, hraw⟩, _⟩
    exact Nat.le_trans (Nat.le_add_right ..) (hraw.length_le hn)
  restart := by
    rintro c t _ w ⟨⟨xs, ls, hraw⟩, _⟩
    have hrestart : (navigation p n).restart w c =
        enter n w (w.first c.children.length) { c with current := none } := by
      cases w with
      | forward => exact bind_of_ok (ensureOpen_ok hraw.isOpen _)
      | backward => exact bind_of_ok (ensureOpen_ok hraw.isOpen _)
    have hlength := hraw.children.length_eq
    have hfirst : w.first c.children.length < ls.length := by
      have hi := hraw.index_lt
      rw [hlength] at hi ⊢
      cases w with
      | forward => exact Nat.zero_lt_of_lt hi
      | backward => exact Nat.sub_one_lt_of_lt hi
    obtain ⟨l, hl⟩ : ∃ l, ls[w.first c.children.length]? = some l :=
      ⟨_, List.getElem?_eq_getElem hfirst⟩
    obtain ⟨c', hc', hraw', _, hcurrent, _⟩ := (hraw.left none).enter hn (w := w) hl
    refine ⟨c', hrestart.trans hc', ⟨xs, ls, ?_⟩, hcurrent⟩
    have hpart : (parts xs ls)[w.first (parts xs ls).length]? = _ :=
      length_parts.symm ▸ hlength ▸ getElem?_parts hl
    have hstart := Track.inPart_first hpart
    rw [length_parts, ← hlength, ← Track.start_map, Track.outset_map] at hstart
    rwa [Track.outset_congr (hraw.toList.trans (Track.toList_start _).symm), ← hstart]
  advance := by
    rintro c t _ w ⟨⟨xs, ls, hraw⟩, _⟩
    have hadvance : (navigation p n).advance w c =
        rounds (attempt p n w) (size n c + 1) { c with current := none } := by
      cases w with
      | forward => exact bind_of_ok (ensureOpen_ok hraw.isOpen _)
      | backward => exact bind_of_ok (ensureOpen_ok hraw.isOpen _)
    have hmoving : Moving S w xs ls _ { c with current := none } t := ⟨hraw.left none, rfl, rfl⟩
    rw [hadvance]
    refine lands_rounds (Moving.attempt hn) hmoving (Nat.lt_succ_of_le ?_)
    have hsize : t.length + c.children.length ≤ size n c := hraw.length_le hn
    exact Nat.le_trans (Nat.add_le_add (Track.length_ahead_le t) (hraw.left none).turns_le) hsize
  element := by
    rintro ⟨children, evaluators, index, current, closed⟩ _ _ ⟨⟨_, _, hraw⟩, rfl⟩
    obtain rfl : closed = false := hraw.isOpen
    cases current <;> rfl
  available := by
    rintro c _ _ ⟨⟨_, _, hraw⟩, rfl⟩
    show (!c.closed && c.current.isSome) = _
    rw [hraw.isOpen]
    rfl

end EitherWalker

end Directory
