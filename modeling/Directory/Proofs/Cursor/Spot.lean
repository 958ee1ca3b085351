import Directory.Proofs.Cursor.Position

/-!
# Cursors as positions that can be sought

A cursor that can also seek moves like a position in a list, on an element or in a gap between two.
The elements and the gaps are numbered from the front.

* `Call`, `Navigation.answers`: what a caller can ask for, and what it is told.
* `Spot`, `answersOver`: positions, and what a caller is told of them, where `gap` tells which gap is
  sought.
* `Track.spot`: the position of a place in a list; `Track.spot_stepOn`: the step to the next element.
* `Navigation.Seeks.answers_eq`: **whatever the calls are, a caller is told what the position
  shows**, if each operation leads where the position goes.
-/

namespace Directory

/-! ## Calls -/

/-- A place that a caller can seek. -/
inductive Sought (κ : Type) where
  | before (e : Element κ)
  | after (e : Element κ)
  | beforeValue (id : Option EntryId) (key : κ)
  | afterValue (id : Option EntryId) (key : κ)
deriving DecidableEq

/-- What a caller can ask a cursor for. -/
inductive Call (κ : Type) where
  | move (m : Movement)
  | seek (q : Sought κ)
  | get
  | available
deriving DecidableEq

/-- What a caller is told. -/
inductive Answer (κ : Type) where
  | done
  | found (b : Bool)
  | element (e : Element κ)
  | standing (b : Bool)
deriving DecidableEq

/-- What `m` gives, or why it is refused. -/
def resultOf {σ α : Type} (m : EStateM Error σ α) (s : σ) : Except Error α :=
  match m s with
  | .ok a _ => .ok a
  | .error e _ => .error e

namespace Navigation

variable {σ κ : Type}

/-- Goes to the place that is sought. -/
def find (n : Navigation σ κ) : Sought κ → EStateM Error σ Unit
  | .before e => n.before e
  | .after e => n.after e
  | .beforeValue id k => n.beforeValue id k
  | .afterValue id k => n.afterValue id k

/-- Does what the caller asks for. -/
def call (n : Navigation σ κ) : Call κ → EStateM Error σ (Answer κ)
  | .move m => do return (← n.move m).elim .done .found
  | .seek q => do
    n.find q
    return .done
  | .get => do return .element (← n.element)
  | .available => do return .standing (n.available (← get))

/-- What a caller is told who goes on after refusals. -/
def answers (n : Navigation σ κ) : List (Call κ) → σ → List (Except Error (Answer κ))
  | [], _ => []
  | c :: cs, s => resultOf (n.call c) s :: answers n cs (stateAfter (n.call c) s)

/-- The state after calls, whether they succeed or are refused. -/
def stateAfterAll (n : Navigation σ κ) (cs : List (Call κ)) (s : σ) : σ :=
  cs.foldl (fun s c => stateAfter (n.call c) s) s

end Navigation

/-! ## Positions -/

/-- A position in a list: an element, or the gap in front of an element. The last gap is behind all
elements. -/
inductive Spot where
  | on (i : Nat)
  | gap (i : Nat)
deriving DecidableEq

namespace Spot

/-- The element at the position. -/
def element? {α : Type} (xs : List α) : Spot → Option α
  | on i => xs[i]?
  | gap _ => none

/-- The gap where a way starts in a list of `n` elements. -/
def outset (n : Nat) : Way → Spot
  | .forward => gap 0
  | .backward => gap n

/-- The position after a step, which is the nearest element on the way, or the gap at its end. -/
def step (n : Nat) (p : Spot) (w : Way) : Spot :=
  match w, p with
  | .forward, on i => if i + 1 < n then on (i + 1) else gap n
  | .forward, gap i => if i < n then on i else gap n
  | .backward, on i | .backward, gap i => if i = 0 then gap 0 else on (i - 1)

/-- The position after a movement. -/
def move (n : Nat) (p : Spot) : Movement → Spot
  | .beforeFirst => outset n .forward
  | .afterLast => outset n .backward
  | .first => (outset n .forward).step n .forward
  | .last => (outset n .backward).step n .backward
  | .next => p.step n .forward
  | .previous => p.step n .backward

end Spot

/-- Where a call leads from a position in a list of `n` elements. -/
def Call.target {κ : Type} (n : Nat) (gap : Sought κ → Except Error Nat) (p : Spot) : Call κ → Spot
  | move m => p.move n m
  | seek q =>
    match gap q with
    | .ok i => .gap i
    | .error _ => p
  | get | available => p

/-- What a caller is told of a position. -/
def Call.answer {κ : Type} (xs : List (Element κ)) (gap : Sought κ → Except Error Nat) (p : Spot) :
    Call κ → Except Error (Answer κ)
  | move m =>
    .ok (if m = .beforeFirst ∨ m = .afterLast then .done
      else .found ((p.move xs.length m).element? xs).isSome)
  | seek q => do
    let _ ← gap q
    return .done
  | get => (p.element? xs).elim (.error (.notPositioned "get()")) (.ok ∘ .element)
  | available => .ok (.standing (p.element? xs).isSome)

/-- What a caller is told of calls, one after another, from a position on. -/
def answersOver {κ : Type} (xs : List (Element κ)) (gap : Sought κ → Except Error Nat) (p : Spot) :
    List (Call κ) → List (Except Error (Answer κ))
  | [] => []
  | c :: cs => c.answer xs gap p :: answersOver xs gap (c.target xs.length gap p) cs

/-! ## Places in a list -/

namespace Track

variable {α : Type} {t : Track α} {w : Way}

/-- The position of the place. -/
def spot (t : Track α) : Spot :=
  match t.here with
  | some _ => .on t.behind.length
  | none => .gap t.behind.length

theorem spot_of_here (h : t.here = none) : t.spot = .gap t.behind.length := by
  rw [spot, h]

theorem element?_spot (t : Track α) : t.spot.element? t.toList = t.here := by
  obtain ⟨behind, here, ahead⟩ := t
  cases here with
  | none => rfl
  | some x => simp [spot, Spot.element?, toList]

theorem spot_outset : (t.outset w).spot = .outset t.toList.length w := by
  cases w with
  | forward => rfl
  | backward =>
    show Spot.gap t.toList.reverse.length = _
    rw [List.length_reverse]
    rfl

/-- A step leads to the nearest element on the way. -/
theorem spot_stepOn : (t.stepOn w).spot = t.spot.step t.toList.length w := by
  obtain ⟨behind, here, ahead⟩ := t
  cases w with
  | forward =>
    cases here <;> cases ahead <;> simp [stepOn, seen, step, spot, Spot.step, toList]
  | backward =>
    cases here <;> cases behind <;> simp [stepOn, seen, step, mirror, spot, Spot.step]

end Track

/-! ## Cursors at positions -/

section Seeks

variable {σ κ : Type} {n : Navigation σ κ} {xs : List (Element κ)}
  {gap : Sought κ → Except Error Nat} {R : σ → Track (Element κ) → Prop} {s : σ}
  {t : Track (Element κ)}

/-- The operations are those of a place in a list; the relation tells which states stand for which
places. -/
structure Navigation.Seeks (n : Navigation σ κ) (xs : List (Element κ))
    (gap : Sought κ → Except Error Nat) (R : σ → Track (Element κ) → Prop) : Prop where
  list : ∀ {s t}, R s t → t.toList = xs
  restart : ∀ {s t} (w : Way), R s t → ∃ s', n.restart w s = .ok () s' ∧ R s' (t.outset w)
  advance : ∀ {s t} (w : Way), R s t →
    ∃ s', n.advance w s = .ok (t.stepOn w).here.isSome s' ∧ R s' (t.stepOn w)
  find : ∀ {s t} (q : Sought κ), R s t →
    match gap q with
    | .ok i => ∃ s' u, n.find q s = .ok () s' ∧ R s' u ∧ u.here = none ∧ u.behind.length = i
    | .error e => n.find q s = .error e s
  element : ∀ {s t}, R s t → n.element s = t.here.elim (.error (.notPositioned "get()") s) (.ok · s)
  available : ∀ {s t}, R s t → n.available s = t.here.isSome

theorem resultOf_ok {α : Type} {m : EStateM Error σ α} {a : α} {s' : σ} (h : m s = .ok a s') :
    resultOf m s = .ok a ∧ stateAfter m s = s' := by
  rw [resultOf, stateAfter, h]
  exact ⟨rfl, rfl⟩

theorem resultOf_error {α : Type} {m : EStateM Error σ α} {e : Error} {s' : σ}
    (h : m s = .error e s') : resultOf m s = .error e ∧ stateAfter m s = s' := by
  rw [resultOf, stateAfter, h]
  exact ⟨rfl, rfl⟩

namespace Navigation.Seeks

theorem move (hn : n.Seeks xs gap R) (h : R s t) (m : Movement) :
    ∃ s' u, n.move m s = .ok (if m = .beforeFirst ∨ m = .afterLast then none
        else some u.here.isSome) s' ∧ R s' u ∧ u.spot = t.spot.move xs.length m := by
  obtain ⟨s₁, hs₁, hfront⟩ := hn.restart .forward h
  obtain ⟨s₂, hs₂, hbehind⟩ := hn.restart .backward h
  have hbeforeFirst : n.beforeFirst s = .ok () s₁ := hs₁
  have hafterLast : n.afterLast s = .ok () s₂ := hs₂
  have hlength := congrArg List.length (hn.list h)
  cases m with
  | beforeFirst => exact ⟨s₁, _, bind_of_ok hbeforeFirst, hfront, hlength ▸ Track.spot_outset⟩
  | afterLast => exact ⟨s₂, _, bind_of_ok hafterLast, hbehind, hlength ▸ Track.spot_outset⟩
  | first =>
    obtain ⟨s', hs', hplace⟩ := hn.advance .forward hfront
    refine ⟨s', _, map_of_ok ((bind_of_ok hbeforeFirst).trans hs'), hplace, ?_⟩
    rw [Track.spot_stepOn, Track.spot_outset, hn.list hfront, hn.list h]
    rfl
  | last =>
    obtain ⟨s', hs', hplace⟩ := hn.advance .backward hbehind
    refine ⟨s', _, map_of_ok ((bind_of_ok hafterLast).trans hs'), hplace, ?_⟩
    rw [Track.spot_stepOn, Track.spot_outset, hn.list hbehind, hn.list h]
    rfl
  | next =>
    obtain ⟨s', hs', hplace⟩ := hn.advance .forward h
    exact ⟨s', _, map_of_ok hs', hplace, hlength ▸ Track.spot_stepOn⟩
  | previous =>
    obtain ⟨s', hs', hplace⟩ := hn.advance .backward h
    exact ⟨s', _, map_of_ok hs', hplace, hlength ▸ Track.spot_stepOn⟩

/-- **One call.** Its answer is that of the position, and it leads where the position goes. -/
theorem call (hn : n.Seeks xs gap R) (h : R s t) (c : Call κ) :
    ∃ u, resultOf (n.call c) s = c.answer xs gap t.spot ∧ R (stateAfter (n.call c) s) u ∧
      u.spot = c.target xs.length gap t.spot := by
  have hhere {s : σ} {u : Track (Element κ)} (h : R s u) : u.spot.element? xs = u.here :=
    hn.list h ▸ u.element?_spot
  cases c with
  | move m =>
    obtain ⟨s', u, hm, hu, hspot⟩ := hn.move h m
    have hcall : n.call (.move m) s = .ok (if m = .beforeFirst ∨ m = .afterLast then .done
        else .found ((t.spot.move xs.length m).element? xs).isSome) s' := by
      refine (bind_of_ok hm).trans ?_
      rw [← hspot, hhere hu]
      split <;> rfl
    obtain ⟨hresult, hstate⟩ := resultOf_ok hcall
    exact ⟨u, hresult, hstate ▸ hu, hspot⟩
  | seek q =>
    have hfind := hn.find q h
    cases hgap : gap q with
    | ok i =>
      rw [hgap] at hfind
      obtain ⟨s', u, hq, hu, hnone, hbehind⟩ := hfind
      obtain ⟨hresult, hstate⟩ := resultOf_ok (m := n.call (.seek q)) (bind_of_ok hq)
      refine ⟨u, ?_, hstate ▸ hu, ?_⟩
      · rw [hresult, Call.answer, hgap]
        rfl
      · rw [Call.target, hgap, Track.spot_of_here hnone, hbehind]
    | error e =>
      rw [hgap] at hfind
      have hcall : n.call (.seek q) s = .error e s := bind_of_error hfind
      obtain ⟨hresult, hstate⟩ := resultOf_error hcall
      refine ⟨t, ?_, by rwa [hstate], ?_⟩
      · rw [hresult, Call.answer, hgap]
        rfl
      · rw [Call.target, hgap]
  | get =>
    have hcall : n.call .get s =
        t.here.elim (.error (.notPositioned "get()") s) fun e => .ok (.element e) s := by
      show EStateM.bind n.element _ s = _
      rw [EStateM.bind, hn.element h]
      cases t.here <;> rfl
    refine ⟨t, ?_, ?_, rfl⟩
    · rw [resultOf, hcall, Call.answer, hhere h]
      cases t.here <;> rfl
    · have hstate : stateAfter (n.call .get) s = s := by
        rw [stateAfter, hcall]
        cases t.here <;> rfl
      rwa [hstate]
  | available =>
    have hcall : n.call .available s = .ok (.standing t.here.isSome) s := by
      rw [← hn.available h]
      rfl
    obtain ⟨hresult, hstate⟩ := resultOf_ok hcall
    refine ⟨t, ?_, by rwa [hstate], rfl⟩
    rw [hresult, Call.answer, hhere h]

/-- **Cursors at positions.** Whatever the calls are, a caller is told what the position shows. -/
theorem answers_eq (hn : n.Seeks xs gap R) (h : R s t) (cs : List (Call κ)) :
    n.answers cs s = answersOver xs gap t.spot cs := by
  induction cs generalizing s t with
  | nil => rfl
  | cons c cs ih =>
    obtain ⟨u, hresult, hu, hspot⟩ := hn.call h c
    rw [answers, answersOver, hresult, ih hu, hspot]

theorem stateAfterAll (hn : n.Seeks xs gap R) (h : R s t) (cs : List (Call κ)) :
    ∃ u, R (n.stateAfterAll cs s) u := by
  induction cs generalizing s t with
  | nil => exact ⟨t, h⟩
  | cons c cs ih =>
    obtain ⟨u, _, hu, _⟩ := hn.call h c
    exact ih hu

end Navigation.Seeks

end Seeks

end Directory
