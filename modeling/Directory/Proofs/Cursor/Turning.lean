import Directory.Proofs.Cursor.Spot

/-!
# Turning back

A step that finds nothing leads past the end, and a step back from there leads to the element that
it started from. So it is if what a cursor shows is what the tests give at its place, which all
operations maintain.

* `Track.Shows`: the test gives what is shown of the element at the place. `Track.Shows.move_back`:
  **a movement back undoes a movement that has found nothing**.
* `Navigation.stateAfterAll_of`: what each call maintains, all calls maintain.
* `Cursor.Held`: an open cursor shows what the tests give at its place.
  `Cursor.Held.turn_back`: a step back restores the cursor.
* `Shown`, `Navigation.Walks.turn_back`: the same for whatever walks a track.
-/

namespace Directory

/-! ## Places -/

section Places

variable {α β ε : Type} {keep : α → Except ε (Option β)}

namespace Track

variable {w : Way} {t u : Track α}

/-- The track is on an element of which the test keeps what is shown, if anything is shown. -/
def Shows (keep : α → Except ε (Option β)) (t : Track α) (y? : Option β) : Prop :=
  ∀ y, y? = some y → ∃ x, t.here = some x ∧ keep x = .ok (some y)

theorem shows_none : t.Shows keep none := nofun

theorem shows_of_move {y? : Option β} (h : t.move w keep = (.ok y?, u)) : u.Shows keep y? := by
  rintro y rfl
  obtain ⟨_, x, _, _, hx, hy⟩ := move_found h
  exact ⟨x, hx, hy⟩

theorem seen_opposite : t.seen w.opposite = (t.seen w).mirror := by cases w <;> rfl

theorem next_start {x : α} {y : β} (hskip : ∀ z ∈ t.behind, keep z = .ok none)
    (hx : t.here = some x) (hy : keep x = .ok (some y)) : (start t.toList).next keep = (.ok (some y), t) := by
  obtain ⟨behind, here, ahead⟩ := t
  obtain rfl : here = some x := hx
  show advance keep [] (behind.reverse ++ [x] ++ ahead) = _
  rw [List.append_assoc, advance_append fun z hz => hskip z (List.mem_reverse.1 hz),
    List.reverse_reverse, List.append_nil, List.singleton_append, advance, hy]

/-- **Turning back.** From where a movement has led that found nothing, the movement back finds what
was shown and leads back to it. -/
theorem Shows.move_back {y : β} (h : t.Shows keep (some y))
    (hmove : t.move w keep = (.ok none, u)) :
    u.move w.opposite keep = (.ok (some y), t) := by
  obtain ⟨x, hx, hy⟩ := h y rfl
  obtain ⟨hpassed, rfl⟩ := move_none hmove
  -- what lay ahead lies behind on the way back, and nothing of it is kept
  have hskip : ∀ z ∈ (t.seen w.opposite).behind, keep z = .ok none := by
    rw [seen_opposite]
    exact hpassed
  rw [outset_eq, ← toList_seen, move, seen_seen,
    next_start hskip (here_seen.trans hx) hy, seen_seen]

end Track

end Places

/-! ## Operations -/

section Operations

variable {σ ρ α κ : Type} {I : σ → Prop}

theorem Maintains.onPart {J : ρ → Prop} {part : σ → ρ} {put : σ → ρ → σ} {m : EStateM Error ρ α}
    (hm : Maintains J m) (hpart : ∀ s, I s → J (part s)) (hput : ∀ s r, I s → J r → I (put s r)) :
    Maintains I (onPart part put m) := by
  intro s h
  have hs := hm (part s) (hpart s h)
  unfold stateAfter at hs ⊢
  rw [Directory.onPart]
  cases hms : m (part s) with
  | ok a r =>
    rw [hms] at hs
    exact hput s r h hs
  | error e r =>
    rw [hms] at hs
    exact hput s r h hs

namespace Navigation

variable {n : Navigation σ κ}

theorem move_maintains (hrestart : ∀ w, Maintains I (n.restart w))
    (hadvance : ∀ w, Maintains I (n.advance w)) (m : Movement) : Maintains I (n.move m) := by
  have hbeforeFirst : Maintains I n.beforeFirst := hrestart .forward
  have hafterLast : Maintains I n.afterLast := hrestart .backward
  have hnext : Maintains I n.next := hadvance .forward
  have hprevious : Maintains I n.previous := hadvance .backward
  cases m with
  | beforeFirst => exact hbeforeFirst.bind fun _ => .pure _
  | afterLast => exact hafterLast.bind fun _ => .pure _
  | first => exact (hbeforeFirst.bind fun _ => hnext).bind fun _ => .pure _
  | last => exact (hafterLast.bind fun _ => hprevious).bind fun _ => .pure _
  | next => exact hnext.bind fun _ => .pure _
  | previous => exact hprevious.bind fun _ => .pure _

/-- **All calls.** What each call maintains holds after all of them. -/
theorem stateAfterAll_of {cs : List (Call κ)} (hcs : ∀ c ∈ cs, Maintains I (n.call c)) {s : σ}
    (h : I s) : I (n.stateAfterAll cs s) := by
  induction cs generalizing s with
  | nil => exact h
  | cons c cs ih =>
    exact ih (fun c hc => hcs c (.tail _ hc)) (hcs c (.head _) s h)

end Navigation

end Operations

/-! ## Cursors -/

namespace Cursor

variable {κ τ : Type} {accept : Element κ × τ → Except Error (Option (Element κ))}
  {c : Cursor κ τ}

/-- The cursor is open, and its element is the one that the tests give at its place. -/
structure Held (accept : Element κ × τ → Except Error (Option (Element κ))) (c : Cursor κ τ) :
    Prop where
  isOpen : c.closed = false
  shows : c.track.Shows accept c.current

theorem ofList_held (ks : List (Element κ × τ)) : (ofList ks).Held accept :=
  ⟨rfl, Track.shows_none⟩

theorem checkOpen_maintains {I : Cursor κ τ → Prop} (operation : String) :
    Maintains I (checkOpen operation) := by
  rintro ⟨t, e, closed⟩ h
  cases closed <;> exact h

theorem place_maintains (f : Track (Element κ × τ) → Track (Element κ × τ)) :
    Maintains (Held accept) (place f) := fun _ h => ⟨h.isOpen, Track.shows_none⟩

theorem element_maintains {I : Cursor κ τ → Prop} : Maintains I element := by
  refine .bind (checkOpen_maintains _) fun _ => ?_
  rintro ⟨t, e, closed⟩ h
  cases e <;> exact h

theorem land_held (h : c.Held accept) (w : Way) :
    (stateAfter (land (c.track.move w accept)) c).Held accept := by
  cases hmove : c.track.move w accept with
  | mk r t =>
    cases r with
    | error e => exact ⟨h.isOpen, Track.shows_none⟩
    | ok found => exact ⟨h.isOpen, Track.shows_of_move hmove⟩

theorem next_maintains : Maintains (Held accept) (next accept) :=
  .bind (checkOpen_maintains _) fun _ _ h => land_held h .forward

theorem previous_maintains : Maintains (Held accept) (previous accept) :=
  .bind (checkOpen_maintains _) fun _ _ h => land_held h .backward

/-- **Turning back.** A step back from a step that found nothing restores the cursor. -/
theorem Held.turn_back (h : c.Held accept) {e : Element κ} (he : c.current = some e)
    {c' : Cursor κ τ} (hnext : next accept c = .ok false c') : previous accept c' = .ok true c := by
  have hshows := h.shows
  obtain ⟨t, current, closed⟩ := c
  obtain rfl : closed = false := h.isOpen
  obtain rfl : current = some e := he
  have hland : land (t.move .forward accept) ⟨t, some e, false⟩ = .ok false c' := hnext
  cases hmove : t.move .forward accept with
  | mk r u =>
    rw [hmove] at hland
    cases r with
    | error err => cases hland
    | ok found =>
      cases found with
      | some e' => cases hland
      | none =>
        cases hland
        show land (u.move .backward accept) ⟨u, none, false⟩ = _
        rw [show u.move .backward accept = _ from hshows.move_back hmove]
        rfl

theorem previous_leave (hopen : c.closed = false) :
    previous accept { c with current := none } = previous accept c := by
  obtain ⟨t, e, closed⟩ := c
  obtain rfl : closed = false := hopen
  show land (t.previous accept) _ = land (t.previous accept) _
  obtain ⟨found | err, u⟩ := t.previous accept
  · rfl
  · rfl

end Cursor

section Walks

variable {σ κ τ : Type} {accept : Element κ × τ → Except Error (Option (Element κ))}
  {S : Standing σ κ τ}

/-- The state stands for a track, and for the element that the tests give at its place. -/
def Shown (accept : Element κ × τ → Except Error (Option (Element κ))) (S : Standing σ κ τ)
    (s : σ) : Prop :=
  ∃ t e, S s t e ∧ t.Shows accept e

namespace Navigation.Walks

variable {n : Navigation σ κ} {s s' : σ} {e : Element κ}

theorem restart_maintains (hn : n.Walks accept S) (w : Way) :
    Maintains (Shown accept S) (n.restart w) := by
  rintro s ⟨t, e, hS, _⟩
  obtain ⟨s', hs', hS'⟩ := hn.restart w hS
  rw [stateAfter, hs']
  exact ⟨_, _, hS', Track.shows_none⟩

theorem advance_maintains (hn : n.Walks accept S) (w : Way) :
    Maintains (Shown accept S) (n.advance w) := by
  rintro s ⟨t, e, hS, _⟩
  have hlands := hn.advance w hS
  cases hmove : t.move w accept with
  | mk r u =>
    rw [hmove] at hlands
    cases r with
    | error err =>
      obtain ⟨s', hs', hS'⟩ := hlands.of_error
      rw [stateAfter, hs']
      exact ⟨_, _, hS', Track.shows_none⟩
    | ok found =>
      obtain ⟨s', hs', hS'⟩ := hlands.of_ok
      rw [stateAfter, hs']
      exact ⟨_, _, hS', Track.shows_of_move hmove⟩

/-- **Turning back.** A step back from a step that found nothing leads to the element again. -/
theorem turn_back (hn : n.Walks accept S) (h : Shown accept S s) (he : n.element s = .ok e s)
    {w : Way} (hstep : n.advance w s = .ok false s') :
    ∃ s'', n.advance w.opposite s' = .ok true s'' ∧ n.element s'' = .ok e s'' := by
  obtain ⟨t, e?, hS, hshows⟩ := h
  obtain rfl : e? = some e := by
    cases e? with
    | none => cases (hn.element hS).symm.trans he
    | some x =>
      cases (hn.element hS).symm.trans he
      rfl
  have hlands := hn.advance w hS
  rw [hstep] at hlands
  cases hmove : t.move w accept with
  | mk r u =>
    rw [hmove] at hlands
    generalize hb : false = b at hlands
    cases hlands with
    | @moved found _ _ hS' =>
      cases found with
      | some x => cases hb
      | none =>
        have hback := hn.advance w.opposite hS'
        rw [hshows.move_back hmove] at hback
        obtain ⟨s'', hs'', hS''⟩ := hback.of_ok
        exact ⟨s'', hs'', hn.element hS''⟩

end Navigation.Walks

end Walks

end Directory
