import Directory.Proofs.Cursor.Turning
import Directory.Proofs.Search.Position
import Directory.Search.Results

/-!
# Turning back in walkers and results

A step from an element that finds nothing has come to an end, and the step back leads to the element
again. The results of a search also stop where their limit is reached. There only the element is
left and the place stays, so the step back leads away from it.

* `Partition.Reachable.walker_turn_back`: **the walker of a filter turns back**, either way.
* `SearchResults.Held`: results show what the tests give at their place, and bear the mark of the
  limit only where no more may be given. `SearchResults.stateAfterAll_held`: this holds after any
  calls.
* `Partition.Reachable.results_turn_back`: **a step back from a step forward that found nothing**,
  behind the end and at the limit.
* `Partition.turn_back_limit_sample`: at the limit it does not lead to the element again.
-/

namespace Directory

/-! ## Search cursors -/

theorem SearchCursor.seek_maintains {accept : Candidate → Except Error (Option (Element SearchKey))}
    (s : Seek) (id : Option EntryId) (key : SearchKey) :
    Maintains (fun c : SearchCursor => c.cursor.Held accept) (seek s id key) := by
  have hlift {α : Type} {m : EStateM Error (Cursor SearchKey (List Test)) α}
      (hm : Maintains (Cursor.Held accept) m) :
      Maintains (fun c : SearchCursor => c.cursor.Held accept) (lift m) :=
    hm.onPart (fun _ h => h) fun _ _ _ h => h
  exact .bind (hlift (Cursor.checkOpen_maintains _)) fun _ => .bind .get fun _ =>
    .bind (.lift _) fun _ => hlift (Cursor.place_maintains _)

/-! ## Results -/

namespace SearchResults

variable {p : Partition} {r r' : SearchResults}

/-- The cursor inside stands on the element that it shows, and the limit was reached at most where
no more may be given. -/
structure Held (p : Partition) (r : SearchResults) : Prop where
  cursor : r.search.cursor.Held (accept p)
  full : r.limitReached = true → r.isFull = true

theorem lift_maintains {α : Type} {m : EStateM Error SearchCursor α}
    (hm : Maintains (fun c => c.cursor.Held (accept p)) m) : Maintains (Held p) (lift m) :=
  hm.onPart (fun _ h => h.cursor) fun _ _ h hc => ⟨hc, h.full⟩

theorem liftWalk_maintains {α : Type} {m : EStateM Error (Cursor SearchKey (List Test)) α}
    (hm : Maintains (Cursor.Held (accept p)) m) : Maintains (Held p) (liftWalk m) :=
  lift_maintains (hm.onPart (fun _ h => h) fun _ _ _ h => h)

theorem liftWalk_eq {α : Type} (m : EStateM Error (Cursor SearchKey (List Test)) α)
    (r : SearchResults) :
    liftWalk m r = inside (fun k => { r with search.cursor := k }) (m r.search.cursor) := by
  rw [liftWalk, lift, onPart, SearchCursor.lift, onPart]
  cases m r.search.cursor <;> rfl

theorem seek_maintains (s : Seek) (id : Option EntryId) (key : SearchKey) :
    Maintains (Held p) (seek s id key) :=
  .bind (liftWalk_maintains (Cursor.checkOpen_maintains _)) fun _ =>
    .bind (liftWalk_maintains (Cursor.place_maintains _)) fun _ =>
      lift_maintains (SearchCursor.seek_maintains s id key)

theorem restart_maintains {m : EStateM Error (Cursor SearchKey (List Test)) Unit}
    (hm : Maintains (Cursor.Held (accept p)) m) : Maintains (Held p) (restart m) :=
  .bind (liftWalk_maintains hm) fun _ _ h => ⟨h.cursor, nofun⟩

theorem liftWalk_checkOpen (hopen : r.search.cursor.closed = false) (operation : String) :
    liftWalk (Cursor.checkOpen operation) r = .ok () r := by
  obtain ⟨⟨seeking, t, e, closed⟩, _, _, _, _⟩ := r
  obtain rfl : closed = false := hopen
  rfl

theorem current_of_element {e : Element SearchKey} {s : SearchResults}
    (h : (navigation p).element r = .ok e s) : r.search.cursor.current = some e ∧ s = r := by
  obtain ⟨⟨seeking, t, current, closed⟩, _, _, _, _⟩ := r
  cases closed with
  | true => cases h
  | false =>
    cases current with
    | none => cases h
    | some e' =>
      cases h
      exact ⟨rfl, rfl⟩

/-- A step forward at the limit leaves the element and stays at the place. -/
theorem next_of_full (hopen : r.search.cursor.closed = false) (hfull : r.isFull = true) :
    next p r = .ok false { r with
      search.cursor.current := none
      limitReached := true } := by
  rw [next, bind_of_ok (liftWalk_checkOpen hopen _)]
  show (if r.isFull then _ else _ : EStateM Error SearchResults Bool) r = _
  rw [if_pos hfull]
  rfl

theorem next_of_room (hopen : r.search.cursor.closed = false) (hroom : r.isFull = false) :
    next p r = (liftWalk (Cursor.next (accept p)) >>= fun found => do
      if found then modify fun r => { r with returned := r.returned + 1 }
      return found) r := by
  rw [next, bind_of_ok (liftWalk_checkOpen hopen _)]
  show (if r.isFull then _ else _ : EStateM Error SearchResults Bool) r = _
  rw [if_neg (Bool.eq_false_iff.1 hroom)]

theorem next_maintains : Maintains (Held p) (next p) := by
  intro r h
  cases hfull : r.isFull with
  | true =>
    rw [stateAfter, next_of_full h.cursor.isOpen hfull]
    exact ⟨⟨h.cursor.isOpen, Track.shows_none⟩, fun _ => hfull⟩
  | false =>
    rw [stateAfter, next_of_room h.cursor.isOpen hfull]
    refine Maintains.bind (liftWalk_maintains Cursor.next_maintains) (fun found => ?_) r h
    cases found with
    | false => exact .pure _
    | true =>
      refine .bind (.modify fun r h => ⟨h.cursor, fun hreached => ?_⟩) fun _ => .pure _
      obtain ⟨n, hn, hle⟩ := (Option.any_eq_true _ _).1 (h.full hreached)
      have hle := Nat.le_succ_of_le (of_decide_eq_true hle)
      exact (Option.any_eq_true _ _).2 ⟨n, hn, decide_eq_true hle⟩

/-- Results are held after any calls. -/
theorem stateAfterAll_held (cs : List (Call SearchKey)) (h : r.Held p) :
    ((navigation p).stateAfterAll cs r).Held p := by
  have hplace (operation : String) (f : Track Candidate → Track Candidate) : Maintains
      (Cursor.Held (accept p)) (Cursor.checkOpen operation >>= fun _ => Cursor.place f) :=
    .bind (Cursor.checkOpen_maintains _) fun _ => Cursor.place_maintains f
  refine Navigation.stateAfterAll_of (fun c _ => ?_) h
  cases c with
  | move m =>
    refine .bind (Navigation.move_maintains (fun w => ?_) (fun w => ?_) m) fun _ => .pure _
    · cases w with
      | forward => exact restart_maintains (hplace _ _)
      | backward => exact restart_maintains (hplace _ _)
    · cases w with
      | forward => exact next_maintains
      | backward => exact liftWalk_maintains Cursor.previous_maintains
  | seek q =>
    refine .bind ?_ fun _ => .pure _
    cases q with
    | before e => exact seek_maintains _ _ _
    | after e => exact seek_maintains _ _ _
    | beforeValue id key => exact seek_maintains _ _ _
    | afterValue id key => exact seek_maintains _ _ _
  | get => exact .bind (liftWalk_maintains Cursor.element_maintains) fun _ => .pure _
  | available => exact .bind .get fun _ => .pure _

theorem ofCursor_held {c : SearchCursor} (h : c.cursor = .ofList c.candidates)
    (limit : Option Nat) : (ofCursor c limit).Held p := by
  refine ⟨?_, nofun⟩
  show c.cursor.Held (accept p)
  rw [h]
  exact Cursor.ofList_held _

/-- **Turning back.** A step back from a step that found nothing restores the results, unless the
limit was reached. There it leads where a step back would have led at once. -/
theorem Held.turn_back (h : r.Held p) {e : Element SearchKey}
    (he : (navigation p).element r = .ok e r) (hnext : (navigation p).next r = .ok false r') :
    r'.limitReached = r.isFull ∧
      (r.isFull = false → (navigation p).previous r' = .ok true r) ∧
      (r.isFull = true → (navigation p).previous r' =
        inside (fun s => { s with limitReached := true }) ((navigation p).previous r)) := by
  have hopen := h.cursor.isOpen
  cases hfull : r.isFull with
  | true =>
    cases (next_of_full hopen hfull).symm.trans hnext
    refine ⟨rfl, nofun, fun _ => ?_⟩
    -- only the element is left, which a step back does not ask for
    show liftWalk (Cursor.previous (accept p)) _ =
      inside _ (liftWalk (Cursor.previous (accept p)) r)
    rw [liftWalk_eq, liftWalk_eq, Cursor.previous_leave hopen]
    cases Cursor.previous (accept p) r.search.cursor <;> rfl
  | false =>
    obtain ⟨k, hk, rfl⟩ : ∃ k, Cursor.next (accept p) r.search.cursor = .ok false k ∧
        { r with search.cursor := k } = r' := by
      have hstep := (next_of_room hopen hfull).symm.trans hnext
      cases hk : Cursor.next (accept p) r.search.cursor with
      | error err k =>
        rw [bind_of_error (by rw [liftWalk_eq, hk]; rfl)] at hstep
        cases hstep
      | ok found k =>
        rw [bind_of_ok (by rw [liftWalk_eq, hk]; rfl)] at hstep
        cases found with
        | true => cases hstep
        | false =>
          cases hstep
          exact ⟨k, rfl, rfl⟩
    refine ⟨Bool.eq_false_iff.2 fun hreached => ?_, fun _ => ?_, nofun⟩
    · rw [h.full hreached] at hfull
      cases hfull
    · show liftWalk (Cursor.previous (accept p)) _ = _
      rw [liftWalk_eq, h.cursor.turn_back (current_of_element he).1 hk]
      rfl

end SearchResults

/-! ## Cursors of filters -/

namespace Partition

variable {p : Partition} {f : Filter}

/-- **Walkers turn back.** After any movements of the walker of a filter, a step either way from an
element that finds nothing is undone by a step back, which leads to the element again. -/
theorem Reachable.walker_turn_back (hp : p.Reachable) {w₀ w₁ w₂ : Walker f.depth}
    (hw : Walker.ofFilter p f = .ok w₀) (ms : List Movement)
    (hms : (Walker.navigation p f.depth).stateAfterAll (ms.map .move) w₀ = w₁)
    {e : Element SearchKey} (he : (Walker.navigation p f.depth).element w₁ = .ok e w₁) {w : Way}
    (hstep : (Walker.navigation p f.depth).advance w w₁ = .ok false w₂) :
    ∃ w₃, (Walker.navigation p f.depth).advance w.opposite w₂ = .ok true w₃ ∧
      (Walker.navigation p f.depth).element w₃ = .ok e w₃ := by
  obtain ⟨n, hvalued⟩ := hp.valued
  obtain ⟨c, _, hstands⟩ := Walker.exists_cursor hvalued hw
  have hwalks := Walker.walks p f.depth
  have hheld : Shown (Test.accept p) (Walker.Stands f.depth) w₁ := by
    rw [← hms]
    refine Navigation.stateAfterAll_of (fun c hc => ?_) ⟨_, _, hstands, Track.shows_none⟩
    obtain ⟨m, _, rfl⟩ := List.mem_map.1 hc
    exact .bind (Navigation.move_maintains hwalks.restart_maintains hwalks.advance_maintains m)
      fun _ => .pure _
  exact hwalks.turn_back hheld he hstep

/-- **Results turn back.** After any calls on the results of a filter, a step forward from an
element finds nothing; it marks whether it has come to the limit. If not, a step back restores the
results and is on the element again. At the limit a step back leads where it would have led from the
element, as if the step forward had not been made; only the mark stays. -/
theorem Reachable.results_turn_back (hp : p.Reachable) {c : SearchCursor}
    (hc : SearchCursor.ofFilter p f = .ok c) (limit : Option Nat) (cs : List (Call SearchKey))
    {r r' : SearchResults}
    (hcs : (SearchResults.navigation p).stateAfterAll cs (.ofCursor c limit) = r)
    {e : Element SearchKey} (he : (SearchResults.navigation p).element r = .ok e r)
    (hnext : (SearchResults.navigation p).next r = .ok false r') :
    r'.limitReached = r.isFull ∧
      (r.isFull = false → (SearchResults.navigation p).previous r' = .ok true r) ∧
      (r.isFull = true → (SearchResults.navigation p).previous r' =
        inside (fun s => { s with limitReached := true })
          ((SearchResults.navigation p).previous r)) := by
  obtain ⟨n, hvalued⟩ := hp.valued
  have hheld : r.Held p := by
    rw [← hcs]
    exact SearchResults.stateAfterAll_held cs
      (SearchResults.ofCursor_held (Walker.cursor_fresh hvalued hc) limit)
  exact hheld.turn_back he hnext

end Partition

/-! ### The end of two results, and a limit of one -/

namespace Sample

/-- After calls the results are on an element, from which a step forward finds nothing. Then a step
back finds an element, or the limit is reached. -/
theorem exists_turn (limit : Option Nat) (cs : List (Call SearchKey)) (id : EntryId) (found : Bool)
    (h : ((SearchCursor.ofFilter partition (filter "anna lee" (some 7))).toOption.any fun c =>
      let n := SearchResults.navigation partition
      let r := n.stateAfterAll cs (.ofCursor c limit)
      match n.element r, n.next r with
      | .ok e _, .ok false r' => e.id == id && (r'.limitReached == !found &&
        match n.previous r' with
        | .ok b _ => b == found
        | .error _ _ => false)
      | _, _ => false) = true) :
    ∃ c r r' r'' e, SearchCursor.ofFilter partition (filter "anna lee" (some 7)) = .ok c ∧
      (SearchResults.navigation partition).stateAfterAll cs (.ofCursor c limit) = r ∧
      (SearchResults.navigation partition).element r = .ok e r ∧ e.id = id ∧
      (SearchResults.navigation partition).next r = .ok false r' ∧ r'.limitReached = !found ∧
      (SearchResults.navigation partition).previous r' = .ok found r'' := by
  obtain ⟨c, hc, h⟩ := (Option.any_eq_true _ _).1 h
  dsimp only at h
  split at h
  · rename_i e s r' he hnext
    obtain ⟨hid, h⟩ := Bool.and_eq_true_iff.1 h
    obtain ⟨hreached, h⟩ := Bool.and_eq_true_iff.1 h
    split at h
    · rename_i b r'' hprevious
      obtain rfl := eq_of_beq h
      obtain rfl := (SearchResults.current_of_element he).2
      exact ⟨c, _, r', r'', e, Except.toOption_eq_some.1 hc, rfl, he, eq_of_beq hid, hnext,
        eq_of_beq hreached, hprevious⟩
    · cases h
  · cases h

end Sample

namespace Partition

/-- Behind the end of two results a step back leads to the second one again. -/
theorem results_turn_back_sample : ∃ c r r' e,
    SearchCursor.ofFilter Sample.partition (Sample.filter "anna lee" (some 7)) = .ok c ∧
    (SearchResults.navigation Sample.partition).stateAfterAll [.move .next, .move .next]
      (.ofCursor c none) = r ∧
    (SearchResults.navigation Sample.partition).element r = .ok e r ∧ e.id = 1 ∧
    (SearchResults.navigation Sample.partition).next r = .ok false r' ∧
    (SearchResults.navigation Sample.partition).previous r' = .ok true r := by
  obtain ⟨c, r, r', _, e, hc, hcs, he, hid, hnext, hreached, _⟩ :=
    Sample.exists_turn none [.move .next, .move .next] 1 true (by decide +kernel)
  obtain ⟨hmark, hend, _⟩ := Reachable.results_turn_back Sample.reachable hc none _ hcs he hnext
  exact ⟨c, r, r', e, hc, hcs, he, hid, hnext, hend (hmark.symm.trans hreached)⟩

/-- At a limit of one a step back does not lead to the first result again. -/
theorem turn_back_limit_sample : ∃ c r r' r'' e, Sample.partition.Reachable ∧
    SearchCursor.ofFilter Sample.partition (Sample.filter "anna lee" (some 7)) = .ok c ∧
    (SearchResults.navigation Sample.partition).stateAfterAll [.move .next]
      (.ofCursor c (some 1)) = r ∧
    (SearchResults.navigation Sample.partition).element r = .ok e r ∧
    (SearchResults.navigation Sample.partition).next r = .ok false r' ∧
    (SearchResults.navigation Sample.partition).previous r' = .ok false r'' := by
  obtain ⟨c, r, r', r'', e, hc, hcs, he, _, hnext, _, hback⟩ :=
    Sample.exists_turn (some 1) [.move .next] 4 false (by decide +kernel)
  exact ⟨c, r, r', r'', e, Sample.reachable, hc, hcs, he, hnext, hback⟩

end Partition

end Directory
