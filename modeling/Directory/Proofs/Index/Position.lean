import Directory.Proofs.Cursor.Position
import Directory.Proofs.Index.Walker

/-!
# Cursors and walkers over an index

A cursor over an index holds the list of its tuples; a walker looks its neighbours up in the tables.

* `IndexCursor.walks`, `IndexWalker.walks`: both walk the tuples in their order.
* `Index.walker_agrees`: **a walker and a cursor over an index show the same**, whatever the
  movements are.
-/

namespace Directory

variable {κ : Type} [Ord κ]

namespace IndexCursor

/-- The cursor is open and at the place of the track of tuples, on the tuple there if there is one. -/
inductive Stands : IndexCursor κ → Track (Element κ × Unit) → Option (Element κ) → Prop
  | intro {d : Direction} {u : Track (κ × EntryId)} :
      Stands ⟨d, u.map candidate, u.here.map fun x => (candidate x).1, false⟩ (u.map candidate)
        (u.here.map fun x => (candidate x).1)

omit [Ord κ] in
theorem move_candidate {u : Track (κ × EntryId)} {w : Way} :
    (u.map candidate).move w accept =
      (.ok ((u.stepOn w).here.map fun x => (candidate x).1), (u.stepOn w).map candidate) :=
  Track.move_kept fun _ => rfl

theorem walks : (@navigation κ _).Walks accept Stands where
  isOpen h := by
    cases h
    rfl
  size h := by
    cases h
    exact Nat.le_refl _
  restart w h := by
    cases h with
    | @intro d u =>
      refine ⟨⟨d, (u.outset w).map candidate, none, false⟩, ?_, ?_⟩
      · rw [← Track.outset_map]
        cases w <;> rfl
      · have hstands := Stands.intro (d := d) (u := u.outset w)
        have hhere : (u.outset w).here = none := Track.here_outset
        rw [hhere] at hstands
        rwa [Track.outset_map]
  advance w h := by
    cases h with
    | @intro d u =>
      have hadvance : navigation.advance w
          ⟨d, u.map candidate, u.here.map fun x => (candidate x).1, false⟩ =
            lift (Cursor.land ((u.map candidate).move w accept))
              ⟨d, u.map candidate, u.here.map fun x => (candidate x).1, false⟩ := by
        cases w <;> rfl
      rw [hadvance, move_candidate]
      exact .moved .intro
  element h := by
    cases h with
    | @intro d u =>
      obtain ⟨behind, here, ahead⟩ := u
      cases here <;> rfl
  available h := by
    cases h
    rfl

end IndexCursor

namespace IndexWalker

/-- The walker stands for the track of its tuples as candidates. -/
def Stands (c : IndexWalker κ) (t : Track (Element κ × Unit)) (e : Option (Element κ)) : Prop :=
  ∃ u, c.At u ∧ t = u.map IndexCursor.candidate ∧
    e = u.here.map fun x => (IndexCursor.candidate x).1

theorem advance_eq (w : Way) : (@navigation κ _).advance w = IndexWalker.advance w := by
  cases w <;> rfl

theorem At.restart {c : IndexWalker κ} {u : Track (κ × EntryId)} (h : c.At u) (w : Way) :
    ∃ c', navigation.restart w c = .ok () c' ∧ c'.At (u.outset w) ∧ c'.tables = c.tables ∧
      c'.direction = c.direction := by
  have hrestart : navigation.restart w c = .ok () { c with place := .start w } := by
    obtain ⟨tables, direction, place, closed⟩ := c
    obtain rfl : closed = false := h.isOpen
    cases w <;> rfl
  exact ⟨_, hrestart, h.goTo Track.toList_outset (Place.outset_at u), rfl, rfl⟩

variable [Std.TransOrd κ] [Std.LawfulEqOrd κ]

theorem walks : (@navigation κ _).Walks IndexCursor.accept Stands where
  isOpen := by
    rintro c _ _ ⟨u, hat, rfl, rfl⟩
    exact hat.isOpen
  size := by
    rintro c _ _ ⟨u, hat, rfl, rfl⟩
    rw [Track.length, Track.toList_map, hat.list, List.length_map]
    exact Nat.le_refl _
  restart := by
    rintro c _ _ w ⟨u, hat, rfl, rfl⟩
    obtain ⟨c', hc', hat', _⟩ := hat.restart w
    refine ⟨c', hc', u.outset w, hat', ?_, ?_⟩
    · rw [Track.outset_map]
    · rw [Track.here_outset]
      rfl
  advance := by
    rintro c _ _ w ⟨u, hat, rfl, rfl⟩
    obtain ⟨c', hc', hat', _⟩ := hat.advance w
    rw [IndexCursor.move_candidate, advance_eq, hc', ← Option.isSome_map]
    exact .moved ⟨_, hat', rfl, rfl⟩
  element := by
    rintro c _ _ ⟨u, hat, rfl, rfl⟩
    rw [show navigation.element c = IndexWalker.element c from rfl, hat.element]
    cases u.here <;> rfl
  available := by
    rintro c _ _ ⟨u, hat, rfl, rfl⟩
    rw [Option.isSome_map]
    exact hat.available

end IndexWalker

/-- **Walkers and cursors over an index show the same.** Whatever the movements are, a caller sees
the same of a walker that looks each tuple up and of a cursor that holds their list. -/
theorem Index.walker_agrees [Std.TransOrd κ] [Std.LawfulEqOrd κ] (x : Index κ) (d : Direction)
    (ms : List Movement) :
    IndexWalker.navigation.trace ms (x.walker d) = IndexCursor.navigation.trace ms (x.cursor d) := by
  have hwalker : (x.walker d).Stands (.start ((x.tables.tuples d).map IndexCursor.candidate)) none :=
    ⟨.start (x.tables.tuples d), ⟨rfl, Track.toList_start _, .beforeFirst⟩, rfl, rfl⟩
  have hcursor : (x.cursor d).Stands (.start ((x.tables.tuples d).map IndexCursor.candidate)) none :=
    .intro (u := .start (x.tables.tuples d))
  exact IndexWalker.walks.trace_eq IndexCursor.walks hwalker hcursor ms

end Directory
