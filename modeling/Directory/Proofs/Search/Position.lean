import Directory.Proofs.Cursor.Position
import Directory.Proofs.Search.Alike
import Directory.Proofs.Search.Walk

/-!
# Walkers of filters as positions

* `Partition.Reachable.walker_agrees`: **the walker of a filter and its search cursor show the
  same**, whatever the movements are.
* `Partition.Reachable.cursor_position`: **the walker of a filter moves like a position in the list
  of entries that a walk to the end gives**, whichever way it is moved and turned round.
-/

namespace Directory

namespace SearchCursor

/-- The cursor is open and at the place of the track, and this is what was found there. -/
inductive Stands : SearchCursor → Track Candidate → Option (Element SearchKey) → Prop
  | intro {seeking : Seeking} {t : Track Candidate} {e : Option (Element SearchKey)} :
      Stands ⟨seeking, t, e, false⟩ t e

theorem Stands.fresh {c : SearchCursor} (h : c.cursor = .ofList c.candidates) :
    c.Stands (.start c.candidates) none := by
  obtain ⟨seeking, cursor⟩ := c
  show Stands ⟨seeking, cursor⟩ _ _
  rw [show cursor = _ from h]
  exact .intro

theorem lands_land {c : SearchCursor} {t : Track Candidate} {e : Option (Element SearchKey)}
    (h : c.Stands t e) (moved : Except Error (Option (Element SearchKey)) × Track Candidate) :
    Lands Stands moved (lift (Cursor.land moved) c) := by
  cases h
  obtain ⟨found | err, t'⟩ := moved
  · exact .failed .intro
  · exact .moved .intro

theorem walks (p : Partition) : (navigation p).Walks (Test.accept p) Stands where
  isOpen h := by
    cases h
    rfl
  size h := by
    cases h
    exact Nat.le_refl _
  restart w h := by
    cases h
    cases w with
    | forward => exact ⟨_, rfl, .intro⟩
    | backward => exact ⟨_, rfl, .intro⟩
  advance {c t e} w h := by
    have hlands := lands_land h (t.move w (Test.accept p))
    cases h
    cases w with
    | forward => exact hlands
    | backward => exact hlands
  element {c t e} h := by
    cases h
    cases e <;> rfl
  available h := by
    cases h
    rfl

end SearchCursor

namespace Partition

/-- **Walkers and search cursors show the same.** For a filter, either neither can be built, with
the same error, or whatever the movements are, a caller sees the same of both, errors included. -/
theorem Reachable.walker_agrees {p : Partition} (hp : p.Reachable) (f : Filter) :
    (∃ e, SearchCursor.ofFilter p f = .error e ∧ Walker.ofFilter p f = .error e) ∨
      ∃ c w, SearchCursor.ofFilter p f = .ok c ∧ Walker.ofFilter p f = .ok w ∧
        ∀ ms, (SearchCursor.navigation p).trace ms c =
          (Walker.navigation p f.depth).trace ms w := by
  obtain ⟨n, hvalued⟩ := hp.valued
  have halike := Walker.build_alike (hvalued.sound.names .aliasTarget) f f.depth (Nat.le_refl _)
  show (∃ e, _ ∧ Walker.build p f f.depth _ = _) ∨ ∃ c w, _ ∧ Walker.build p f f.depth _ = _ ∧ _
  generalize SearchCursor.ofFilter p f = r at halike
  generalize Walker.build p f f.depth (Nat.le_refl _) = r' at halike
  cases halike with
  | failed e => exact .inl ⟨e, rfl, rfl⟩
  | @built c w hfresh hstands =>
    exact .inr ⟨c, w, rfl, rfl,
      (SearchCursor.walks p).trace_eq (Walker.walks p f.depth) (.fresh hfresh) hstands⟩

/-- **The walker of a filter moves like a position in a list.** The filter is in normal form and
carries any estimates, and its walker can be built. If the test for no part of it fails on a stored
record, a walk from the fresh walker to the end gives a list of entries. Whenever such a walk gives
a list, any movements from the fresh walker show after each step what a position in this list shows:
the answer of the movement, whether the walker stands on an element, and the entry there or the
refusal to give one. A walk from the end to the start gives the list in reverse, also after any
movements. -/
theorem Reachable.cursor_position {p : Partition} (hp : p.Reachable) {g f f' : Filter}
    {c : Walker f'.depth} (hf : g.normalize p.schema = .ok f) (hestimates : f'.bare = f.bare)
    (hc : Walker.ofFilter p f' = .ok c) :
    ((∀ h : Filter, h.Part f' → h.Answered p) →
      ∃ ids c', (Walker.navigation p f'.depth).collect c = .ok ids c') ∧
    ∀ ids c', (Walker.navigation p f'.depth).collect c = .ok ids c' → ∀ ms, ∃ c₁ c₂,
      (Walker.navigation p f'.depth).reports ms c = .ok (reportsOver ids 0 ms) c₁ ∧
      (Walker.navigation p f'.depth).collectReverse c₁ = .ok ids.reverse c₂ := by
  obtain ⟨n, hvalued⟩ := hp.valued
  have hwalks := Walker.walks p f'.depth
  obtain ⟨d, hd, hstands⟩ := Walker.exists_cursor hvalued hc
  constructor
  · intro hanswered
    obtain ⟨_, _, hreached⟩ := hp
    obtain ⟨x, _, hfinds, _⟩ := SearchCursor.ofFilter_serves hvalued hreached.arranged f'
      (Filter.normalize_isNormal hf hestimates) hanswered d hd
    obtain ⟨es, hes, _⟩ := Test.keeps hfinds.sure
    have hplace : AtPosition (Test.accept p) (Walker.Stands f'.depth) es 0 c :=
      ⟨_, _, hstands, .front hes⟩
    obtain ⟨c', hc'⟩ := hwalks.collect hplace
    exact ⟨_, c', hc'⟩
  · intro ids c' hcollect ms
    obtain ⟨es, rfl, hplace⟩ := hwalks.atPosition_of_collect hstands hcollect
    obtain ⟨c₁, k, hc₁, hplace₁⟩ := hwalks.reports hplace ms
    obtain ⟨c₂, hc₂⟩ := hwalks.collectReverse hplace₁
    exact ⟨c₁, c₂, hc₁, hc₂⟩

/-- Two conditions in turn give the person and the suffix. The walker turns round between them, and
after it has run off the end. -/
theorem cursor_position_sample : ∃ c c' c₁ c₂,
    Walker.ofFilter Sample.partition (Sample.filter "anna lee" (some 7)) = .ok c ∧
    (Walker.navigation Sample.partition _).collect c = .ok [4, 1] c' ∧
    (Walker.navigation Sample.partition _).reports
        [.next, .next, .previous, .last, .next, .next, .previous] c =
      .ok (reportsOver [4, 1] 0 [.next, .next, .previous, .last, .next, .next, .previous]) c₁ ∧
    (Walker.navigation Sample.partition _).collectReverse c₁ = .ok [1, 4] c₂ := by
  obtain ⟨hf, _⟩ := Sample.filter_built
  have hbare : (Sample.filter "anna lee" (some 7)).bare =
      (Sample.filter "anna lee" none).bare := rfl
  have hlist : (Walker.ofFilter Sample.partition
      (Sample.filter "anna lee" (some 7))).toOption.map (fun c =>
        match (Walker.navigation Sample.partition _).collect c with
        | .ok ids _ => ids
        | .error _ _ => []) = some [4, 1] := by decide +kernel
  obtain ⟨c, hc, hcollected⟩ := Option.map_eq_some_iff.1 hlist
  have hc := Except.toOption_eq_some.1 hc
  obtain ⟨n, hvalued⟩ := Sample.reachable.valued
  obtain ⟨hcollects, hmoves⟩ := Reachable.cursor_position Sample.reachable hf hbare hc
  obtain ⟨ids, c', hids⟩ := hcollects fun h hpart =>
    Evaluator.answered_of_ruled hvalued Sample.reachedBy.arranged Sample.filter_ruled hpart
  rw [hids] at hcollected
  obtain rfl : ids = [4, 1] := hcollected
  obtain ⟨c₁, c₂, hc₁, hc₂⟩ := hmoves [4, 1] c' hids
    [.next, .next, .previous, .last, .next, .next, .previous]
  exact ⟨c, c', c₁, c₂, hc, hids, hc₁, hc₂⟩

end Partition

end Directory
