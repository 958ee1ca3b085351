import Directory.Proofs.Filter.Parts

/-!
# Estimates in exact arithmetic

Estimates are added in words that stop at their greatest value, and cut down to a smaller one at
every node. Both may be left to the end.

* `Partition.tally?`: what the indices and the entries count for a condition by itself.
* `Filter.reckon`: the estimate, in numbers without bound. It looks at no estimate that stands in
  the filter.
* `foldl_saturatingAdd`: **words that stop make no difference below the greatest estimate**.
* `Filter.annotate_reckon`: **annotating gives each node what is reckoned for it**, and does nothing
  else.
-/

namespace Directory

/-! ## Sums -/

/-- A sum of words that stops is the exact one, as far as estimates go. -/
theorem foldl_saturatingAdd (k : Nat) (ns : List Nat) :
    min (ns.foldl saturatingAdd k) maxEstimate = min (k + ns.foldr (· + ·) 0) maxEstimate := by
  induction ns generalizing k with
  | nil => rfl
  | cons n ns ih =>
    rw [List.foldl_cons, List.foldr_cons, ih, saturatingAdd, maxEstimate]
    omega

namespace Partition

/-- What is counted for a condition by itself: entries for a scope, tuples of an index for another
one, if there is an index that can tell. -/
def tally? (p : Partition) : Filter → Option Nat
  | .scope _ .base _ _ => some 1
  | .scope b .oneLevel m _ =>
    some (p.childCount b + if m.followsBelow then p.system.oneAlias.countOf b else 0)
  | .scope _ .subtree _ _ => some p.count
  | .presence a _ | .substring a _ _ => (p.userIndex? a).map Index.count
  | .comparison .equality a v _ | .comparison .approximate a v _ =>
    (p.userIndex? a).map fun x => x.countOf v
  | .comparison .atLeast a v _ => (p.userIndex? a).bind fun x => (x.atLeastCount v).toOption
  | .comparison .atMost a v _ => (p.userIndex? a).bind fun x => (x.atMostCount v).toOption
  | .extensible a _ _ _ _ => a.bind fun a => (p.userIndex? a).map Index.count
  | .and .. | .or .. | .not .. => none

variable (p : Partition)

theorem estimateScope_eq (b : EntryId) (s : SearchScope) (m : AliasMode) (n : Option Nat) :
    min (p.estimateScope b s m.followsBelow) maxEstimate =
      min maxEstimate ((p.tally? (.scope b s m n)).getD maxEstimate) := by
  rw [Nat.min_comm]
  cases s with
  | base | subtree => rfl
  | oneLevel =>
    rw [estimateScope, tally?, Option.getD_some]
    split
    · rw [saturatingAdd, maxEstimate]
      omega
    · rfl

theorem estimateComparison_eq (op : Comparison) (a : AttributeId) (v : Value) (n : Option Nat) :
    p.estimateComparison op a v = (p.tally? (.comparison op a v n)).getD maxEstimate := by
  rw [estimateComparison]
  cases op <;> rw [tally?] <;> cases p.userIndex? a <;> rfl

end Partition

namespace Filter

variable (p : Partition)

/-! ## Reckoning -/

mutual

/-- The estimate of a filter in exact numbers. -/
def reckon (p : Partition) : Filter → Nat
  | scope b s m n => min maxEstimate ((p.tally? (scope b s m n)).getD maxEstimate)
  | presence a n => min maxEstimate ((p.tally? (presence a n)).getD maxEstimate)
  | comparison op a v n => min maxEstimate ((p.tally? (comparison op a v n)).getD maxEstimate)
  | substring a ps n => min maxEstimate ((p.tally? (substring a ps n)).getD maxEstimate)
  | extensible a r v d n => min maxEstimate ((p.tally? (extensible a r v d n)).getD maxEstimate)
  | and fs _ => ((reckonAll p fs).min?).getD maxEstimate
  | or fs _ => min maxEstimate ((reckonAll p fs).foldr (· + ·) 0)
  | not _ _ => maxEstimate

/-- The estimates of filters in exact numbers. -/
def reckonAll (p : Partition) : List Filter → List Nat
  | [] => []
  | f :: fs => f.reckon p :: reckonAll p fs

end

theorem reckonAll_eq_map (fs : List Filter) : reckonAll p fs = fs.map (reckon p) := by
  induction fs with
  | nil => rfl
  | cons f fs ih => rw [reckonAll, ih, List.map_cons]

mutual

theorem reckon_le : (f : Filter) → f.reckon p ≤ maxEstimate
  | scope .. | presence .. | comparison .. | substring .. | extensible .. | or .. =>
    Nat.min_le_left ..
  | not .. => Nat.le_refl _
  | and fs _ => by
    rw [reckon]
    cases h : (reckonAll p fs).min? with
    | none => exact Nat.le_refl _
    | some n => exact reckonAll_le fs n (List.min?_mem h)

theorem reckonAll_le : (fs : List Filter) → ∀ n ∈ reckonAll p fs, n ≤ maxEstimate
  | f :: fs, n, hn => by
    rcases List.mem_cons.1 hn with rfl | hn
    · exact reckon_le f
    · exact reckonAll_le fs n hn

end

/-! ## Nodes of an annotated filter -/

theorem annotateAll_eq_map (fs : List Filter) : annotateAll p fs = fs.map (annotate p) := by
  induction fs with
  | nil => rfl
  | cons f fs ih => rw [annotateAll, ih, List.map_cons]

theorem estimate?_setEstimate (f : Filter) (n : Option Nat) : (f.setEstimate n).estimate? = n := by
  cases f <;> rfl

theorem estimate?_withEstimate (f : Filter) (n : Nat) :
    (f.withEstimate n).estimate? = some (min n maxEstimate) :=
  estimate?_setEstimate ..

mutual

theorem estimate?_annotate : (f : Filter) → (f.annotate p).estimate? = some (f.reckon p)
  | scope b s m n => by
    rw [annotate, estimate?_withEstimate, p.estimateScope_eq b s m n]
    rfl
  | comparison op a v n => by
    rw [annotate, estimate?_withEstimate, p.estimateComparison_eq op a v n, Nat.min_comm]
    rfl
  | presence a n | substring a _ n => by
    rw [annotate, estimate?_withEstimate, Nat.min_comm]
    rfl
  | extensible a r v d n => by
    rw [annotate, estimate?_withEstimate, Nat.min_comm]
    cases a <;> rfl
  | and fs n => by
    have hle := reckon_le p (and fs n)
    rw [reckon] at hle
    rw [annotate, estimate?_withEstimate, leastEstimate, estimates_annotateAll fs, reckon,
      Nat.min_eq_left hle]
  | or fs n => by
    rw [annotate, estimate?_withEstimate, totalEstimate, estimates_annotateAll fs,
      foldl_saturatingAdd, Nat.zero_add, Nat.min_comm, reckon]
  | not f n => by
    rw [annotate, estimate?_withEstimate, Nat.min_self, reckon]

theorem estimates_annotateAll : (fs : List Filter) →
    (annotateAll p fs).map estimate = reckonAll p fs
  | [] => rfl
  | f :: fs => by
    rw [annotateAll, List.map_cons, estimates_annotateAll fs, estimate, estimate?_annotate f]
    rfl

end

theorem annotate_and (fs : List Filter) (n : Option Nat) :
    (and fs n).annotate p = and (fs.map (annotate p)) (some ((and fs n).reckon p)) := by
  rw [← estimate?_annotate, annotate, ← annotateAll_eq_map]
  rfl

theorem annotate_or (fs : List Filter) (n : Option Nat) :
    (or fs n).annotate p = or (fs.map (annotate p)) (some ((or fs n).reckon p)) := by
  rw [← estimate?_annotate, annotate, ← annotateAll_eq_map]
  rfl

theorem annotate_not (f : Filter) (n : Option Nat) :
    (not f n).annotate p = not (f.annotate p) (some maxEstimate) := rfl

mutual

theorem annotate_bare : (f : Filter) → f.bare.annotate p = f.annotate p
  | scope .. | presence .. | comparison .. | substring .. | extensible .. => rfl
  | and fs n => by
    rw [bare, annotate, annotate, annotateAll_bareAll fs]
    rfl
  | or fs n => by
    rw [bare, annotate, annotate, annotateAll_bareAll fs]
    rfl
  | not f n => by rw [bare, annotate_not, annotate_not, annotate_bare f]

theorem annotateAll_bareAll : (fs : List Filter) → annotateAll p (bareAll fs) = annotateAll p fs
  | [] => rfl
  | f :: fs => by rw [bareAll, annotateAll, annotateAll, annotate_bare f, annotateAll_bareAll fs]

end

theorem reckon_annotate (f : Filter) : (f.annotate p).reckon p = f.reckon p := by
  have hagain : (f.annotate p).annotate p = f.annotate p := by
    rw [← annotate_bare, bare_annotate, annotate_bare]
  have hestimate := estimate?_annotate p (f.annotate p)
  rw [hagain, estimate?_annotate] at hestimate
  exact (Option.some.inj hestimate).symm

variable {p}

theorem Part.annotate {g f : Filter} (h : Part g f) : Part (g.annotate p) (f.annotate p) := by
  induction h with
  | self => exact .self
  | and hf _ ih =>
    rw [annotate_and]
    exact .and (List.mem_map_of_mem hf) ih
  | or hf _ ih =>
    rw [annotate_or]
    exact .or (List.mem_map_of_mem hf) ih
  | not _ ih => exact .not ih

mutual

theorem exists_part_of_annotate {h : Filter} : (f : Filter) → Part h (f.annotate p) →
    ∃ g, Part g f ∧ g.annotate p = h
  | scope .., hpart | presence .., hpart | comparison .., hpart | substring .., hpart
  | extensible .., hpart => by
    cases hpart
    exact ⟨_, .self, rfl⟩
  | and fs n, hpart => by
    cases hpart with
    | self => exact ⟨_, .self, rfl⟩
    | and hf hpart =>
      obtain ⟨_, hf, g, hg, e⟩ := exists_part_of_annotateAll fs hf hpart
      exact ⟨g, .and hf hg, e⟩
  | or fs n, hpart => by
    cases hpart with
    | self => exact ⟨_, .self, rfl⟩
    | or hf hpart =>
      obtain ⟨_, hf, g, hg, e⟩ := exists_part_of_annotateAll fs hf hpart
      exact ⟨g, .or hf hg, e⟩
  | not f n, hpart => by
    cases hpart with
    | self => exact ⟨_, .self, rfl⟩
    | not hpart =>
      obtain ⟨g, hg, e⟩ := exists_part_of_annotate f hpart
      exact ⟨g, .not hg, e⟩

theorem exists_part_of_annotateAll {h : Filter} : (fs : List Filter) → {b : Filter} →
    b ∈ annotateAll p fs → Part h b → ∃ f ∈ fs, ∃ g, Part g f ∧ g.annotate p = h
  | f :: fs, _, hb, hpart => by
    rcases List.mem_cons.1 hb with rfl | hb
    · obtain ⟨g, hg, e⟩ := exists_part_of_annotate f hpart
      exact ⟨f, .head _, g, hg, e⟩
    · obtain ⟨f, hf, g, hg, e⟩ := exists_part_of_annotateAll fs hb hpart
      exact ⟨f, .tail _ hf, g, hg, e⟩

end

/-- **Annotating.** The estimate of an annotated filter is what is reckoned. The nodes of the
annotated filter are those of the filter, annotated, each with what is reckoned for it. Nothing but
estimates is changed, and those that stood in the filter before have no influence. -/
theorem annotate_reckon (p : Partition) (f : Filter) :
    (f.annotate p).estimate = f.reckon p ∧
    (∀ h, Part h (f.annotate p) ↔
      ∃ g, Part g f ∧ g.annotate p = h ∧ h.estimate? = some (g.reckon p)) ∧
    (f.annotate p).bare = f.bare ∧
    f.annotate p = f.bare.annotate p := by
  refine ⟨by rw [estimate, estimate?_annotate]; rfl, fun h => ⟨fun hpart => ?_, ?_⟩,
    bare_annotate p f, (annotate_bare p f).symm⟩
  · obtain ⟨g, hg, rfl⟩ := exists_part_of_annotate f hpart
    exact ⟨g, hg, rfl, estimate?_annotate p g⟩
  · rintro ⟨g, hg, rfl, _⟩
    exact hg.annotate

end Filter

end Directory
