import Directory.Proofs.Partition.AliasTuples
import Directory.Proofs.Search.Evaluator

/-!
# Evaluators that outlive writes

An evaluator is made once and may be asked after later writes. It keeps to the indices that it was
made for, which stay, and reads the records of the time.

* `Partition.KeepsIndices`: a later partition has the indices of an earlier one, with the same
  orders. No write takes an index away.
* `Evaluator.Backed.later`: what was made for an earlier partition suits a later one.
* `Partition.ReachedBy.evaluators_agree`: **by number, on a record and on an element, an evaluator
  gives the same result at any time after it was made**.
-/

namespace Directory

namespace Partition

/-- The indices of attributes are still there, with their orders. -/
structure KeepsIndices (p p' : Partition) : Prop where
  schema : p'.schema = p.schema
  kept : ∀ a x, p.userIndex? a = some x → ∃ y, p'.userIndex? a = some y ∧ y.ordered = x.ordered

variable {p p' p'' q : Partition} {c : Config} {ws ws₁ : List Write} {w : Write}

namespace KeepsIndices

theorem refl (p : Partition) : p.KeepsIndices p := ⟨rfl, fun _ x hx => ⟨x, hx, rfl⟩⟩

theorem trans (h : p.KeepsIndices p') (h' : p'.KeepsIndices p'') : p.KeepsIndices p'' where
  schema := h'.schema.trans h.schema
  kept a x hx := by
    obtain ⟨y, hy, hyx⟩ := h.kept a x hx
    obtain ⟨z, hz, hzy⟩ := h'.kept a y hy
    exact ⟨z, hz, hzy.trans hyx⟩

theorem indexed (h : p.KeepsIndices p') {a : AttributeId} (ha : p.Indexed a) : p'.Indexed a := by
  obtain ⟨x, hx⟩ := indexed_iff.1 ha
  obtain ⟨y, hy, _⟩ := h.kept a x hx
  exact indexed_iff.2 ⟨y, hy⟩

theorem indexesComparison (h : p.KeepsIndices p') {op : Comparison} {a : AttributeId}
    (hop : p.indexesComparison op a = .ok true) : p'.indexesComparison op a = .ok true := by
  have hequal (ho : (.ok (p.hasUserIndex a) : Except Error Bool) = .ok true) :
      (.ok (p'.hasUserIndex a) : Except Error Bool) = .ok true :=
    congrArg Except.ok (h.indexed (Except.ok.inj ho))
  have hrange (ho : (if p.schema.isOrdered a then .ok ((p.userIndex? a).any Index.ordered)
        else .error (.noRangeOrdering a) : Except Error Bool) = .ok true) :
      (if p'.schema.isOrdered a then .ok ((p'.userIndex? a).any Index.ordered)
        else .error (.noRangeOrdering a) : Except Error Bool) = .ok true := by
    rw [h.schema]
    split at ho
    · rename_i hordered
      obtain ⟨x, hx, hxo⟩ := (Option.any_eq_true _ _).1 (Except.ok.inj ho)
      obtain ⟨y, hy, hyo⟩ := h.kept a x hx
      rw [if_pos hordered, hy, Option.any_some, hyo, hxo]
    · cases ho
  cases op with
  | equality | approximate => exact hequal hop
  | atLeast | atMost => exact hrange hop

end KeepsIndices

/-! ## Writes -/

theorem SameSettings.keepsIndices (h : p.SameSettings p') : p.KeepsIndices p' where
  schema := h.schema
  kept a x hx := by
    have hhead := h.heads a
    rw [hx, Option.map_some] at hhead
    obtain ⟨y, hy, hyx⟩ := Option.map_eq_some_iff.1 hhead
    exact ⟨y, hy, congrArg Prod.snd hyx⟩

theorem IndexAdded.keepsIndices {a : AttributeId} (h : p.IndexAdded a p') : p.KeepsIndices p' where
  schema := by rw [h.rest]
  kept b x hx := by
    refine ⟨x, ?_, rfl⟩
    rw [h.others b ?_, hx]
    rintro rfl
    exact h.missing (indexed_iff.2 ⟨x, hx⟩)

theorem Leaves.keepsIndices (h : p.Leaves w p') : p.KeepsIndices p' := by
  cases h with
  | refused w => exact .refl p
  | skipped e => exact ⟨rfl, (KeepsIndices.refl p).kept⟩
  | added he h' => exact ⟨h'.same.keepsIndices.schema, h'.same.keepsIndices.kept⟩
  | amended hold hnew hcheck h' => exact h'.same.keepsIndices
  | removed he hchildren h' => exact h'.same.keepsIndices
  | relocated hw hmv h' => exact h'.same.keepsIndices
  | indexAdded h' => exact h'.keepsIndices

theorem ReachedBy.keepsIndices (h : p.ReachedBy c ws) (hinit : ws₁ <+: ws)
    (hq : q.ReachedBy c ws₁) : q.KeepsIndices p := by
  refine h.along (I := fun ws p => ws₁ <+: ws → q.KeepsIndices p) (fun p₀ hp₀ hinit => ?_)
    (fun ws₂ w p₂ _ hp₂ hnext ih hinit => ?_) hinit
  · obtain rfl := List.prefix_nil.1 hinit
    exact hq.unique ⟨⟨p₀, hp₀, rfl⟩, hq.adds⟩ ▸ .refl p₀
  · rcases List.prefix_concat_iff.1 hinit with heq | hinit
    · subst heq
      exact hq.unique hnext ▸ .refl _
    · obtain ⟨_, _, _, hleaves⟩ := hp₂.leaves hnext
      exact (ih hinit).trans hleaves.keepsIndices

end Partition

/-! ## Evaluators -/

namespace Evaluator

variable {p p' : Partition}

mutual

/-- A test that was made for the indices of a partition suits the later ones. -/
theorem Backed.later (h : p.KeepsIndices p') : (x : Evaluator) → x.Backed p → x.Backed p'
  | .scope .., hx | .substring .., hx | .extensible .., hx => hx
  | .presence .., hx => fun hindexed => h.indexed (hx hindexed)
  | .comparison .., hx => fun hindexed => h.indexesComparison (hx hindexed)
  | .and xs, hx | .or xs, hx => BackedAll.later h xs hx
  | .not x, hx => Backed.later h x hx

theorem BackedAll.later (h : p.KeepsIndices p') :
    (xs : List Evaluator) → BackedAll p xs → BackedAll p' xs
  | [], _ => trivial
  | x :: xs, hx => ⟨Backed.later h x hx.1, BackedAll.later h xs hx.2⟩

end

end Evaluator

/-- **Evaluators agree at any time.** Take an evaluator that was made for a filter after some writes
of a history, and the partition after all of them. On any element, whatever record it holds, the
test gives the answer or the error of the test by the number of the element, be it that of an entry
or not. On the number of a stored entry, that is the answer or the error of the test on the stored
record. -/
theorem Partition.ReachedBy.evaluators_agree {p q : Partition} {c : Config} {ws ws₁ : List Write}
    (h : p.ReachedBy c ws) (hinit : ws₁ <+: ws) (hq : q.ReachedBy c ws₁) {f : Filter}
    {x : Evaluator} (hx : Evaluator.ofFilter q f = .ok x) :
    (∀ el, Evaluator.Answers el.id (x.evaluateId p el.id) (x.evaluate p el)) ∧
    ∀ id e, p.get? id = some e → x.evaluateId p id = x.evaluateEntry p e := by
  obtain ⟨n, _, hvalued⟩ := h.valued
  have hbacked : x.Backed p := .later (h.keepsIndices hinit hq) x (Evaluator.ofFilter_backed f hx)
  exact ⟨x.evaluate_eq, fun id e he => hbacked.evaluateId_eq hvalued he⟩

/-! ### An evaluator that outlives a new index -/

namespace Sample

/-- Those of the object class person whose name is not Ann. -/
def others : Filter := .and [.comparison .equality .objectClass (.text "person") none,
  .not (.comparison .equality ⟨"cn"⟩ (.text "ann") none) none] none

/-- The test for them where only object classes have an index. -/
def othersTest : Evaluator := .and [.comparison .equality .objectClass (.text "person") true,
  .not (.comparison .equality ⟨"cn"⟩ (.text "ann") false)]

end Sample

/-- The evaluator is made before the names get an index and the person moves. It still reads the
names from the record, which has both the old and the new one. -/
theorem Partition.outlived_evaluator_sample :
    Evaluator.ofFilter (Sample.after (Sample.writes.take 4)) Sample.others = .ok Sample.othersTest ∧
    Sample.partition.hasUserIndex ⟨"cn"⟩ = true ∧
    ∃ e, Sample.partition.get? 4 = some e ∧
      Sample.othersTest.evaluateId Sample.partition 4 =
        Sample.othersTest.evaluateEntry Sample.partition e := by
  have hx : Evaluator.ofFilter (Sample.after (Sample.writes.take 4)) Sample.others =
      .ok Sample.othersTest := by
    have hclass : (Sample.after (Sample.writes.take 4)).hasUserIndex .objectClass = true := by
      decide +kernel
    have hname : (Sample.after (Sample.writes.take 4)).hasUserIndex ⟨"cn"⟩ = false := by
      decide +kernel
    simp only [Sample.others, Evaluator.ofFilter, Evaluator.ofFilters, indexesComparison, hclass,
      hname, Except.ok_bind]
    rfl
  obtain ⟨e, he, _⟩ := Sample.person_stored
  have hagree := ReachedBy.evaluators_agree Sample.reachedBy (List.take_prefix 4 Sample.writes)
    (Sample.after_reachedBy _ (by decide)) hx
  exact ⟨hx, by decide +kernel, e, he, hagree.2 4 e he⟩

end Directory
