import Directory.Proofs.Cursor.Walk
import Directory.Proofs.Filter.Meaning
import Directory.Proofs.Search.Build

/-!
# Walks over what a filter accepts

* `SearchCursor.Finds.elements`: a walk with a cursor that finds what an evaluator accepts gives
  what the cursor yields, and ends.
* `Evaluator.answered_of_ruled`: only extensible conditions without a rule can fail on a record.
* `Partition.Reachable.cursor_walk`: **the cursor of a filter walks over the entries whose records
  its evaluator accepts**.
-/

namespace Directory

variable {p : Partition} {n : Nat}

/-! ## What cursors give -/

theorem Test.keeps {ks : List Candidate} (h : ∀ k ∈ ks, k.Sure p) :
    ∃ es, Keeps (accept p) ks es ∧ es.map Element.id = Candidate.yields p ks := by
  induction ks with
  | nil => exact ⟨[], .nil, rfl⟩
  | cons k ks ih =>
    obtain ⟨es, hes, hids⟩ := ih fun k hk => h k (.tail _ hk)
    obtain ⟨el, hid, haccept⟩ := accept_eq (h k (.head _))
    cases hk : k.passes p with
    | true =>
      refine ⟨el :: es, .keep (by rw [haccept, hk]; rfl) hes, ?_⟩
      rw [List.map_cons, hids, hid, Candidate.yields, Candidate.yields, List.filter_cons_of_pos hk,
        List.map_cons]
    | false =>
      refine ⟨es, .skip (by rw [haccept, hk]; rfl) hes, ?_⟩
      rw [hids, Candidate.yields, Candidate.yields,
        List.filter_cons_of_neg (Bool.eq_false_iff.1 hk)]

namespace SearchCursor

variable {c : SearchCursor} {x : Evaluator}

theorem Finds.gives (h : c.Finds p x) : ∃ es, c.cursor.Gives (Test.accept p) es ∧
    es.map Element.id = c.yields p := by
  obtain ⟨es, hes, hids⟩ := Test.keeps h.sure
  exact ⟨es, h.fresh ▸ Cursor.ofList_gives hes, hids⟩

/-- A walk gives what the cursor yields and ends. -/
theorem Finds.elements (h : c.Finds p x) : ∃ es c', es.map Element.id = c.yields p ∧
    ∀ m, es.length < m → (navigation p).elements (navigation p).next m c = .ok es c' := by
  obtain ⟨es, hes, hids⟩ := h.gives
  obtain ⟨c', hc'⟩ := Navigation.elements_of_gives (n := navigation p) (fun _ _ => rfl) rfl rfl hes
  exact ⟨es, c', hids, hc'⟩

end SearchCursor

namespace Evaluator

mutual

theorem ofFilter_bare : (f : Filter) → ofFilter p f.bare = ofFilter p f
  | .scope .. | .presence .. | .substring .. | .extensible _ none .. => by
    rw [Filter.bare, ofFilter, ofFilter]
  | .comparison .. | .extensible _ (some _) .. => by rw [Filter.bare, ofFilter, ofFilter]
  | .and fs _ | .or fs _ => by rw [Filter.bare, ofFilter, ofFilter, ofFilters_bareAll fs]
  | .not f _ => by rw [Filter.bare, ofFilter, ofFilter, ofFilter_bare f]

theorem ofFilters_bareAll : (fs : List Filter) → ofFilters p (Filter.bareAll fs) = ofFilters p fs
  | [] => rfl
  | f :: fs => by rw [Filter.bareAll, ofFilters, ofFilters, ofFilter_bare f, ofFilters_bareAll fs]

end

/-- Only extensible conditions without a rule can fail on a record. -/
theorem answered_of_ruled (hp : p.Valued n) (ht : p.Arranged) {f g : Filter} (h : f.Ruled)
    (hpart : g.Part f) : g.Answered p := by
  intro x hx id e he
  obtain ⟨b, hb, _⟩ := evaluateEntry_spec hp ht he g (h.of_part hpart) hx
  exact ⟨b, hb⟩

end Evaluator

/-! ## A walk -/

namespace Sample

/-- The person of a name, and whatever is no unit. -/
def filter (name : String) (estimate : Option Nat) : Filter :=
  .or [.comparison .equality ⟨"cn"⟩ (.text name) estimate, .not (.presence ⟨"ou"⟩ none) none] none

theorem filter_part {name : String} {estimate : Option Nat} {g : Filter}
    (h : g.Part (filter name estimate)) : g = filter name estimate ∨
      g = .comparison .equality ⟨"cn"⟩ (.text name) estimate ∨
      g = .not (.presence ⟨"ou"⟩ none) none ∨ g = .presence ⟨"ou"⟩ none := by
  cases h with
  | self => exact .inl rfl
  | or hf h =>
    rcases List.mem_cons.1 hf with rfl | hf
    · cases h
      exact .inr (.inl rfl)
    · obtain rfl := List.mem_singleton.1 hf
      cases h with
      | self => exact .inr (.inr (.inl rfl))
      | not h =>
        cases h
        exact .inr (.inr (.inr rfl))

theorem filter_ruled {name : String} {estimate : Option Nat} : (filter name estimate).Ruled := by
  intro a v d n h
  rcases filter_part h with h | h | h | h <;> cases h

theorem filter_noScope {name : String} {estimate : Option Nat} :
    (filter name estimate).NoScope := by
  intro b s m n h
  rcases filter_part h with h | h | h | h <;> cases h

/-- The cursor of the filter can be built. Its evaluator accepts the person and refuses a unit. -/
theorem filter_built : (filter "Anna   LEE" none).normalize partition.schema =
      .ok (filter "anna lee" none) ∧
    ∃ c x, SearchCursor.ofFilter partition (filter "anna lee" (some 7)) = .ok c ∧
      Evaluator.ofFilter partition (filter "anna lee" (some 7)) = .ok x ∧
      (∃ e, partition.get? 4 = some e ∧ x.evaluateEntry partition e = .ok true) ∧
      ∃ e, partition.get? 2 = some e ∧ x.evaluateEntry partition e = .ok false := by
  have h : ((filter "Anna   LEE" none).normalize partition.schema).toOption =
        some (filter "anna lee" none) ∧
      (SearchCursor.ofFilter partition (filter "anna lee" (some 7))).toOption.isSome = true ∧
      (Evaluator.ofFilter partition (filter "anna lee" (some 7))).toOption.any (fun x =>
        (partition.get? 4).any (fun e => (x.evaluateEntry partition e).toOption == some true) &&
        (partition.get? 2).any (fun e => (x.evaluateEntry partition e).toOption == some false)) =
          true := by decide +kernel
  obtain ⟨hnormalize, hc, hx⟩ := h
  obtain ⟨c, hc⟩ := Option.isSome_iff_exists.1 hc
  obtain ⟨x, hx, h⟩ := (Option.any_eq_true _ _).1 hx
  simp only [Bool.and_eq_true, Option.any_eq_true, beq_iff_eq, Except.toOption_eq_some] at h
  exact ⟨Except.toOption_eq_some.1 hnormalize, c, x, Except.toOption_eq_some.1 hc,
    Except.toOption_eq_some.1 hx, h⟩

end Sample

namespace Partition

/-- **The cursor of a filter walks over what its evaluator accepts.** The filter is in normal form
and carries any estimates; its cursor can be built, and the test for no part of it fails on a stored
record. Then a walk to the end visits exactly the stored entries whose records the evaluator
accepts; and it visits stored entries only, and none twice, unless a scope below its base follows
aliases. -/
theorem Reachable.cursor_walk (hp : p.Reachable) {g f f' : Filter} {c : SearchCursor}
    (hf : g.normalize p.schema = .ok f) (hestimates : f'.bare = f.bare)
    (hc : SearchCursor.ofFilter p f' = .ok c)
    (hanswered : ∀ h : Filter, h.Part f' → h.Answered p) :
    ∃ x, Evaluator.ofFilter p f' = .ok x ∧ ∃ es c',
      (∀ m, es.length < m →
        (SearchCursor.navigation p).elements (SearchCursor.navigation p).next m c = .ok es c') ∧
      (∀ id e, p.get? id = some e → (id ∈ es.map Element.id ↔ x.evaluateEntry p e = .ok true)) ∧
      (f'.FollowsNone → (∀ id ∈ es.map Element.id, p.Stored id) ∧ (es.map Element.id).Nodup) := by
  obtain ⟨n, hvalued⟩ := hp.valued
  obtain ⟨_, _, hreached⟩ := hp
  obtain ⟨x, hx, hfinds, hclean⟩ := SearchCursor.ofFilter_serves hvalued hreached.arranged f'
    (Filter.normalize_isNormal hf hestimates) hanswered c hc
  have hsure := Evaluator.sure_of_answered hvalued (hanswered f' .self) hx
  obtain ⟨es, c', hids, hwalk⟩ := hfinds.elements
  refine ⟨x, hx, es, c', hwalk, fun id e he => ?_, fun hnone => ?_⟩
  · rw [hids, hfinds.exact id ⟨e, he⟩, Evaluator.accepts_iff hvalued hsure hx he]
  · rw [hids]
    exact ⟨(hclean hnone).stored, (hclean hnone).once⟩

theorem cursor_walk_sample : ∃ c es c',
    SearchCursor.ofFilter Sample.partition (Sample.filter "anna lee" (some 7)) = .ok c ∧
    (∀ m, es.length < m → (SearchCursor.navigation Sample.partition).elements
      (SearchCursor.navigation Sample.partition).next m c = .ok es c') ∧
    4 ∈ es.map Element.id ∧ 2 ∉ es.map Element.id ∧ (es.map Element.id).Nodup := by
  obtain ⟨hf, c, x, hc, hx, ⟨e, he, haccepts⟩, e', he', hrefuses⟩ := Sample.filter_built
  have hbare : (Sample.filter "anna lee" (some 7)).bare =
      (Sample.filter "anna lee" none).bare := rfl
  obtain ⟨n, hvalued⟩ := Sample.reachable.valued
  obtain ⟨x', hx', es, c', hwalk, hmem, hclean⟩ := Reachable.cursor_walk Sample.reachable hf hbare
    hc fun h hpart => Evaluator.answered_of_ruled hvalued Sample.reachedBy.arranged
      Sample.filter_ruled hpart
  obtain rfl := Except.ok.inj (hx.symm.trans hx')
  refine ⟨c, es, c', hc, hwalk, (hmem 4 e he).2 haccepts, fun h => ?_,
    (hclean Sample.filter_noScope.followsNone).2⟩
  have haccepts := (hmem 2 e' he').1 h
  rw [hrefuses] at haccepts
  cases haccepts

end Partition

end Directory
