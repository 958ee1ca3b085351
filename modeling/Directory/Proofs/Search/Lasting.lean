import Directory.Proofs.Search.Agreement
import Directory.Proofs.Search.Walk

/-!
# Cursors that outlive writes

The candidates of a cursor are those of the moment when it was built, and their tests are made on
the partition of a later moment. Over a time in which an entry is always stored, it can be told of
some candidates that they always pass, and of others that they never do.

* `Partition.Accepts`: a filter accepts the record that is stored under a number.
* `Evaluator.accepts_iff_later`: an evaluator of earlier accepts what the filter accepts now.
* `SearchCursor.Builds`: the ways in which the cursor of a filter is put together.
* `Filter.Feeds`: the candidates for a filter come from those for another one.
* `Candidate.Once`, `Candidate.Barred`: one candidate for an entry always passes and no other ever
  does; none ever does.
* `SearchCursor.Builds.settled`: **where all that feeds a filter keeps its answer on an entry, the
  cursor has the entry once or not at all**, as the filter accepts it or not.
* `SearchCursor.Builds.once`: **where the filter accepts the entry all the time**, the same has only
  to be asked of what feeds a disjunction.
-/

namespace Directory

/-! ## Evaluators at a later time -/

namespace Partition

variable {p q : Partition}

/-- A partition of a later moment, which has the indices of the earlier one. -/
structure Later (p q : Partition) : Prop where
  valued : ∃ n, q.Valued n
  arranged : q.Arranged
  keeps : p.KeepsIndices q

theorem ReachedBy.later {c : Config} {ws ws₁ : List Write} (hq : q.ReachedBy c ws)
    (hinit : ws₁ <+: ws) (hp : p.ReachedBy c ws₁) : p.Later q where
  valued := by
    obtain ⟨n, _, hvalued⟩ := hq.valued
    exact ⟨n, hvalued⟩
  arranged := hq.arranged
  keeps := hq.keepsIndices hinit hp

/-- Under the number a record is stored that the filter accepts. -/
def Accepts (p : Partition) (f : Filter) (id : EntryId) : Prop :=
  ∃ x e, Evaluator.ofFilter p f = .ok x ∧ p.get? id = some e ∧ x.evaluateEntry p e = .ok true

theorem accepts_iff_any {f : Filter} {id : EntryId} : p.Accepts f id ↔
    (Evaluator.ofFilter p f).toOption.any (fun x => (p.get? id).any fun e =>
      (x.evaluateEntry p e).toOption == some true) = true := by
  simp only [Accepts, Option.any_eq_true, beq_iff_eq, Except.toOption_eq_some]
  constructor
  · rintro ⟨x, e, hx, he, h⟩
    exact ⟨x, hx, e, he, h⟩
  · rintro ⟨x, hx, e, he, h⟩
    exact ⟨x, e, hx, he, h⟩

instance (p : Partition) (f : Filter) (id : EntryId) : Decidable (p.Accepts f id) :=
  decidable_of_iff _ accepts_iff_any.symm

theorem Accepts.stored {f : Filter} {id : EntryId} (h : p.Accepts f id) : p.Stored id := by
  obtain ⟨_, e, _, he, _⟩ := h
  exact ⟨e, he⟩

end Partition

namespace Evaluator

variable {p q : Partition} {f : Filter} {x : Evaluator} {id : EntryId}

theorem indexesComparison_eq_ok {op : Comparison} {a : AttributeId} {b : Bool} :
    p.indexesComparison op a = .ok b ↔
      (op = .equality ∨ op = .approximate) ∧ p.hasUserIndex a = b ∨
      (op = .atLeast ∨ op = .atMost) ∧ p.schema.isOrdered a = true ∧
        (p.userIndex? a).any Index.ordered = b := by
  cases op with
  | equality | approximate => simp [Partition.indexesComparison]
  | atLeast | atMost =>
    rw [Partition.indexesComparison]
    split <;> simp_all

/-- Whether a comparison can be made at all is a matter of the schema. -/
theorem exists_indexesComparison (h : q.schema = p.schema) {op : Comparison} {a : AttributeId}
    {b : Bool} (hb : p.indexesComparison op a = .ok b) :
    ∃ b', q.indexesComparison op a = .ok b' := by
  simp only [indexesComparison_eq_ok] at hb ⊢
  rcases hb with ⟨hop, _⟩ | ⟨hop, hordered, _⟩
  · exact ⟨_, .inl ⟨hop, rfl⟩⟩
  · exact ⟨_, .inr ⟨hop, h ▸ hordered, rfl⟩⟩

theorem eq_false_of_indexFor {op : Comparison} {a : AttributeId} {b : Bool}
    (hb : p.indexesComparison op a = .ok b) (h : indexFor? p a b = none) : b = false := by
  cases b with
  | false => rfl
  | true =>
    have hnone : p.userIndex? a = none := h
    rcases indexesComparison_eq_ok.1 hb with ⟨_, h'⟩ | ⟨_, _, h'⟩
    · rw [Partition.hasUserIndex, hnone] at h'
      cases h'
    · rw [hnone] at h'
      cases h'

mutual

/-- The evaluator that a filter has at another time gives the same answers on records. They differ
in the indices that they would ask. -/
theorem exists_ofFilter_of_schema (h : q.schema = p.schema) : (f : Filter) → {x : Evaluator} →
    ofFilter p f = .ok x →
      ∃ y, ofFilter q f = .ok y ∧ ∀ e, y.evaluateEntry q e = x.evaluateEntry q e
  | .scope .., x, hx | .presence .., x, hx | .substring .., x, hx
  | .extensible _ none .., x, hx => by
    cases hx
    exact ⟨_, rfl, fun e => rfl⟩
  | .comparison op a v _, x, hx => by
    obtain ⟨b, hb, hx⟩ := Except.bind_eq_ok.1 hx
    cases hx
    obtain ⟨b', hb'⟩ := exists_indexesComparison h hb
    refine ⟨.comparison op a v b', ?_, fun e => rfl⟩
    rw [ofFilter, hb']
    rfl
  | .extensible a (some r) v d _, x, hx => by
    rw [ofFilter] at hx
    split at hx
    · cases hx
      refine ⟨_, ?_, fun e => rfl⟩
      rw [ofFilter, h, if_pos ‹_›]
    · cases hx
  | .and fs _, x, hx => by
    obtain ⟨xs, hxs, hx⟩ := Except.bind_eq_ok.1 hx
    cases hx
    obtain ⟨ys, hys, heq⟩ := exists_ofFilters_of_schema h fs hxs
    refine ⟨.and ys, by rw [ofFilter, hys]; rfl, fun e => ?_⟩
    rw [evaluateEntry, evaluateEntry, (heq e).1]
  | .or fs _, x, hx => by
    obtain ⟨xs, hxs, hx⟩ := Except.bind_eq_ok.1 hx
    cases hx
    obtain ⟨ys, hys, heq⟩ := exists_ofFilters_of_schema h fs hxs
    refine ⟨.or ys, by rw [ofFilter, hys]; rfl, fun e => ?_⟩
    rw [evaluateEntry, evaluateEntry, (heq e).2]
  | .not f _, x, hx => by
    obtain ⟨z, hz, hx⟩ := Except.bind_eq_ok.1 hx
    cases hx
    obtain ⟨y, hy, heq⟩ := exists_ofFilter_of_schema h f hz
    refine ⟨.not y, by rw [ofFilter, hy]; rfl, fun e => ?_⟩
    rw [evaluateEntry, evaluateEntry, heq e]

theorem exists_ofFilters_of_schema (h : q.schema = p.schema) : (fs : List Filter) →
    {xs : List Evaluator} → ofFilters p fs = .ok xs → ∃ ys, ofFilters q fs = .ok ys ∧
      ∀ e, evaluateEntryAll q e ys = evaluateEntryAll q e xs ∧
        evaluateEntryAny q e ys = evaluateEntryAny q e xs
  | [], _, hxs => by
    cases hxs
    exact ⟨[], rfl, fun e => ⟨rfl, rfl⟩⟩
  | f :: fs, _, hxs => by
    obtain ⟨x, hx, hxs⟩ := Except.bind_eq_ok.1 hxs
    obtain ⟨xs, hxs', hxs⟩ := Except.bind_eq_ok.1 hxs
    cases hxs
    obtain ⟨y, hy, heq⟩ := exists_ofFilter_of_schema h f hx
    obtain ⟨ys, hys, heqs⟩ := exists_ofFilters_of_schema h fs hxs'
    refine ⟨y :: ys, by rw [ofFilters, hy, hys]; rfl, fun e => ?_⟩
    rw [evaluateEntryAll, evaluateEntryAll, evaluateEntryAny, evaluateEntryAny, heq e, (heqs e).1,
      (heqs e).2]
    exact ⟨rfl, rfl⟩

end

theorem sure_later (hq : p.Later q) (hf : f.Ruled) (hx : ofFilter p f = .ok x) : x.Sure q := by
  intro id
  obtain ⟨n, hvalued⟩ := hq.valued
  have hbacked : x.Backed q := .later hq.keeps x (ofFilter_backed f hx)
  cases he : q.get? id with
  | none => exact hbacked.evaluateId_unstored hvalued he
  | some e =>
    obtain ⟨y, hy, heq⟩ := exists_ofFilter_of_schema hq.keeps.schema f hx
    rw [hbacked.evaluateId_eq hvalued he, ← heq e]
    exact answered_of_ruled hvalued hq.arranged hf .self y hy id e he

/-- **An evaluator of earlier** accepts the entries that the filter accepts now. -/
theorem accepts_iff_later (hq : p.Later q) (hf : f.Ruled) (hx : ofFilter p f = .ok x)
    (hid : q.Stored id) : x.accepts q id = true ↔ q.Accepts f id := by
  obtain ⟨n, hvalued⟩ := hq.valued
  obtain ⟨e, he⟩ := hid
  have hbacked : x.Backed q := .later hq.keeps x (ofFilter_backed f hx)
  obtain ⟨y, hy, heq⟩ := exists_ofFilter_of_schema hq.keeps.schema f hx
  have hanswer : y.evaluateEntry q e = .ok (x.accepts q id) := by
    rw [heq e, ← hbacked.evaluateId_eq hvalued he]
    exact (sure_later hq hf hx).evaluateId_eq id
  constructor
  · intro h
    exact ⟨y, e, hy, he, h ▸ hanswer⟩
  · rintro ⟨y', e', hy', he', h⟩
    obtain rfl := Except.ok.inj (hy.symm.trans hy')
    obtain rfl := Option.some.inj (he.symm.trans he')
    exact Except.ok.inj (hanswer.symm.trans h)

end Evaluator

/-! ## The ways to build a cursor -/

namespace Filter

/-- The filter is in normal form, it names the rules of its extensible conditions, and follows no
aliases below a base. -/
structure Plain (s : Schema) (f : Filter) : Prop where
  normal : f.IsNormal s
  ruled : f.Ruled
  followsNone : f.FollowsNone

/-- The candidates for the filter `g` are candidates for another one: it drives a conjunction, or
stands in a disjunction, that they come from. -/
inductive Feeds (g : Filter) : Filter → Prop
  | self : Feeds g g
  | and {f : Filter} {fs gs : List Filter} {n : Option Nat}
      (hsort : fs.mergeSort (fun x y => x.estimate ≤ y.estimate) = f :: gs) (h : Feeds g f) :
      Feeds g (.and fs n)
  | or {f : Filter} {fs : List Filter} {n : Option Nat} (hf : f ∈ fs) (h : Feeds g f) :
      Feeds g (.or fs n)

end Filter

namespace SearchCursor

variable {p : Partition} {n : Nat} {f : Filter} {c : SearchCursor}

/-- The ways in which the cursor of a filter comes about: without tests, from all entries under the
test for the filter or for its negation, and from the cursors of its parts. -/
inductive Builds (p : Partition) : Filter → SearchCursor → Prop
  | bare {f : Filter} {c : SearchCursor} {x : Evaluator} (hx : Evaluator.ofFilter p f = .ok x)
      (hbare : ∀ k ∈ c.candidates, k.2 = []) (hfinds : c.Finds p x) (hclean : c.Clean p) :
      Builds p f c
  | scan {f : Filter} {x : Evaluator} (hx : Evaluator.ofFilter p f = .ok x) :
      Builds p f (scan p x true)
  | not {f : Filter} {n : Option Nat} {x : Evaluator} (hx : Evaluator.ofFilter p f = .ok x) :
      Builds p (.not f n) (SearchCursor.scan p x false)
  | and {f : Filter} {fs gs : List Filter} {n : Option Nat} {d : SearchCursor}
      {xs : List Evaluator}
      (hsort : fs.mergeSort (fun x y => x.estimate ≤ y.estimate) = f :: gs) (hd : Builds p f d)
      (hxs : Evaluator.ofFilters p gs = .ok xs) : Builds p (.and fs n) (both d xs)
  | or {fs : List Filter} {n : Option Nat} {c : SearchCursor} {cs : List SearchCursor}
      {xs : List Evaluator} (hcs : fs.mapM (ofFilter p) = .ok cs)
      (hall : ∀ f ∈ fs, ∀ c, ofFilter p f = .ok c → Builds p f c)
      (hxs : Evaluator.ofFilters p fs = .ok xs) (hc : c.candidates = inTurn [] cs xs) :
      Builds p (.or fs n) c

theorem scanFor_builds (hc : scanFor p f = .ok c) : Builds p f c := by
  obtain ⟨x, hx, hc⟩ := Except.bind_eq_ok.1 hc
  cases hc
  exact .scan hx

theorem Serves.builds (hnone : f.FollowsNone) (h : Serves p f c)
    (hbare : ∀ k ∈ c.candidates, k.2 = []) : Builds p f c := by
  obtain ⟨x, hx, hfinds, hclean⟩ := h
  exact .bare hx hbare hfinds (hclean hnone)

theorem range_builds {op : Comparison} {a : AttributeId} {v : Value} {m : Option Nat}
    (hnone : (Filter.comparison op a v m).FollowsNone)
    (hserves : Serves p (.comparison op a v m) c) (hc : range p op a v = .ok c) :
    Builds p (.comparison op a v m) c := by
  obtain ⟨b, hb, hc⟩ := Except.bind_eq_ok.1 hc
  cases hi : Evaluator.indexFor? p a b with
  | some i =>
    rw [hi] at hc
    cases hc
    exact hserves.builds hnone (List.forall_mem_map.2 fun _ _ => rfl)
  | none =>
    rw [hi] at hc
    cases hc
    obtain rfl := Evaluator.eq_false_of_indexFor hb hi
    refine .scan ?_
    rw [Evaluator.ofFilter, hb]
    rfl

theorem substring_builds {a : AttributeId} {ps : Pieces} {m : Option Nat}
    (hnone : (Filter.substring a ps m).FollowsNone)
    (hserves : Serves p (.substring a ps m) (substring p a ps)) :
    Builds p (.substring a ps m) (substring p a ps) := by
  unfold substring at hserves ⊢
  cases hi : p.userIndex? a with
  | some i =>
    rw [hi] at hserves
    exact hserves.builds hnone (List.forall_mem_map.2 fun _ _ => rfl)
  | none =>
    refine .scan ?_
    rw [Evaluator.ofFilter, Partition.hasUserIndex, hi]
    rfl

theorem scope_builds {b : EntryId} {s : SearchScope} {m : AliasMode} {k : Option Nat}
    (hnone : (Filter.scope b s m k).FollowsNone) (hserves : Serves p (.scope b s m k) c)
    (hc : scope p b s m.followsBelow = .ok c) : Builds p (.scope b s m k) c := by
  cases s with
  | base => cases hc
  | oneLevel | subtree =>
    cases hc
    exact hserves.builds hnone (List.forall_mem_map.2 fun _ _ => rfl)

theorem conjunction_builds {fs : List Filter} {m : Option Nat}
    (hall : ∀ f ∈ fs, ∀ c, ofFilter p f = .ok c → Builds p f c)
    (hc : conjunction p (buildAll p fs) = .ok c) : Builds p (.and fs m) c := by
  rcases conjunction_eq_ok hc with ⟨rfl, rfl⟩ | ⟨g, gs, d, xs, hsort, hd, hxs, rfl⟩
  · exact .bare rfl bare_all (all_finds fun id =>
      (Evaluator.accepts_and (List.forall_mem_nil _) id).2 (List.forall_mem_nil _)) all_clean
  · exact .and hsort (hall g ((sort_perm hsort).mem_iff.1 (.head _)) d hd) hxs

theorem disjunction_builds {fs : List Filter} {m : Option Nat}
    (hall : ∀ f ∈ fs, ∀ c, ofFilter p f = .ok c → Builds p f c)
    (hc : disjunction p (buildAll p fs) = .ok c) : Builds p (.or fs m) c := by
  rcases disjunction_eq_ok hc with ⟨rfl, rfl⟩ | ⟨cs, xs, hcs, hxs, hc⟩
  · exact .or rfl hall rfl rfl
  · rw [either] at hc
    split at hc
    · cases hc
      exact .or hcs hall hxs rfl
    · cases hc

theorem ofFilter_serves_plain (hp : p.Valued n) (ht : p.Arranged) (hf : f.Plain p.schema)
    (hc : ofFilter p f = .ok c) : Serves p f c :=
  ofFilter_serves hp ht f hf.normal (fun _ => Evaluator.answered_of_ruled hp ht hf.ruled) c hc

mutual

/-- **The cursor of a filter comes about in one of these ways.** -/
theorem ofFilter_builds (hp : p.Valued n) (ht : p.Arranged) : (f : Filter) → f.IsNormal p.schema →
    f.FollowsNone → ∀ c, ofFilter p f = .ok c → Builds p f c
  | .scope b .base m k, hnormal, hnone, c, hc => by
    have hserves := ofFilter_serves_plain hp ht ⟨hnormal, nofun, hnone⟩ hc
    cases hc
    refine hserves.builds hnone ?_
    unfold ofBase
    split
    · exact List.forall_mem_singleton.2 rfl
    · exact List.forall_mem_nil _
  | .scope b .oneLevel m k, hnormal, hnone, c, hc
  | .scope b .subtree m k, hnormal, hnone, c, hc => by
    have hserves := ofFilter_serves_plain hp ht ⟨hnormal, nofun, hnone⟩ hc
    rw [ofFilter] at hc
    · exact scope_builds hnone hserves hc
    · nofun
  | .presence a k, hnormal, hnone, c, hc => by
    have hserves := ofFilter_serves_plain hp ht ⟨hnormal, nofun, hnone⟩ hc
    rw [ofFilter] at hc
    split at hc
    · cases hc
      exact hserves.builds hnone (List.forall_mem_map.2 fun _ _ => rfl)
    · exact scanFor_builds hc
  | .comparison .atLeast a v k, hnormal, hnone, c, hc
  | .comparison .atMost a v k, hnormal, hnone, c, hc =>
    range_builds hnone (ofFilter_serves_plain hp ht ⟨hnormal, nofun, hnone⟩ hc) hc
  | .comparison .equality a v k, hnormal, hnone, c, hc
  | .comparison .approximate a v k, hnormal, hnone, c, hc => by
    have hserves := ofFilter_serves_plain hp ht ⟨hnormal, nofun, hnone⟩ hc
    rw [ofFilter] at hc
    split at hc
    · cases hc
      exact hserves.builds hnone (List.forall_mem_map.2 fun _ _ => rfl)
    · exact scanFor_builds hc
    all_goals nofun
  | .substring a ps k, hnormal, hnone, c, hc => by
    have hserves := ofFilter_serves_plain hp ht ⟨hnormal, nofun, hnone⟩ hc
    cases hc
    exact substring_builds hnone hserves
  | .extensible a r v d k, _, _, c, hc => scanFor_builds hc
  | .and fs k, hnormal, hnone, c, hc =>
    conjunction_builds (buildAll_builds hp ht fs (fun f hmem => hnormal.of_part (.and hmem .self))
      fun f hmem => hnone.of_part (.and hmem .self)) hc
  | .or fs k, hnormal, hnone, c, hc =>
    disjunction_builds (buildAll_builds hp ht fs (fun f hmem => hnormal.of_part (.or hmem .self))
      fun f hmem => hnone.of_part (.or hmem .self)) hc
  | .not f k, _, _, c, hc => by
    obtain ⟨x, hx, hc⟩ := Except.bind_eq_ok.1 hc
    cases hc
    exact .not hx

theorem buildAll_builds (hp : p.Valued n) (ht : p.Arranged) : (fs : List Filter) →
    (∀ f ∈ fs, f.IsNormal p.schema) → (∀ f ∈ fs, f.FollowsNone) →
      ∀ f ∈ fs, ∀ c, ofFilter p f = .ok c → Builds p f c
  | [], _, _ => List.forall_mem_nil _
  | f :: fs, hnormal, hnone => List.forall_mem_cons.2
    ⟨ofFilter_builds hp ht f (hnormal f (.head _)) (hnone f (.head _)),
      buildAll_builds hp ht fs (fun f hf => hnormal f (.tail _ hf)) fun f hf =>
        hnone f (.tail _ hf)⟩

end

end SearchCursor

/-! ## Answers that last -/

section Time

variable {Q : Partition → Prop} {id : EntryId} {x : Evaluator} {ks ls : List Candidate}
  {ts : List Test}

/-- All the time the evaluator gives this answer on the number. -/
def Evaluator.Stays (Q : Partition → Prop) (id : EntryId) (x : Evaluator) (b : Bool) : Prop :=
  ∀ q, Q q → x.accepts q id = b

namespace Candidate

/-- No candidate for the entry ever passes. -/
def Barred (Q : Partition → Prop) (id : EntryId) (ks : List Candidate) : Prop :=
  ∀ k ∈ ks, k.1.id = id → ∀ q, Q q → k.passes q = false

/-- One candidate for the entry always passes, and no other ever does. -/
def Once (Q : Partition → Prop) (id : EntryId) (ks : List Candidate) : Prop :=
  ∃ before k after, ks = before ++ k :: after ∧ k.1.id = id ∧ (∀ q, Q q → k.passes q = true) ∧
    Barred Q id before ∧ Barred Q id after

/-- The evaluator and the candidates agree on the entry, and keep to it. -/
def Settled (Q : Partition → Prop) (id : EntryId) (x : Evaluator) (ks : List Candidate) : Prop :=
  x.Stays Q id true ∧ Once Q id ks ∨ x.Stays Q id false ∧ Barred Q id ks

theorem passes_withTests (q : Partition) (k : Candidate) (ts : List Test) :
    (k.withTests ts).passes q = (k.passes q && ts.all (Test.passes q k.1.id)) :=
  List.all_append

theorem Barred.nil : Barred Q id [] := List.forall_mem_nil _

theorem Barred.append (hks : Barred Q id ks) (hls : Barred Q id ls) : Barred Q id (ks ++ ls) :=
  List.forall_mem_append.2 ⟨hks, hls⟩

theorem barred_of_not_mem (h : id ∉ ks.map (·.1.id)) : Barred Q id ks :=
  fun _ hk hid => absurd (hid ▸ List.mem_map_of_mem hk) h

theorem Once.append_right (hks : Barred Q id ks) (hls : Once Q id ls) : Once Q id (ks ++ ls) := by
  obtain ⟨before, k, after, rfl, hid, hpass, hbefore, hafter⟩ := hls
  exact ⟨ks ++ before, k, after, (List.append_assoc ..).symm, hid, hpass, hks.append hbefore,
    hafter⟩

theorem Once.append_left (hks : Once Q id ks) (hls : Barred Q id ls) : Once Q id (ks ++ ls) := by
  obtain ⟨before, k, after, rfl, hid, hpass, hbefore, hafter⟩ := hks
  exact ⟨before, k, after ++ ls, List.append_assoc .., hid, hpass, hbefore, hafter.append hls⟩

theorem Barred.withTests (h : Barred Q id ks) (ts : List Test) :
    Barred Q id (ks.map (·.withTests ts)) := by
  intro _ hk hid q hq
  obtain ⟨k, hk', rfl⟩ := List.mem_map.1 hk
  rw [passes_withTests, h k hk' hid q hq, Bool.false_and]

theorem barred_withTests (h : ∀ q, Q q → ts.all (Test.passes q id) = false) :
    Barred Q id (ks.map (·.withTests ts)) := by
  intro _ hk hid q hq
  obtain ⟨k, _, rfl⟩ := List.mem_map.1 hk
  obtain rfl : k.1.id = id := hid
  rw [passes_withTests, h q hq, Bool.and_false]

theorem Once.withTests (h : Once Q id ks) (hts : ∀ q, Q q → ts.all (Test.passes q id) = true) :
    Once Q id (ks.map (·.withTests ts)) := by
  obtain ⟨before, k, after, rfl, rfl, hpass, hbefore, hafter⟩ := h
  refine ⟨_, k.withTests ts, _, List.map_append.trans (by rw [List.map_cons]), rfl,
    fun q hq => ?_, hbefore.withTests ts, hafter.withTests ts⟩
  rw [passes_withTests, hpass q hq, hts q hq, Bool.and_true]

theorem once_bare (hbare : ∀ k ∈ ks, k.2 = []) (honce : (ks.map (·.1.id)).Nodup)
    (h : id ∈ ks.map (·.1.id)) : Once Q id ks := by
  obtain ⟨k, hk, hid⟩ := List.mem_map.1 h
  obtain ⟨before, after, rfl⟩ := List.append_of_mem hk
  rw [List.map_append, List.map_cons, List.nodup_append] at honce
  obtain ⟨_, hafter, hbefore⟩ := honce
  refine ⟨before, k, after, rfl, hid, fun q _ => ?_, barred_of_not_mem fun h => ?_,
    barred_of_not_mem fun h => ?_⟩
  · rw [passes, hbare k hk]
    rfl
  · exact hbefore id h k.1.id (.head _) hid.symm
  · exact (List.nodup_cons.1 hafter).1 (hid ▸ h)

end Candidate

namespace SearchCursor

open Candidate

variable {p : Partition} {f : Filter} {c : SearchCursor} {y : Evaluator} {expected : Bool}

theorem scan_once (hid : p.Stored id) (h : y.Stays Q id expected) :
    Once Q id (scan p y expected).candidates := by
  have hall : Once Q id (all p).candidates :=
    once_bare bare_all (map_all ▸ nodup_keys) (map_all ▸ Partition.mem_keys.2 hid)
  refine hall.withTests fun q hq => ?_
  rw [List.all_cons, List.all_nil, Bool.and_true, Test.passes, h q hq, beq_self_eq_true]

theorem scan_barred (h : y.Stays Q id (!expected)) :
    Barred Q id (scan p y expected).candidates := by
  refine barred_withTests fun q hq => ?_
  rw [List.all_cons, List.all_nil, Bool.and_true, Test.passes, h q hq]
  cases expected <;> rfl

theorem bare_once (hp : Q p) (hid : p.Stored id) (hbare : ∀ k ∈ c.candidates, k.2 = [])
    (hfinds : c.Finds p x) (hclean : c.Clean p) (h : x.Stays Q id true) :
    Once Q id c.candidates := by
  have hyields : c.yields p = c.candidates.map (·.1.id) := yields_bare hbare
  exact once_bare hbare (hyields ▸ hclean.once) (hyields ▸ (hfinds.exact id hid).2 (h p hp))

theorem bare_barred (hp : Q p) (hid : p.Stored id) (hbare : ∀ k ∈ c.candidates, k.2 = [])
    (hfinds : c.Finds p x) (h : x.Stays Q id false) : Barred Q id c.candidates := by
  have hyields : c.yields p = c.candidates.map (·.1.id) := yields_bare hbare
  refine barred_of_not_mem fun hmem => ?_
  have haccepts := (hfinds.exact id hid).1 (hyields ▸ hmem)
  rw [h p hp] at haccepts
  cases haccepts

section InTurn

variable {cs : List SearchCursor} {xs : List Evaluator} {earlier : List Test}

theorem barred_inTurn (h : ∀ q, Q q → earlier.all (Test.passes q id) = false) :
    Barred Q id (inTurn earlier cs xs) := by
  induction cs generalizing xs earlier with
  | nil => exact .nil
  | cons c cs ih =>
    cases xs with
    | nil => exact .nil
    | cons x xs =>
      refine (barred_withTests h).append (ih fun q hq => ?_)
      rw [List.all_append, h q hq, Bool.false_and]

/-- Of cursors in turn, the first whose condition accepts the entry has it. -/
theorem settled_inTurn (h : List.Forall₂ (fun c x => Settled Q id x c.candidates) cs xs)
    (hearlier : ∀ q, Q q → earlier.all (Test.passes q id) = true) :
    (∃ x ∈ xs, x.Stays Q id true) ∧ Once Q id (inTurn earlier cs xs) ∨
      (∀ x ∈ xs, x.Stays Q id false) ∧ Barred Q id (inTurn earlier cs xs) := by
  induction h generalizing earlier with
  | nil => exact .inr ⟨List.forall_mem_nil _, .nil⟩
  | @cons c x cs xs hc _ ih =>
    have hlast : ∀ q, (earlier ++ [(⟨x, false⟩ : Test)]).all (Test.passes q id) =
        (earlier.all (Test.passes q id) && !x.accepts q id) := fun q => by
      rw [List.all_append, List.all_cons, List.all_nil, Bool.and_true, Test.passes, beq_false]
    rcases hc with ⟨hx, honce⟩ | ⟨hx, hbarred⟩
    · refine .inl ⟨⟨x, .head _, hx⟩, (honce.withTests hearlier).append_left (barred_inTurn ?_)⟩
      intro q hq
      rw [hlast, hx q hq, Bool.not_true, Bool.and_false]
    · have hrest := @ih (earlier ++ [⟨x, false⟩]) fun q hq => by
        rw [hlast, hearlier q hq, hx q hq, Bool.not_false, Bool.and_true]
      rcases hrest with ⟨⟨y, hy, htrue⟩, honce⟩ | ⟨hfalse, hrest⟩
      · exact .inl ⟨⟨y, .tail _ hy, htrue⟩, .append_right (hbarred.withTests earlier) honce⟩
      · exact .inr ⟨List.forall_mem_cons.2 ⟨hx, hfalse⟩, (hbarred.withTests earlier).append hrest⟩

end InTurn

end SearchCursor

/-- The filter accepts the entry all the time, or at no time. -/
def Filter.Lasts (Q : Partition → Prop) (id : EntryId) (f : Filter) : Prop :=
  (∀ q, Q q → q.Accepts f id) ∨ ∀ q, Q q → ¬q.Accepts f id

section

variable {p : Partition} {f : Filter} {c : SearchCursor}

theorem Evaluator.stays_true_iff (hQ : ∀ q, Q q → p.Later q) (hid : ∀ q, Q q → q.Stored id)
    (hf : f.Ruled) (hx : ofFilter p f = .ok x) :
    x.Stays Q id true ↔ ∀ q, Q q → q.Accepts f id :=
  forall₂_congr fun q hq => accepts_iff_later (hQ q hq) hf hx (hid q hq)

theorem Filter.Lasts.stays (hQ : ∀ q, Q q → p.Later q) (hid : ∀ q, Q q → q.Stored id)
    (hf : f.Ruled) (hx : Evaluator.ofFilter p f = .ok x) (h : f.Lasts Q id) :
    ∃ b, x.Stays Q id b := by
  rcases h with h | h
  · exact ⟨true, (Evaluator.stays_true_iff hQ hid hf hx).2 h⟩
  · refine ⟨false, fun q hq => Bool.eq_false_iff.2 fun haccepts => h q hq ?_⟩
    exact (Evaluator.accepts_iff_later (hQ q hq) hf hx (hid q hq)).1 haccepts

namespace SearchCursor

open Candidate

theorem all_passes (q : Partition) (xs : List Evaluator) :
    (xs.map fun x => (⟨x, true⟩ : Test)).all (Test.passes q id) = xs.all (·.accepts q id) := by
  rw [List.all_map]
  congr 1
  funext x
  exact beq_true _

theorem Builds.sure {q : Partition} (hq : p.Later q) (h : Builds p f c) (hf : f.Ruled) :
    ∀ k ∈ c.candidates, k.Sure q := by
  have hscan : ∀ y : Evaluator, y.Sure q → ∀ expected,
      ∀ k ∈ (SearchCursor.scan p y expected).candidates, k.Sure q := by
    intro y hy expected
    refine sure_withTests (sure_bare bare_all) fun t ht => ?_
    obtain rfl := List.mem_singleton.1 ht
    exact hy
  induction h with
  | bare _ hbare _ _ => exact sure_bare hbare
  | scan hx => exact hscan _ (Evaluator.sure_later hq hf hx) true
  | not hx => exact hscan _ (Evaluator.sure_later hq (hf.of_part (.not .self)) hx) false
  | @and g fs gs m d xs hsort _ hxs ih =>
    have hmem : ∀ f ∈ g :: gs, f ∈ fs := fun f hf => List.mem_mergeSort.1 (hsort ▸ hf)
    refine sure_withTests (ih (hf.of_part (.and (hmem g (.head _)) .self))) fun t ht => ?_
    obtain ⟨x, hx, rfl⟩ := List.mem_map.1 ht
    obtain ⟨f, hfgs, hfx⟩ := (Evaluator.mem_ofFilters hxs).1 hx
    exact Evaluator.sure_later hq (hf.of_part (.and (hmem f (.tail _ hfgs)) .self)) hfx
  | or hcs _ hxs hc ih =>
    rw [hc]
    refine sure_inTurn (fun d hd => ?_) (fun x hx => ?_) (List.forall_mem_nil _)
    · obtain ⟨f, hmem, hd⟩ := (Except.mem_of_mapM_eq_ok hcs).1 hd
      exact ih f hmem d hd (hf.of_part (.or hmem .self))
    · obtain ⟨f, hmem, hx⟩ := (Evaluator.mem_ofFilters hxs).1 hx
      exact Evaluator.sure_later hq (hf.of_part (.or hmem .self)) hx

theorem accepts_driven {fs gs : List Filter} {m : Option Nat} (hruled : (Filter.and fs m).Ruled)
    (hperm : (f :: gs).Perm fs) (hx : Evaluator.ofFilter p (.and fs m) = .ok x)
    {xs : List Evaluator} (hxs : Evaluator.ofFilters p gs = .ok xs) :
    ∃ y, Evaluator.ofFilter p f = .ok y ∧ ∀ q, p.Later q → ∀ id,
      x.accepts q id = (y.accepts q id && xs.all (·.accepts q id)) := by
  obtain ⟨ys, hys, hx⟩ := Except.bind_eq_ok.1 hx
  cases hx
  obtain ⟨y, hy⟩ := Evaluator.exists_ofFilters.1 ⟨ys, hys⟩ f (hperm.mem_iff.1 (.head _))
  refine ⟨y, hy, fun q hq id => Bool.eq_iff_iff.2 ?_⟩
  have hsure : ∀ z ∈ ys, z.Sure q := (Evaluator.forall_ofFilters hys).2 fun g hg z hz =>
    Evaluator.sure_later hq (hruled.of_part (.and hg .self)) hz
  rw [Evaluator.accepts_and hsure, Evaluator.forall_ofFilters_perm hperm hy hxs hys,
    Bool.and_eq_true, List.all_eq_true]

theorem stays_not (hQ : ∀ q, Q q → p.Later q) {m : Option Nat} (hf : (Filter.not f m).Ruled)
    {y : Evaluator} (hy : Evaluator.ofFilter p f = .ok y)
    (hx : Evaluator.ofFilter p (.not f m) = .ok x) {b : Bool} (hb : x.Stays Q id b) :
    y.Stays Q id (!b) := by
  intro q hq
  rw [Evaluator.ofFilter, hy] at hx
  cases hx
  have hsure := Evaluator.sure_later (hQ q hq) (hf.of_part (.not .self)) hy
  rw [← hb q hq, Evaluator.accepts_not hsure, Bool.not_not]

/-- The cursor of a disjunction, where each condition and its cursor agree on the entry. -/
theorem settled_or (hQ : ∀ q, Q q → p.Later q) {fs : List Filter} {m : Option Nat}
    {cs : List SearchCursor} {xs : List Evaluator} (hruled : (Filter.or fs m).Ruled)
    (hcs : fs.mapM (ofFilter p) = .ok cs) (hxs : Evaluator.ofFilters p fs = .ok xs)
    (hsettled : ∀ f ∈ fs, ∀ c x, ofFilter p f = .ok c → Evaluator.ofFilter p f = .ok x →
      Settled Q id x c.candidates)
    (hx : Evaluator.ofFilter p (.or fs m) = .ok x) : Settled Q id x (inTurn [] cs xs) := by
  have hor : ∀ q, Q q → (x.accepts q id = true ↔ ∃ y ∈ xs, y.accepts q id = true) := by
    intro q hq
    rw [Evaluator.ofFilter, hxs] at hx
    cases hx
    exact Evaluator.accepts_or ((Evaluator.forall_ofFilters hxs).2 fun g hg z hz =>
      Evaluator.sure_later (hQ q hq) (hruled.of_part (.or hg .self)) hz) id
  have hall := Except.forall₂_of_mapM hcs (Evaluator.ofFilters_eq_mapM fs ▸ hxs) hsettled
  have hnone : ∀ q, Q q → ([] : List Test).all (Test.passes q id) = true := fun _ _ => rfl
  rcases settled_inTurn hall hnone with ⟨⟨y, hy, htrue⟩, honce⟩ | ⟨hfalse, hbarred⟩
  · exact .inl ⟨fun q hq => (hor q hq).2 ⟨y, hy, htrue q hq⟩, honce⟩
  · refine .inr ⟨fun q hq => Bool.eq_false_iff.2 fun h => ?_, hbarred⟩
    obtain ⟨y, hy, htrue⟩ := (hor q hq).1 h
    rw [hfalse y hy q hq] at htrue
    cases htrue

/-- **Where all that feeds a filter keeps its answer**, the cursor has the entry once or not at all,
as the filter accepts it or not. -/
theorem Builds.settled (hQ : ∀ q, Q q → p.Later q) (hid : ∀ q, Q q → q.Stored id) (hp : Q p)
    (h : Builds p f c) (hf : f.Ruled) (hlasts : ∀ g : Filter, g.Feeds f → g.Lasts Q id)
    (hx : Evaluator.ofFilter p f = .ok x) : Settled Q id x c.candidates := by
  -- Only the answer of what drives a conjunction tells which candidates there are; the answers of
  -- its other conditions may change as long as that of the conjunction does not.
  induction h generalizing x with
  | bare hx' hbare hfinds hclean =>
    obtain ⟨b, hb⟩ := (hlasts _ .self).stays hQ hid hf hx
    obtain rfl := Except.ok.inj (hx.symm.trans hx')
    cases b with
    | true => exact .inl ⟨hb, bare_once hp (hid p hp) hbare hfinds hclean hb⟩
    | false => exact .inr ⟨hb, bare_barred hp (hid p hp) hbare hfinds hb⟩
  | scan hx' =>
    obtain ⟨b, hb⟩ := (hlasts _ .self).stays hQ hid hf hx
    obtain rfl := Except.ok.inj (hx.symm.trans hx')
    cases b with
    | true => exact .inl ⟨hb, scan_once (hid p hp) hb⟩
    | false => exact .inr ⟨hb, scan_barred hb⟩
  | not hy =>
    obtain ⟨b, hb⟩ := (hlasts _ .self).stays hQ hid hf hx
    have hnot := stays_not hQ hf hy hx hb
    cases b with
    | true => exact .inl ⟨hb, scan_once (hid p hp) hnot⟩
    | false => exact .inr ⟨hb, scan_barred hnot⟩
  | @and g fs gs m d xs hsort _ hxs ih =>
    obtain ⟨b, hb⟩ := (hlasts _ .self).stays hQ hid hf hx
    have hperm := sort_perm hsort
    obtain ⟨y, hy, hand⟩ := accepts_driven hf hperm hx hxs
    rcases ih (hf.of_part (.and (hperm.mem_iff.1 (.head _)) .self))
      (fun h hh => hlasts h (.and hsort hh)) hy with ⟨htrue, honce⟩ | ⟨hfalse, hbarred⟩
    · have hothers : ∀ q, Q q → (xs.map fun x => (⟨x, true⟩ : Test)).all (Test.passes q id) = b :=
        fun q hq => by rw [all_passes, ← hb q hq, hand q (hQ q hq), htrue q hq, Bool.true_and]
      cases b with
      | true => exact .inl ⟨hb, honce.withTests hothers⟩
      | false => exact .inr ⟨hb, barred_withTests hothers⟩
    · refine .inr ⟨fun q hq => ?_, hbarred.withTests _⟩
      rw [hand q (hQ q hq), hfalse q hq, Bool.false_and]
  | or hcs _ hxs hc ih =>
    rw [hc]
    refine settled_or hQ hf hcs hxs (fun g hg d y hd hy => ?_) hx
    exact ih g hg d hd (hf.of_part (.or hg .self)) (fun h hh => hlasts h (.or hg hh)) hy

/-- **Where the filter accepts the entry all the time**, the cursor has it once, if the conditions
that feed a disjunction keep their answers on it. -/
theorem Builds.once (hQ : ∀ q, Q q → p.Later q) (hid : ∀ q, Q q → q.Stored id) (hp : Q p)
    (h : Builds p f c) (hf : f.Ruled)
    (hlasts : ∀ fs n, (Filter.or fs n).Feeds f → ∀ g ∈ fs, ∀ h : Filter, h.Feeds g → h.Lasts Q id)
    (hx : Evaluator.ofFilter p f = .ok x) (hb : x.Stays Q id true) : Once Q id c.candidates := by
  induction h generalizing x with
  | bare hx' hbare hfinds hclean =>
    obtain rfl := Except.ok.inj (hx.symm.trans hx')
    exact bare_once hp (hid p hp) hbare hfinds hclean hb
  | scan hx' =>
    obtain rfl := Except.ok.inj (hx.symm.trans hx')
    exact scan_once (hid p hp) hb
  | not hy => exact scan_once (hid p hp) (stays_not hQ hf hy hx hb)
  | @and g fs gs m d xs hsort _ hxs ih =>
    have hperm := sort_perm hsort
    obtain ⟨y, hy, hand⟩ := accepts_driven hf hperm hx hxs
    have htrue : ∀ q, Q q → y.accepts q id = true ∧ xs.all (·.accepts q id) = true := fun q hq => by
      rw [← Bool.and_eq_true, ← hand q (hQ q hq), hb q hq]
    have honce := ih (hf.of_part (.and (hperm.mem_iff.1 (.head _)) .self))
      (fun fs n h => hlasts fs n (.and hsort h)) hy fun q hq => (htrue q hq).1
    exact honce.withTests fun q hq => by rw [all_passes, (htrue q hq).2]
  | @or fs m c cs xs hcs hall hxs hc _ =>
    -- That the entry is accepted all the time does not tell by which of the conditions.
    have hsettled := settled_or hQ hf hcs hxs (fun g hg d y hd hy => (hall g hg d hd).settled hQ hid
      hp (hf.of_part (.or hg .self)) (hlasts fs m .self g hg) hy) hx
    rw [hc]
    rcases hsettled with ⟨_, honce⟩ | ⟨hfalse, _⟩
    · exact honce
    · exact absurd (hb p hp) (Bool.eq_false_iff.1 (hfalse p hp))

end SearchCursor

end

end Time

end Directory
