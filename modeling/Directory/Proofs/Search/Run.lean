import Directory.Proofs.Search.Walk
import Directory.Search.Run

/-!
# What a search gives

* `SearchResults.Gives`: the entries that results have still to give; `SearchResults.step_of_gives`:
  one step gives the first of them; `SearchResults.drainWithin_of_gives`: all steps give them all.
* `Partition.StartsFrom`, `Partition.searchBase_eq_ok`: the entry in the place of the base.
* `Partition.Reachable.search_results`: **a search gives the entries of its scope that satisfy its
  filter**, each once and as it is stored.
-/

namespace Directory

variable {p : Partition} {n : Nat}

/-! ## Iteration -/

namespace SearchResults

variable {r : SearchResults} {es : List Entry}

/-- Without a limit on their number, the results have these entries ahead. -/
structure Gives (p : Partition) (r : SearchResults) (es : List Entry) : Prop where
  unlimited : r.limit = none
  intact : r.failed = false
  ahead : ∃ els, r.search.cursor.Gives (accept p) els ∧ els.map Element.entry = es.map some

/-- One step gives the first of the entries. -/
theorem step_of_gives (h : r.Gives p es) :
    ∃ r', r.step p = (es.head?.map .ok, r') ∧ r'.Gives p es.tail := by
  obtain ⟨⟨seeking, track, current, closed⟩, limit, returned, reached, failed⟩ := r
  obtain rfl : limit = none := h.unlimited
  obtain rfl : failed = false := h.intact
  obtain ⟨els, hels, hentries⟩ := h.ahead
  obtain rfl : closed = false := hels.isOpen
  obtain ⟨c, hc, hcurrent, hgives⟩ := Cursor.next_of_gives hels
  have hwalk : liftWalk (Cursor.next (accept p))
      ⟨⟨seeking, track, current, false⟩, none, returned, reached, false⟩ =
      .ok els.head?.isSome ⟨⟨seeking, c⟩, none, returned, reached, false⟩ := by
    unfold liftWalk lift SearchCursor.lift onPart
    dsimp only
    rw [hc]
  obtain ⟨k, hnext⟩ : ∃ k, next p
      ⟨⟨seeking, track, current, false⟩, none, returned, reached, false⟩ =
      .ok els.head?.isSome ⟨⟨seeking, c⟩, none, k, reached, false⟩ := by
    refine ⟨if els.head?.isSome then returned + 1 else returned, (bind_of_ok hwalk).trans ?_⟩
    cases els <;> rfl
  unfold step
  rw [if_neg Bool.false_ne_true, hnext]
  cases els with
  | nil =>
    obtain rfl := List.map_eq_nil_iff.1 hentries.symm
    exact ⟨_, rfl, rfl, rfl, [], hgives, rfl⟩
  | cons el els =>
    cases es with
    | nil => cases hentries
    | cons e es =>
      rw [List.map_cons, List.map_cons, List.cons.injEq] at hentries
      have hentry : entry ⟨⟨seeking, c⟩, none, k, reached, false⟩ = .ok e := by
        rw [entry, hcurrent, List.head?_cons, Option.bind_some, hentries.1]
      dsimp only [List.head?_cons, Option.isSome_some]
      rw [hentry]
      exact ⟨_, rfl, rfl, rfl, els, hgives, hentries.2⟩

/-- **All steps** give the entries ahead and end, however many there may be beyond that. -/
theorem drainWithin_of_gives (h : r.Gives p es) :
    ∃ r', ∀ m, es.length < m → r.drainWithin p m = (es.map .ok, r') := by
  induction es generalizing r with
  | nil =>
    obtain ⟨r', hr', _⟩ := step_of_gives h
    refine ⟨r', fun m hm => ?_⟩
    obtain ⟨m, rfl⟩ := Nat.exists_eq_add_one.2 hm
    rw [drainWithin, hr']
    rfl
  | cons e es ih =>
    obtain ⟨r', hr', hgives⟩ := step_of_gives h
    obtain ⟨r'', hr''⟩ := ih hgives
    refine ⟨r'', fun m hm => ?_⟩
    obtain ⟨m, rfl⟩ := Nat.exists_eq_add_one.2 (Nat.zero_lt_of_lt hm)
    rw [drainWithin, hr']
    dsimp only [List.head?_cons, Option.map_some]
    rw [hr'' m (Nat.lt_of_succ_lt_succ hm)]
    rfl

theorem keeps_records (hown : p.OwnNumbers) {ks : List Candidate} {els : List (Element SearchKey)}
    (h : Keeps (Test.accept p) ks els) (hstored : ∀ el ∈ els, p.Stored el.id) :
    ∃ (els' : List (Element SearchKey)) (es : List Entry), Keeps (accept p) ks els' ∧
      els'.map Element.entry = es.map some ∧ es.map Entry.id = els.map Element.id ∧
      ∀ e ∈ es, p.get? e.id = some e := by
  induction h with
  | nil => exact ⟨[], [], .nil, rfl, rfl, List.forall_mem_nil _⟩
  | skip hx _ ih =>
    obtain ⟨els', es, hkeeps, hrest⟩ := ih hstored
    exact ⟨els', es, .skip (by rw [accept, hx]; rfl) hkeeps, hrest⟩
  | @keep k el ks els hx _ ih =>
    obtain ⟨els', es, hkeeps, hentries, hids, hget⟩ := ih fun el hel => hstored el (.tail _ hel)
    obtain ⟨e, he⟩ := hstored el (.head _)
    have hid : e.id = el.id := hown _ e he
    refine ⟨{ el with entry := some e } :: els', e :: es, .keep ?_ hkeeps, ?_, ?_, ?_⟩
    · rw [accept, hx]
      show Except.ok ((p.get? el.id).map _) = _
      rw [he]
      rfl
    · rw [List.map_cons, hentries, List.map_cons]
    · rw [List.map_cons, hids, hid, List.map_cons]
    · exact List.forall_mem_cons.2 ⟨hid ▸ he, hget⟩

end SearchResults

/-! ## Selections -/

namespace SearchCursor

variable {c : SearchCursor}

/-- The cursor selects the stored entries of a kind, each once. -/
def Selects (p : Partition) (c : SearchCursor) (q : Entry → Prop) : Prop :=
  ∃ x, c.Finds p x ∧ c.Clean p ∧ ∀ id e, p.get? id = some e → (x.accepts p id = true ↔ q e)

theorem Selects.gives (hown : p.OwnNumbers) {q : Entry → Prop} (h : c.Selects p q) :
    ∃ es, (SearchResults.ofCursor c none).Gives p es ∧ (es.map Entry.id).Nodup ∧
      ∀ e, e ∈ es ↔ p.get? e.id = some e ∧ q e := by
  obtain ⟨x, hfinds, hclean, hq⟩ := h
  obtain ⟨els, hels, hyields⟩ := Test.keeps hfinds.sure
  have hstored : ∀ el ∈ els, p.Stored el.id := fun el hel =>
    hclean.stored el.id (by rw [yields, ← hyields]; exact List.mem_map_of_mem hel)
  obtain ⟨els', es, hkeeps, hentries, hids, hget⟩ := SearchResults.keeps_records hown hels hstored
  have hids : es.map Entry.id = c.yields p := hids.trans hyields
  refine ⟨es, ⟨rfl, rfl, els', ?_, hentries⟩, hids ▸ hclean.once, fun e => ?_⟩
  · show c.cursor.Gives _ _
    rw [hfinds.fresh]
    exact Cursor.ofList_gives hkeeps
  · have hmem : p.get? e.id = some e → (e ∈ es ↔ e.id ∈ es.map Entry.id) := fun he => by
      refine ⟨List.mem_map_of_mem, fun h => ?_⟩
      obtain ⟨e', he', hid⟩ := List.mem_map.1 h
      have := hget e' he'
      rw [hid, he] at this
      exact Option.some.inj this ▸ he'
    constructor
    · intro h
      have he := hget e h
      refine ⟨he, (hq _ e he).1 ((hfinds.exact _ ⟨e, he⟩).1 ?_)⟩
      exact hids ▸ (hmem he).1 h
    · rintro ⟨he, h⟩
      refine (hmem he).2 (hids ▸ ?_)
      exact (hfinds.exact _ ⟨e, he⟩).2 ((hq _ e he).2 h)

end SearchCursor

/-! ## A search -/

namespace Sample

/-- The search for the person of a name among the children of a unit. -/
def request : SearchRequest := ⟨unit "B", .oneLevel, .never, filter "Anna   LEE" none, none⟩

theorem searchBase_request : partition.searchBase request.base request.mode.followsBase = .ok 3 ∧
    request.filter.normalize partition.schema = .ok (filter "anna lee" none) ∧
    partition.config.limits.check request.filter = .ok () := by
  have h : (partition.searchBase request.base request.mode.followsBase).toOption = some 3 ∧
      (request.filter.normalize partition.schema).toOption = some (filter "anna lee" none) ∧
      (partition.config.limits.check request.filter).toOption = some () := by decide +kernel
  exact ⟨Except.toOption_eq_some.1 h.1, Except.toOption_eq_some.1 h.2.1,
    Except.toOption_eq_some.1 h.2.2⟩

/-- The search can be made: the scope, which has fewer candidates, drives its cursor. -/
theorem exists_search : ∃ r, partition.search request = .ok r := by
  let scope := (Filter.scope 3 .oneLevel .never none).annotate partition
  let rest := (filter "anna lee" none).annotate partition
  have hscope : partition.searchScope 3 request (filter "anna lee" none) = SearchCursor.conjunction
      partition [(scope, SearchCursor.scope partition 3 .oneLevel false),
        (rest, SearchCursor.ofFilter partition rest)] := rfl
  obtain ⟨hle, hx⟩ : scope.estimate ≤ rest.estimate ∧
    (Evaluator.ofFilters partition [rest]).toOption.isSome = true := by decide +kernel
  have hsort : ∀ x y : Except Error SearchCursor, [(scope, x), (rest, y)].mergeSort
      (fun x y => x.1.estimate ≤ y.1.estimate) = [(scope, x), (rest, y)] := fun x y =>
    List.mergeSort_of_pairwise (List.pairwise_pair.2 (decide_eq_true hle))
  obtain ⟨xs, hxs⟩ := Option.isSome_iff_exists.1 hx
  have hc : ∃ c, partition.searchScope 3 request (filter "anna lee" none) = .ok c := by
    rw [hscope, SearchCursor.conjunction, hsort]
    dsimp only [List.map]
    rw [Except.toOption_eq_some.1 hxs]
    exact ⟨_, rfl⟩
  obtain ⟨c, hc⟩ := hc
  obtain ⟨hbase, hf, hlimits⟩ := searchBase_request
  exact ⟨.ofCursor c none, Except.bind_eq_ok.2 ⟨(), hlimits, Except.bind_eq_ok.2 ⟨3, hbase,
    Except.bind_eq_ok.2 ⟨_, hf, Except.bind_eq_ok.2 ⟨c, hc, rfl⟩⟩⟩⟩⟩

end Sample

/-! ## Bases -/

namespace Partition

/-- A search starts from the entry under the normalized name of the base or, if that is an alias that
is followed, from the one under the normalized name of its target. -/
inductive StartsFrom (p : Partition) (name : Dn) (follow : Bool) : EntryId → Prop
  | base {id : EntryId} (hbase : p.idOfNormalized? name.normalized = some id)
      (hstay : follow = true →
        ∃ e, p.get? id = some e ∧ (e.isAlias = true → e.aliasTarget? = none)) :
      StartsFrom p name follow id
  | target {b id : EntryId} {e : Entry} {written : String} {target : Dn}
      (hbase : p.idOfNormalized? name.normalized = some b) (hfollow : follow = true)
      (he : p.get? b = some e) (halias : e.isAlias = true)
      (hwritten : e.aliasTarget? = some written) (htarget : Dn.parse written = .ok target)
      (hid : p.idOfNormalized? target.normalized = some id) : StartsFrom p name follow id

variable {name : Dn} {follow : Bool} {id : EntryId}

theorem startsFrom_of_searchBase (h : p.searchBase name follow = .ok id) :
    p.StartsFrom name follow id := by
  unfold searchBase idOf? at h
  split at h
  · rename_i b hb
    cases follow with
    | false =>
      cases h
      exact .base hb nofun
    | true =>
      obtain ⟨e, he, h⟩ := Except.bind_eq_ok.1 h
      have he := lookup_eq_ok.1 he
      split at h
      · rename_i hnone
        cases h
        exact .base hb fun _ => ⟨e, he, fun _ => hnone⟩
      · rename_i written hwritten
        cases halias : e.isAlias with
        | false =>
          rw [halias] at h
          cases h
          exact .base hb fun _ => ⟨e, he, fun h => Bool.noConfusion (halias.symm.trans h)⟩
        | true =>
          rw [halias] at h
          obtain ⟨target, htarget, h⟩ := Except.bind_eq_ok.1 h
          split at h
          · rename_i i hi
            cases h
            exact .target hb rfl he halias hwritten htarget hi
          · cases h
  · cases h

theorem StartsFrom.searchBase (h : p.StartsFrom name follow id) :
    p.searchBase name follow = .ok id := by
  unfold Partition.searchBase idOf?
  cases h with
  | base hbase hstay =>
    rw [hbase]
    cases follow with
    | false => rfl
    | true =>
      obtain ⟨e, he, hnone⟩ := hstay rfl
      refine Except.bind_eq_ok.2 ⟨e, lookup_eq_ok.2 he, ?_⟩
      split
      · rfl
      · rename_i written hwritten
        have halias : e.isAlias = false :=
          Bool.eq_false_iff.2 fun halias => by cases hwritten.symm.trans (hnone halias)
        rw [halias]
        rfl
  | target hbase hfollow he halias hwritten htarget hid =>
    rw [hbase, hfollow]
    refine Except.bind_eq_ok.2 ⟨_, lookup_eq_ok.2 he, ?_⟩
    rw [hwritten, halias]
    refine Except.bind_eq_ok.2 ⟨_, htarget, ?_⟩
    rw [hid]
    rfl

/-- **Which entry a search starts from.** -/
theorem searchBase_eq_ok : p.searchBase name follow = .ok id ↔ p.StartsFrom name follow id :=
  ⟨startsFrom_of_searchBase, StartsFrom.searchBase⟩

end Partition

/-! ## Searches -/

namespace Filter

variable {base : EntryId} {s : SearchScope} {mode : AliasMode} {f : Filter}

theorem part_within {g : Filter} (h : g.Part (.and [.scope base s mode none, f] none)) :
    g = .and [.scope base s mode none, f] none ∨ g = .scope base s mode none ∨ g.Part f := by
  rcases part_and.1 h with rfl | ⟨f', hf', h⟩
  · exact .inl rfl
  · rcases List.mem_cons.1 hf' with rfl | hf'
    · cases h
      exact .inr (.inl rfl)
    · exact .inr (.inr (List.mem_singleton.1 hf' ▸ h))

theorem ruled_within (h : f.Ruled) : (and [.scope base s mode none, f] none).Ruled := by
  intro a v d n hpart
  rcases part_within hpart with hpart | hpart | hpart
  · cases hpart
  · cases hpart
  · exact h a v d n hpart

theorem followsNone_within (hmode : mode.followsBelow = false) (h : f.NoScope) :
    (and [.scope base s mode none, f] none).FollowsNone := by
  intro b s' m n hpart hs
  rcases part_within hpart with hpart | hpart | hpart
  · cases hpart
  · cases hpart
    exact hmode
  · exact absurd hpart (h b s' m n)

end Filter

namespace Partition

variable {base : EntryId} {f : Filter} {c : SearchCursor}

theorem searchBaseAlone_selects (hp : p.Valued n) (ht : p.Arranged) (hruled : f.Ruled)
    (hnone : f.FollowsNone) (hc : p.searchBaseAlone base f = .ok c) :
    c.Selects p fun e => p.InScope base .base e.id ∧ f.Holds p e := by
  obtain ⟨e, he, hc⟩ := Except.bind_eq_ok.1 hc
  obtain ⟨x, hx, hc⟩ := Except.bind_eq_ok.1 hc
  obtain ⟨b, hb, hc⟩ := Except.bind_eq_ok.1 hc
  have he := lookup_eq_ok.1 he
  obtain ⟨b', hb', hiff⟩ := Evaluator.evaluateEntry_spec hp ht he f hruled hx
  obtain rfl : b' = b := Except.ok.inj (hb'.symm.trans hb)
  have hholds := hiff hnone
  have hbase : ∀ id e', p.get? id = some e' →
      (p.InScope base .base e'.id ↔ id = base ∧ e' = e) := by
    intro id e' he'
    rw [InScope, hp.own id e' he']
    refine ⟨?_, And.left⟩
    rintro rfl
    exact ⟨rfl, Option.some.inj (he'.symm.trans he)⟩
  cases b' with
  | true =>
    cases hc
    rw [show SearchCursor.singleton ⟨none, base, some e⟩ = SearchCursor.ofBase p base by
      rw [SearchCursor.ofBase, he]]
    refine ⟨.scope base .base false,
      SearchCursor.ofBase_finds fun id => Evaluator.accepts_of_eq rfl, SearchCursor.ofBase_clean,
      fun id e' he' => ?_⟩
    dsimp only
    rw [hbase id e' he', Evaluator.accepts_of_eq (b := id == base) rfl, beq_iff_eq]
    constructor
    · rintro rfl
      obtain rfl := Option.some.inj (he'.symm.trans he)
      exact ⟨⟨rfl, rfl⟩, hholds.1 rfl⟩
    · exact fun h => h.1.1
  | false =>
    cases hc
    refine ⟨.or [], SearchCursor.empty_finds fun id => Evaluator.accepts_of_eq rfl,
      SearchCursor.empty_clean, fun id e' he' => ?_⟩
    dsimp only
    rw [hbase id e' he', Evaluator.accepts_of_eq (b := false) rfl]
    refine iff_of_false Bool.false_ne_true ?_
    rintro ⟨⟨rfl, rfl⟩, h⟩
    exact Bool.false_ne_true (hholds.2 h)

theorem searchScope_selects (hp : p.Valued n) (ht : p.Arranged) {q : SearchRequest}
    (hmode : q.mode.followsBelow = false) (hnoScope : q.filter.NoScope) (hruled : q.filter.Ruled)
    (hf : q.filter.normalize p.schema = .ok f) (hc : p.searchScope base q f = .ok c) :
    c.Selects p fun e => p.InScope base q.scope e.id ∧ f.Holds p e := by
  have hg : (Filter.and [.scope base q.scope q.mode none, q.filter] none).normalize p.schema =
      .ok (.and [.scope base q.scope q.mode none, f] none) := by
    rw [Filter.normalize, Filter.normalizeAll, Filter.normalizeAll, hf]
    rfl
  have hruled : ∀ f' : Filter,
      f'.bare = (Filter.and [.scope base q.scope q.mode none, f] none).bare → f'.Ruled :=
    fun f' hbare => Filter.ruled_of_normalize hg hbare (Filter.ruled_within hruled)
  have hnone : ∀ f' : Filter,
      f'.bare = (Filter.and [.scope base q.scope q.mode none, f] none).bare → f'.FollowsNone :=
    fun f' hbare =>
      Filter.followsNone_of_normalize hg hbare (Filter.followsNone_within hmode hnoScope)
  have hbare := Filter.bare_annotate p (.and [.scope base q.scope q.mode none, f] none)
  have hanswered : ∀ g : Filter, g.Part _ → g.Answered p := fun g hpart =>
    Evaluator.answered_of_ruled hp ht (hruled _ hbare) hpart
  obtain ⟨x, hx, hfinds, hclean⟩ :=
    SearchCursor.ofFilter_serves hp ht _ (Filter.normalize_isNormal hg hbare) hanswered c hc
  refine ⟨x, hfinds, hclean (hnone _ hbare), fun id e he => ?_⟩
  rw [Evaluator.accepts_iff hp (Evaluator.sure_of_answered hp (hanswered _ .self) hx) hx he]
  rw [← Evaluator.ofFilter_bare, hbare, Evaluator.ofFilter_bare] at hx
  obtain ⟨b, hb, hiff⟩ := Evaluator.evaluateEntry_spec hp ht he _ (hruled _ rfl) hx
  have hholds := hiff (hnone _ rfl)
  simp only [Filter.Holds, Filter.HoldAll, and_true] at hholds
  rw [hb, Except.ok.injEq, hholds]

/-- **A search gives the entries of its scope that satisfy its filter.** The filter has no scopes of
its own and names the rules of its extensible conditions, and aliases are followed at most in place
of the base, which `searchBase_eq_ok` tells. Then all steps from the start of the results give
exactly these entries, each once and as it is stored. -/
theorem Reachable.search_results (hp : p.Reachable) {q : SearchRequest} {r : SearchResults}
    (hmode : q.mode = .never ∨ q.mode = .findingBase) (hnoScope : q.filter.NoScope)
    (hruled : q.filter.Ruled) (hlimit : q.sizeLimit = none) (hr : p.search q = .ok r) :
    ∃ base f, p.searchBase q.base q.mode.followsBase = .ok base ∧
      q.filter.normalize p.schema = .ok f ∧ ∃ (es : List Entry) (r' : SearchResults),
        (∀ m, es.length < m → r.drainWithin p m = (es.map .ok, r')) ∧ (es.map Entry.id).Nodup ∧
        ∀ e, e ∈ es ↔ p.get? e.id = some e ∧ p.InScope base q.scope e.id ∧ f.Holds p e := by
  obtain ⟨n, hvalued⟩ := hp.valued
  obtain ⟨_, _, hreached⟩ := hp
  obtain ⟨_, _, hr⟩ := Except.bind_eq_ok.1 hr
  obtain ⟨base, hbase, hr⟩ := Except.bind_eq_ok.1 hr
  obtain ⟨f, hf, hr⟩ := Except.bind_eq_ok.1 hr
  obtain ⟨c, hc, hselects⟩ : ∃ c, .ofCursor c q.sizeLimit = r ∧
      c.Selects p fun e => p.InScope base q.scope e.id ∧ f.Holds p e := by
    dsimp only at hr
    split at hr
    · rename_i hscope
      obtain ⟨c, hc, hr⟩ := Except.bind_eq_ok.1 hr
      rw [hscope]
      exact ⟨c, Except.ok.inj hr, searchBaseAlone_selects hvalued hreached.arranged
        (Filter.ruled_of_normalize hf rfl hruled)
        (Filter.followsNone_of_normalize hf rfl hnoScope.followsNone) hc⟩
    · obtain ⟨c, hc, hr⟩ := Except.bind_eq_ok.1 hr
      have hbelow : q.mode.followsBelow = false := by rcases hmode with h | h <;> rw [h] <;> rfl
      exact ⟨c, Except.ok.inj hr, searchScope_selects hvalued hreached.arranged hbelow hnoScope
        hruled hf hc⟩
  obtain ⟨es, hgives, honce, hes⟩ := hselects.gives hvalued.own
  rw [← hc, hlimit]
  obtain ⟨r', hr'⟩ := SearchResults.drainWithin_of_gives hgives
  exact ⟨base, f, hbase, hf, es, r', hr', honce, hes⟩

theorem search_results_sample : ∃ (r : SearchResults) (es : List Entry) (r' : SearchResults),
    Sample.partition.search Sample.request = .ok r ∧
    (∀ m, es.length < m → r.drainWithin Sample.partition m = (es.map .ok, r')) ∧
    (es.map Entry.id).Nodup ∧ 4 ∈ es.map Entry.id := by
  obtain ⟨r, hr⟩ := Sample.exists_search
  obtain ⟨base, f, hbase, hf, es, r', hr', honce, hes⟩ := Reachable.search_results Sample.reachable
    (.inl rfl) Sample.filter_noScope Sample.filter_ruled rfl hr
  obtain rfl := Except.ok.inj (hbase.symm.trans Sample.searchBase_request.1)
  obtain rfl := Except.ok.inj (hf.symm.trans Sample.searchBase_request.2.1)
  obtain ⟨e, he, hid, hparent, hvalues, hnormalize⟩ := Sample.person_stored
  refine ⟨r, es, r', hr, hr', honce, List.mem_map.2 ⟨e, (hes e).2 ⟨hid ▸ he, ?_, ?_⟩, hid⟩⟩
  · exact ⟨e, hid ▸ he, hparent⟩
  · refine .inl ⟨.text "anna lee", ⟨.text "Anna  Lee", ?_, hnormalize⟩, by decide⟩
    rw [hvalues]
    exact .tail _ (.head _)

end Partition

end Directory
