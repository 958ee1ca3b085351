import Directory.Proofs.Filter.Parts
import Directory.Proofs.Search.Candidates

/-!
# Cursors serve their filters

* `Filter.Answered`: the test for a filter answers on the record of every stored entry.
* `SearchCursor.Serves`: a cursor finds what the evaluator of a filter accepts.
* One lemma for each kind of condition; `conjunction_serves` and `disjunction_serves` put cursors
  together.
* `SearchCursor.ofFilter_serves`: **the cursor of a filter serves it**, whatever its estimates.
-/

namespace Directory

variable {p : Partition} {n : Nat}

theorem Except.forall₂_of_mapM {ε α β γ : Type} {f : α → Except ε β} {g : α → Except ε γ}
    {R : β → γ → Prop} {xs : List α} {ys : List β} {zs : List γ} (hys : xs.mapM f = .ok ys)
    (hzs : xs.mapM g = .ok zs) (h : ∀ x ∈ xs, ∀ y z, f x = .ok y → g x = .ok z → R y z) :
    List.Forall₂ R ys zs := by
  induction xs generalizing ys zs with
  | nil =>
    cases hys
    cases hzs
    exact .nil
  | cons x xs ih =>
    rw [List.mapM_cons] at hys hzs
    obtain ⟨y, hy, hys⟩ := Except.bind_eq_ok.1 hys
    obtain ⟨ys, hys', hys⟩ := Except.bind_eq_ok.1 hys
    obtain ⟨z, hz, hzs⟩ := Except.bind_eq_ok.1 hzs
    obtain ⟨zs, hzs', hzs⟩ := Except.bind_eq_ok.1 hzs
    cases hys
    cases hzs
    exact .cons (h x (.head _) y z hy hz) (ih hys' hzs' fun x hx => h x (.tail _ hx))

/-! ## Evaluators that always answer -/

/-- The test for the filter answers on the record of every stored entry. -/
def Filter.Answered (p : Partition) (f : Filter) : Prop :=
  ∀ x, Evaluator.ofFilter p f = .ok x →
    ∀ id e, p.get? id = some e → ∃ b, x.evaluateEntry p e = .ok b

namespace Evaluator

theorem sure_of_answered (hp : p.Valued n) {f : Filter} {x : Evaluator} (h : f.Answered p)
    (hx : ofFilter p f = .ok x) : x.Sure p := by
  intro id
  have hbacked : x.Backed p := ofFilter_backed f hx
  cases he : p.get? id with
  | none => exact hbacked.evaluateId_unstored hp he
  | some e =>
    rw [hbacked.evaluateId_eq hp he]
    exact h x hx id e he

theorem accepts_iff (hp : p.Valued n) {f : Filter} {x : Evaluator} (hsure : x.Sure p)
    (hx : ofFilter p f = .ok x) {id : EntryId} {e : Entry} (he : p.get? id = some e) :
    x.accepts p id = true ↔ x.evaluateEntry p e = .ok true := by
  rw [← (ofFilter_backed f hx).evaluateId_eq hp he, hsure.evaluateId_eq id]
  exact ⟨fun h => h ▸ rfl, Except.ok.inj⟩

theorem ofFilters_eq_mapM (fs : List Filter) : ofFilters p fs = fs.mapM (ofFilter p) := by
  induction fs with
  | nil => rfl
  | cons f fs ih => rw [ofFilters, List.mapM_cons, ih]

theorem mem_ofFilters {fs : List Filter} {xs : List Evaluator} (h : ofFilters p fs = .ok xs)
    {x : Evaluator} : x ∈ xs ↔ ∃ f ∈ fs, ofFilter p f = .ok x :=
  Except.mem_of_mapM_eq_ok (ofFilters_eq_mapM fs ▸ h)

theorem exists_ofFilters {fs : List Filter} :
    (∃ xs, ofFilters p fs = .ok xs) ↔ ∀ f ∈ fs, ∃ x, ofFilter p f = .ok x := by
  rw [ofFilters_eq_mapM]
  exact Except.exists_mapM_eq_ok

theorem forall_ofFilters {fs : List Filter} {xs : List Evaluator} (h : ofFilters p fs = .ok xs)
    {P : Evaluator → Prop} : (∀ x ∈ xs, P x) ↔ ∀ f ∈ fs, ∀ x, ofFilter p f = .ok x → P x := by
  constructor
  · exact fun hall f hf x hx => hall x ((mem_ofFilters h).2 ⟨f, hf, hx⟩)
  · intro hall x hx
    obtain ⟨f, hf, hx⟩ := (mem_ofFilters h).1 hx
    exact hall f hf x hx

theorem forall_ofFilters_perm {f : Filter} {fs gs : List Filter} {x : Evaluator}
    {xs ys : List Evaluator} (hperm : (f :: fs).Perm gs) (hx : ofFilter p f = .ok x)
    (hxs : ofFilters p fs = .ok xs) (hys : ofFilters p gs = .ok ys) {P : Evaluator → Prop} :
    (∀ y ∈ ys, P y) ↔ P x ∧ ∀ z ∈ xs, P z := by
  rw [forall_ofFilters hys, forall_ofFilters hxs]
  simp only [← hperm.mem_iff, List.forall_mem_cons, hx, Except.ok.injEq, forall_eq']

theorem evaluateAll_sure {xs : List Evaluator} (h : ∀ x ∈ xs, x.Sure p) (id : EntryId) :
    evaluateIdAll p id xs = .ok (xs.all (·.accepts p id)) ∧
      evaluateIdAny p id xs = .ok (xs.any (·.accepts p id)) := by
  induction xs with
  | nil => exact ⟨rfl, rfl⟩
  | cons x xs ih =>
    obtain ⟨hall, hany⟩ := ih fun y hy => h y (.tail _ hy)
    rw [evaluateIdAll, evaluateIdAny, hall, hany, (h x (.head _)).evaluateId_eq id, List.all_cons,
      List.any_cons]
    cases x.accepts p id <;> exact ⟨rfl, rfl⟩

theorem accepts_and {xs : List Evaluator} (h : ∀ x ∈ xs, x.Sure p) (id : EntryId) :
    (and xs).accepts p id = true ↔ ∀ x ∈ xs, x.accepts p id = true := by
  have hall : (and xs).evaluateId p id = .ok (xs.all (·.accepts p id)) := by
    rw [evaluateId]
    exact (evaluateAll_sure h id).1
  rw [accepts_of_eq hall, List.all_eq_true]

theorem accepts_or {xs : List Evaluator} (h : ∀ x ∈ xs, x.Sure p) (id : EntryId) :
    (or xs).accepts p id = true ↔ ∃ x ∈ xs, x.accepts p id = true := by
  have hany : (or xs).evaluateId p id = .ok (xs.any (·.accepts p id)) := by
    rw [evaluateId]
    exact (evaluateAll_sure h id).2
  rw [accepts_of_eq hany, List.any_eq_true]

theorem accepts_not {x : Evaluator} (h : x.Sure p) (id : EntryId) :
    (not x).accepts p id = !x.accepts p id := by
  refine accepts_of_eq ?_
  rw [evaluateId, h.evaluateId_eq id]
  rfl

end Evaluator

theorem Partition.Valued.stored_of_has (hp : p.Valued n) {a : AttributeId} {i : Index Value}
    (hi : p.userIndex? a = some i) {k : Value} {id : EntryId} (h : i.Has k id) : p.Stored id := by
  obtain ⟨v, hv, _⟩ := (hp.index_has hi).1 h
  obtain ⟨e, he, _⟩ := (valuesOf_iff (P := (v ∈ ·)) List.not_mem_nil).1 hv
  exact ⟨e, he⟩

namespace SearchCursor

variable {c : SearchCursor}

/-- The cursor finds what the evaluator of the filter accepts, and nothing twice unless aliases are
followed. -/
def Serves (p : Partition) (f : Filter) (c : SearchCursor) : Prop :=
  ∃ x, Evaluator.ofFilter p f = .ok x ∧ c.Finds p x ∧ (f.FollowsNone → c.Clean p)

/-! ## Conditions by themselves -/

theorem scanFor_serves {f : Filter} (hsure : ∀ x, Evaluator.ofFilter p f = .ok x → x.Sure p)
    (hc : scanFor p f = .ok c) : Serves p f c := by
  obtain ⟨x, hx, hc⟩ := Except.bind_eq_ok.1 hc
  cases hc
  exact ⟨x, hx, scan_finds (hsure x hx) fun id _ => (beq_true _).symm, fun _ => scan_clean⟩

theorem presence_serves (hp : p.Valued n) {a : AttributeId} {m : Option Nat}
    (ha : p.hasUserIndex a = true) : Serves p (.presence a m) (underKey p.presence a none) := by
  refine ⟨_, rfl, ofIds_finds fun id _ => ?_,
    fun _ => ofIds_clean (fun id hid => ?_) Index.nodup_ids⟩
  · rw [ha, Evaluator.accepts_of_eq (by rw [Evaluator.evaluateId]), Index.has_iff]
    rfl
  · have hvalues := (hp.presence_has.1 (Index.has_iff.2 hid)).2
    obtain ⟨e, he, _⟩ := (Partition.valuesOf_iff (P := (· ≠ [])) fun hv => hv rfl).1 hvalues
    exact ⟨e, he⟩

theorem accepts_comparison (hp : p.Valued n) {op : Comparison} {a : AttributeId} {v : Value}
    {b : Bool} (hb : p.indexesComparison op a = .ok b) {i : Index Value}
    (hi : Evaluator.indexFor? p a b = some i) (id : EntryId) :
    (Evaluator.comparison op a v b).accepts p id = (i.keys id).any (op.holds v) := by
  obtain ⟨rfl, hi'⟩ := Option.ite_none_right_eq_some.1 hi
  refine Evaluator.accepts_of_eq ?_
  rw [Evaluator.evaluateId, hi]
  exact hp.askIndex_eq hi' hb v id

/-- A condition that no index answers is tested on the record, whatever the evaluator asked for. -/
theorem evaluateId_unindexed {a : AttributeId} {b : Bool} (hi : Evaluator.indexFor? p a b = none)
    (op : Comparison) (v : Value) (id : EntryId) : (Evaluator.comparison op a v b).evaluateId p id =
      (Evaluator.comparison op a v false).evaluateId p id := by
  rw [Evaluator.evaluateId, Evaluator.evaluateId, hi]
  rfl

theorem range_serves (hp : p.Valued n) {op : Comparison} {a : AttributeId} {v : Value}
    {m : Option Nat} (hsure : ∀ x, Evaluator.ofFilter p (.comparison op a v m) = .ok x → x.Sure p)
    (hc : range p op a v = .ok c) : Serves p (.comparison op a v m) c := by
  obtain ⟨b, hb, hc⟩ := Except.bind_eq_ok.1 hc
  have hx : Evaluator.ofFilter p (.comparison op a v m) = .ok (.comparison op a v b) := by
    rw [Evaluator.ofFilter, hb]
    rfl
  refine ⟨_, hx, ?_⟩
  cases hi : Evaluator.indexFor? p a b with
  | some i =>
    rw [hi] at hc
    cases hc
    have hi' := (Option.ite_none_right_eq_some.1 hi).2
    have hwf := hp.sound.user a i hi'
    exact ⟨firstTuples_finds hwf (accepts_comparison hp hb hi),
      fun _ => firstTuples_clean hwf fun k id => hp.stored_of_has hi'⟩
  | none =>
    rw [hi] at hc
    cases hc
    have heq := evaluateId_unindexed hi op v
    refine ⟨scan_finds (fun id => heq id ▸ hsure _ hx id) fun id _ => ?_, fun _ => scan_clean⟩
    rw [beq_true, Evaluator.accepts, heq, Evaluator.accepts]

theorem equal_serves (hp : p.Valued n) {op : Comparison} (hop : op = .equality ∨ op = .approximate)
    {a : AttributeId} {v : Value} {m : Option Nat} {i : Index Value}
    (hi : p.userIndex? a = some i) :
    Serves p (.comparison op a v m) (underKey i v (some v)) := by
  have hindexed : p.hasUserIndex a = true := by rw [Partition.hasUserIndex, hi]; rfl
  have hb : p.indexesComparison op a = .ok true := by
    rcases hop with rfl | rfl <;> exact congrArg Except.ok hindexed
  have hx : Evaluator.ofFilter p (.comparison op a v m) = .ok (.comparison op a v true) := by
    rw [Evaluator.ofFilter, hb]
    rfl
  have hask : ∀ id, (Evaluator.comparison op a v true).accepts p id = i.has v id := fun id => by
    refine Evaluator.accepts_of_eq ?_
    rw [Evaluator.evaluateId, show Evaluator.indexFor? p a true = some i from hi]
    rcases hop with rfl | rfl <;> rfl
  refine ⟨_, hx, ofIds_finds fun id _ => ?_,
    fun _ => ofIds_clean (fun id hid => hp.stored_of_has hi hid) Index.nodup_ids⟩
  rw [hask, Index.has_iff]
  rfl

/-- The keys that have the pieces start with the stem, so all of them are candidates. -/
theorem substring_serves (hp : p.Valued n) {a : AttributeId} {ps : Pieces} {m : Option Nat}
    (hps : ps.IsNormal p.schema a)
    (hsure : ∀ x, Evaluator.ofFilter p (.substring a ps m) = .ok x → x.Sure p) :
    Serves p (.substring a ps m) (substring p a ps) := by
  refine ⟨_, rfl, ?_⟩
  unfold substring
  cases hi : p.userIndex? a with
  | some i =>
    have hwf := hp.sound.user a i hi
    have hindexed : p.hasUserIndex a = true := by rw [Partition.hasUserIndex, hi]; rfl
    have hstem : (i.firstTuples ps.fits).filter (fun t =>
        (ps.stem? p.schema a).all fun stem => t.1.startsWith stem) = i.firstTuples ps.fits := by
      refine List.filter_eq_self.2 fun t ht => ?_
      have hfind := (mem_firstTuples hwf).1 ht
      obtain ⟨v, _, hv⟩ := (hp.index_has hi).1
        ((Index.mem_keys hwf).1 (List.mem_of_find?_eq_some hfind))
      exact Pieces.startsWith_of_fits hps hv (List.find?_some hfind)
    dsimp only
    rw [hstem, hindexed]
    refine ⟨firstTuples_finds hwf fun id => Evaluator.accepts_of_eq ?_,
      fun _ => firstTuples_clean hwf fun k id => hp.stored_of_has hi⟩
    rw [Evaluator.evaluateId, show Evaluator.indexFor? p a true = some i from hi]
  | none =>
    have hindexed : p.hasUserIndex a = false := by rw [Partition.hasUserIndex, hi]; rfl
    rw [hindexed]
    refine ⟨scan_finds (hindexed ▸ hsure _ rfl) fun id _ => (beq_true _).symm, fun _ => scan_clean⟩

/-! ## Conditions together -/

theorem buildAll_eq_map (fs : List Filter) :
    buildAll p fs = fs.map fun f => (f, ofFilter p f) := by
  induction fs with
  | nil => rfl
  | cons f fs ih => rw [buildAll, ih, List.map_cons]

theorem sort_perm {f : Filter} {fs gs : List Filter}
    (hsort : fs.mergeSort (fun x y => x.estimate ≤ y.estimate) = f :: gs) : (f :: gs).Perm fs :=
  hsort ▸ fs.mergeSort_perm _

/-- The cursor of a conjunction: all entries, or the candidates of the condition with the least
estimate under the tests of the others. -/
theorem conjunction_eq_ok {fs : List Filter} (hc : conjunction p (buildAll p fs) = .ok c) :
    fs = [] ∧ c = all p ∨ ∃ g gs d xs,
      fs.mergeSort (fun x y => x.estimate ≤ y.estimate) = g :: gs ∧ ofFilter p g = .ok d ∧
      Evaluator.ofFilters p gs = .ok xs ∧ c = both d xs := by
  have hsorted : (fs.mergeSort fun x y => x.estimate ≤ y.estimate).map
      (fun f => (f, ofFilter p f)) =
        (buildAll p fs).mergeSort fun x y => x.1.estimate ≤ y.1.estimate := by
    rw [buildAll_eq_map]
    exact List.map_mergeSort fun _ _ _ _ => rfl
  unfold conjunction at hc
  rw [← hsorted] at hc
  cases hsort : fs.mergeSort fun x y => x.estimate ≤ y.estimate with
  | nil =>
    rw [hsort] at hc
    cases hc
    exact .inl ⟨(hsort ▸ fs.mergeSort_perm _).nil_eq.symm, rfl⟩
  | cons g gs =>
    rw [hsort] at hc
    obtain ⟨xs, hxs, hc⟩ := Except.bind_eq_ok.1 hc
    obtain ⟨d, hd, hc⟩ := Except.bind_eq_ok.1 hc
    cases hc
    rw [List.map_map, show Prod.fst ∘ (fun f => (f, ofFilter p f)) = id from rfl, List.map_id]
      at hxs
    exact .inr ⟨g, gs, d, xs, rfl, hd, hxs, rfl⟩

theorem disjunction_eq_ok {fs : List Filter} (hc : disjunction p (buildAll p fs) = .ok c) :
    fs = [] ∧ c = empty ∨ ∃ cs xs, fs.mapM (ofFilter p) = .ok cs ∧
      Evaluator.ofFilters p fs = .ok xs ∧ either cs xs = .ok c := by
  unfold disjunction at hc
  rw [buildAll_eq_map] at hc
  split at hc
  · rename_i hempty
    rw [List.isEmpty_iff, List.map_eq_nil_iff] at hempty
    cases hc
    exact .inl ⟨hempty, rfl⟩
  · obtain ⟨cs, hcs, hc⟩ := Except.bind_eq_ok.1 hc
    obtain ⟨xs, hxs, hc⟩ := Except.bind_eq_ok.1 hc
    rw [List.mapM_map] at hcs
    rw [List.map_map, show Prod.fst ∘ (fun f => (f, ofFilter p f)) = id from rfl, List.map_id]
      at hxs
    exact .inr ⟨cs, xs, hcs, hxs, hc⟩

/-- The cursor of a conjunction, whichever condition drives it. -/
theorem conjunction_serves {fs : List Filter} {m : Option Nat}
    (hserves : ∀ f ∈ fs, ∀ c, ofFilter p f = .ok c → Serves p f c)
    (hsure : ∀ f ∈ fs, ∀ x, Evaluator.ofFilter p f = .ok x → x.Sure p)
    (hc : conjunction p (buildAll p fs) = .ok c) : Serves p (.and fs m) c := by
  rcases conjunction_eq_ok hc with ⟨rfl, rfl⟩ | ⟨g, gs, d, xs, hsort, hd, hxs, rfl⟩
  · exact ⟨_, rfl, all_finds fun id => (Evaluator.accepts_and (List.forall_mem_nil _) id).2
      (List.forall_mem_nil _), fun _ => all_clean⟩
  · have hperm := sort_perm hsort
    have hmem : ∀ f ∈ g :: gs, f ∈ fs := fun f hf => hperm.mem_iff.1 hf
    have hg := hmem g (.head _)
    obtain ⟨x, hx, hfinds, hclean⟩ := hserves g hg d hd
    obtain ⟨ys, hys⟩ := Evaluator.exists_ofFilters.2 fun f hf => by
      rcases List.mem_cons.1 (hperm.mem_iff.2 hf) with rfl | hf
      · exact ⟨x, hx⟩
      · exact Evaluator.exists_ofFilters.1 ⟨xs, hxs⟩ f hf
    have hxsure : ∀ y ∈ xs, y.Sure p :=
      (Evaluator.forall_ofFilters hxs).2 fun f hf => hsure f (hmem f (.tail _ hf))
    have hysure : ∀ y ∈ ys, y.Sure p := (Evaluator.forall_ofFilters hys).2 hsure
    refine ⟨.and ys, by rw [Evaluator.ofFilter, hys]; rfl, both_finds hfinds hxsure fun id => ?_,
      fun hnone => both_clean (hclean fun b s m n h => hnone b s m n (.and hg h))⟩
    rw [Evaluator.accepts_and hysure]
    exact Evaluator.forall_ofFilters_perm hperm hx hxs hys

/-- The cursor of a disjunction. -/
theorem disjunction_serves {fs : List Filter} {m : Option Nat}
    (hserves : ∀ f ∈ fs, ∀ c, ofFilter p f = .ok c → Serves p f c)
    (hsure : ∀ f ∈ fs, ∀ x, Evaluator.ofFilter p f = .ok x → x.Sure p)
    (hc : disjunction p (buildAll p fs) = .ok c) : Serves p (.or fs m) c := by
  rcases disjunction_eq_ok hc with ⟨rfl, rfl⟩ | ⟨cs, xs, hcs, hxs, hc⟩
  · exact ⟨_, rfl, empty_finds fun id => Evaluator.accepts_of_eq rfl, fun _ => empty_clean⟩
  · have hfinds : List.Forall₂ (Finds p) cs xs := by
      refine Except.forall₂_of_mapM hcs (Evaluator.ofFilters_eq_mapM fs ▸ hxs) ?_
      intro f hf c x hc hx
      obtain ⟨x', hx', hfinds, _⟩ := hserves f hf c hc
      exact Except.ok.inj (hx'.symm.trans hx) ▸ hfinds
    have hxsure : ∀ x ∈ xs, x.Sure p := (Evaluator.forall_ofFilters hxs).2 hsure
    refine ⟨.or xs, by rw [Evaluator.ofFilter, hxs]; rfl,
      either_finds hc hfinds hxsure (Evaluator.accepts_or hxsure), fun hnone => ?_⟩
    refine either_clean hc hfinds fun d hd => ?_
    obtain ⟨f, hf, hd⟩ := (Except.mem_of_mapM_eq_ok hcs).1 hd
    obtain ⟨_, _, _, hclean⟩ := hserves f hf d hd
    exact hclean fun b s m n h => hnone b s m n (.or hf h)

/-! ## All filters -/

mutual

/-- **The cursor of a filter serves it.** -/
theorem ofFilter_serves (hp : p.Valued n) (ht : p.Arranged) : (f : Filter) → f.IsNormal p.schema →
    (∀ g : Filter, g.Part f → g.Answered p) → ∀ c, ofFilter p f = .ok c → Serves p f c
  | .scope b .base m _, _, _, c, hc => by
    cases hc
    exact ⟨_, rfl, ofBase_finds fun id => Evaluator.accepts_of_eq rfl, fun _ => ofBase_clean⟩
  | .scope b .oneLevel m k, _, _, c, hc => by
    rw [ofFilter] at hc
    · exact ⟨_, rfl, scope_finds hc, fun hnone => scope_clean ht (hnone b _ m k .self nofun) hc⟩
    · nofun
  | .scope b .subtree m k, _, _, c, hc => by
    rw [ofFilter] at hc
    · exact ⟨_, rfl, scope_finds hc, fun hnone => scope_clean ht (hnone b _ m k .self nofun) hc⟩
    · nofun
  | .presence a k, _, hanswered, c, hc => by
    rw [ofFilter] at hc
    split at hc
    · cases hc
      exact presence_serves hp ‹_›
    · exact scanFor_serves (fun x => Evaluator.sure_of_answered hp (hanswered _ .self)) hc
  | .comparison .atLeast a v k, _, hanswered, c, hc =>
    range_serves hp (fun x => Evaluator.sure_of_answered hp (hanswered _ .self)) hc
  | .comparison .atMost a v k, _, hanswered, c, hc =>
    range_serves hp (fun x => Evaluator.sure_of_answered hp (hanswered _ .self)) hc
  | .comparison .equality a v k, _, hanswered, c, hc => by
    rw [ofFilter] at hc
    split at hc
    · cases hc
      exact equal_serves hp (.inl rfl) ‹_›
    · exact scanFor_serves (fun x => Evaluator.sure_of_answered hp (hanswered _ .self)) hc
    all_goals nofun
  | .comparison .approximate a v k, _, hanswered, c, hc => by
    rw [ofFilter] at hc
    split at hc
    · cases hc
      exact equal_serves hp (.inr rfl) ‹_›
    · exact scanFor_serves (fun x => Evaluator.sure_of_answered hp (hanswered _ .self)) hc
    all_goals nofun
  | .substring a ps k, hnormal, hanswered, c, hc => by
    cases hc
    exact substring_serves hp (hnormal a ps k .self)
      fun x => Evaluator.sure_of_answered hp (hanswered _ .self)
  | .extensible a r v d k, _, hanswered, c, hc =>
    scanFor_serves (fun x => Evaluator.sure_of_answered hp (hanswered _ .self)) hc
  | .and fs k, hnormal, hanswered, c, hc =>
    conjunction_serves
      (buildAll_serves hp ht fs (fun f hf a ps m h => hnormal a ps m (.and hf h))
        fun f hf g h => hanswered g (.and hf h))
      (fun f hf x => Evaluator.sure_of_answered hp (hanswered f (.and hf .self))) hc
  | .or fs k, hnormal, hanswered, c, hc =>
    disjunction_serves
      (buildAll_serves hp ht fs (fun f hf a ps m h => hnormal a ps m (.or hf h))
        fun f hf g h => hanswered g (.or hf h))
      (fun f hf x => Evaluator.sure_of_answered hp (hanswered f (.or hf .self))) hc
  | .not f k, _, hanswered, c, hc => by
    obtain ⟨x, hx, hc⟩ := Except.bind_eq_ok.1 hc
    cases hc
    have hsure := Evaluator.sure_of_answered hp (hanswered f (.not .self)) hx
    refine ⟨.not x, by rw [Evaluator.ofFilter, hx]; rfl, scan_finds hsure fun id _ => ?_,
      fun _ => scan_clean⟩
    rw [Evaluator.accepts_not hsure, beq_false]

theorem buildAll_serves (hp : p.Valued n) (ht : p.Arranged) : (fs : List Filter) →
    (∀ f ∈ fs, f.IsNormal p.schema) → (∀ f ∈ fs, ∀ g : Filter, g.Part f → g.Answered p) →
      ∀ f ∈ fs, ∀ c, ofFilter p f = .ok c → Serves p f c
  | [], _, _ => List.forall_mem_nil _
  | f :: fs, hnormal, hanswered => List.forall_mem_cons.2
    ⟨ofFilter_serves hp ht f (hnormal f (.head _)) (hanswered f (.head _)),
      buildAll_serves hp ht fs (fun f hf => hnormal f (.tail _ hf))
        fun f hf => hanswered f (.tail _ hf)⟩

end

end SearchCursor

end Directory
