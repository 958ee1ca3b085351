import Mathlib.Data.List.Nodup
import Directory.Proofs.Partition.Tree
import Directory.Proofs.Search.Evaluator
import Directory.Proofs.Search.Stem
import Directory.Search.Build

/-!
# What search cursors yield

* `Evaluator.Sure`, `Evaluator.accepts`: an evaluator that always answers, and its answers.
* `Candidate.passes`, `Test.accept_eq`: the answers that let a candidate pass.
* `SearchCursor.yields`: the numbers of the candidates that pass, in order.
* `SearchCursor.Finds`: of the stored entries the cursor yields those that an evaluator accepts;
  `SearchCursor.Clean`: it yields stored entries only, and none twice.
* One lemma for each kind of cursor tells what it finds.
-/

namespace Directory

/-! ## Candidates that pass -/

namespace Evaluator

/-- The evaluator answers on every number. -/
def Sure (p : Partition) (x : Evaluator) : Prop := ∀ id, ∃ b, x.evaluateId p id = .ok b

/-- The answer on a number. -/
def accepts (p : Partition) (x : Evaluator) (id : EntryId) : Bool :=
  (x.evaluateId p id).toOption.getD false

theorem Sure.evaluateId_eq {p : Partition} {x : Evaluator} (h : x.Sure p) (id : EntryId) :
    x.evaluateId p id = .ok (x.accepts p id) := by
  obtain ⟨b, hb⟩ := h id
  rw [accepts, hb]
  rfl

theorem accepts_of_eq {p : Partition} {x : Evaluator} {id : EntryId} {b : Bool}
    (h : x.evaluateId p id = .ok b) : x.accepts p id = b := by
  rw [accepts, h]
  rfl

end Evaluator

/-- All tests of the candidate always answer. -/
def Candidate.Sure (p : Partition) (k : Candidate) : Prop := ∀ t ∈ k.2, t.evaluator.Sure p

/-- The test has the expected result on the number. -/
def Test.passes (p : Partition) (id : EntryId) (t : Test) : Bool :=
  t.evaluator.accepts p id == t.expected

/-- All tests of the candidate have the expected results. -/
def Candidate.passes (p : Partition) (k : Candidate) : Bool := k.2.all (Test.passes p k.1.id)

/-- The numbers of the candidates that pass. -/
def Candidate.yields (p : Partition) (ks : List Candidate) : List EntryId :=
  (ks.filter (Candidate.passes p)).map (·.1.id)

namespace Test

variable {p : Partition}

theorem passAll_eq {ts : List Test} (h : ∀ t ∈ ts, t.evaluator.Sure p) (el : Element SearchKey) :
    ∃ el' : Element SearchKey, el'.id = el.id ∧
      passAll p ts el = .ok (ts.all (Test.passes p el.id)) el' := by
  induction ts generalizing el with
  | nil => exact ⟨el, rfl, rfl⟩
  | cons t ts ih =>
    obtain ⟨el', hid, heval⟩ := Evaluator.evaluate_eq (p := p) t.evaluator el
    rw [(h t (.head _)).evaluateId_eq el.id] at heval
    have heval : t.evaluator.evaluate p el = .ok (t.evaluator.accepts p el.id) el' := heval
    rw [passAll, bind_of_ok heval, List.all_cons, Test.passes]
    cases t.evaluator.accepts p el.id == t.expected with
    | true =>
      obtain ⟨el'', hid', hrest⟩ := ih (fun t ht => h t (.tail _ ht)) el'
      rw [hid] at hrest
      exact ⟨el'', hid'.trans hid, hrest⟩
    | false => exact ⟨el', hid, rfl⟩

/-- A candidate whose tests always answer is kept if it passes. -/
theorem accept_eq {k : Candidate} (h : k.Sure p) : ∃ el : Element SearchKey, el.id = k.1.id ∧
    Test.accept p k = .ok (if k.passes p then some el else none) := by
  obtain ⟨el, hid, hpass⟩ := passAll_eq h k.1
  refine ⟨el, hid, ?_⟩
  rw [accept, hpass, ← Candidate.passes]
  cases k.passes p <;> rfl

end Test

/-! ## Candidates with fewer or more tests -/

namespace Candidate

variable {p : Partition} {ks : List Candidate} {id : EntryId}

theorem yields_bare (h : ∀ k ∈ ks, k.2 = []) : yields p ks = ks.map (·.1.id) := by
  rw [yields, List.filter_eq_self.2]
  intro k hk
  rw [passes, h k hk]
  rfl

theorem sure_bare (h : ∀ k ∈ ks, k.2 = []) : ∀ k ∈ ks, k.Sure p := by
  intro k hk t ht
  rw [h k hk] at ht
  cases ht

theorem yields_withTests (ts : List Test) : yields p (ks.map (·.withTests ts)) =
    (yields p ks).filter fun id => ts.all (Test.passes p id) := by
  rw [yields, yields, List.filter_map, List.filter_map, List.filter_filter, List.map_map]
  congr 1
  refine List.filter_congr fun k _ => ?_
  rw [Function.comp_apply, passes, withTests, List.all_append, Bool.and_comm]
  rfl

theorem sure_withTests {ts : List Test} (h : ∀ k ∈ ks, k.Sure p)
    (hts : ∀ t ∈ ts, t.evaluator.Sure p) : ∀ k ∈ ks.map (·.withTests ts), k.Sure p := by
  intro _ hk t ht
  obtain ⟨k, hk', rfl⟩ := List.mem_map.1 hk
  rcases List.mem_append.1 ht with ht | ht
  · exact h k hk' t ht
  · exact hts t ht

theorem yields_append (ks ls : List Candidate) :
    yields p (ks ++ ls) = yields p ks ++ yields p ls := by
  rw [yields, List.filter_append, List.map_append]
  rfl

end Candidate

/-! ## Cursors that find what an evaluator accepts -/

namespace SearchCursor

variable {p : Partition} {n : Nat} {c : SearchCursor} {x : Evaluator} {ks : List Candidate}
  {id : EntryId}

/-- The numbers of the candidates that pass, in order. -/
def yields (p : Partition) (c : SearchCursor) : List EntryId := Candidate.yields p c.candidates

/-- The cursor stands before its first candidate. All its tests answer, and of the stored entries it
yields those that the evaluator accepts. -/
structure Finds (p : Partition) (c : SearchCursor) (x : Evaluator) : Prop where
  fresh : c.cursor = .ofList c.candidates
  sure : ∀ k ∈ c.candidates, k.Sure p
  exact : ∀ id, p.Stored id → (id ∈ c.yields p ↔ x.accepts p id = true)

/-- The cursor yields stored entries only, and none twice. -/
structure Clean (p : Partition) (c : SearchCursor) : Prop where
  stored : ∀ id ∈ c.yields p, p.Stored id
  once : (c.yields p).Nodup

theorem finds_bare {s : Seeking} (hbare : ∀ k ∈ ks, k.2 = [])
    (h : ∀ id, p.Stored id → (id ∈ ks.map (·.1.id) ↔ x.accepts p id = true)) :
    (ofList s ks).Finds p x where
  fresh := rfl
  sure := Candidate.sure_bare hbare
  exact id hid := by
    rw [← h id hid, ← Candidate.yields_bare (p := p) hbare]
    rfl

theorem clean_bare {s : Seeking} (hbare : ∀ k ∈ ks, k.2 = [])
    (hstored : ∀ id ∈ ks.map (·.1.id), p.Stored id) (honce : (ks.map (·.1.id)).Nodup) :
    (ofList s ks).Clean p := by
  rw [← Candidate.yields_bare (p := p) hbare] at hstored honce
  exact ⟨hstored, honce⟩

theorem empty_finds (h : ∀ id, x.accepts p id = false) : empty.Finds p x :=
  finds_bare (List.forall_mem_nil _) fun id _ =>
    iff_of_false List.not_mem_nil (Bool.eq_false_iff.1 (h id))

theorem empty_clean : empty.Clean p :=
  clean_bare (List.forall_mem_nil _) (List.forall_mem_nil _) List.nodup_nil

/-! ## All entries -/

theorem map_all : (all p).candidates.map (·.1.id) = p.master.keys := by
  show (p.master.toList.map _).map _ = _
  rw [List.map_map]
  rfl

theorem bare_all : ∀ k ∈ (all p).candidates, k.2 = [] := by
  intro k hk
  obtain ⟨b, _, rfl⟩ := List.mem_map.1 hk
  rfl

theorem nodup_keys : p.master.keys.Nodup :=
  List.pairwise_map.2 (p.master.increasing.imp fun h => Sorted.ne_of_compare_lt h)

theorem all_finds (h : ∀ id, x.accepts p id = true) : (all p).Finds p x :=
  finds_bare bare_all fun id hid =>
    iff_of_true (map_all ▸ Partition.mem_keys.2 hid) (h id)

theorem all_clean : (all p).Clean p :=
  clean_bare bare_all (fun _ h => Partition.mem_keys.1 (map_all ▸ h)) (map_all ▸ nodup_keys)

/-! ## Leaves -/

theorem yields_scan (y : Evaluator) (expected : Bool) : (scan p y expected).yields p =
    p.master.keys.filter fun id => y.accepts p id == expected := by
  show Candidate.yields p ((all p).candidates.map (·.withTests [⟨y, expected⟩])) = _
  rw [Candidate.yields_withTests, Candidate.yields_bare bare_all, map_all]
  refine List.filter_congr fun id _ => ?_
  rw [List.all_cons, List.all_nil, Bool.and_true, Test.passes]

theorem scan_finds {y : Evaluator} {expected : Bool} (hy : y.Sure p)
    (h : ∀ id, p.Stored id → x.accepts p id = (y.accepts p id == expected)) :
    (scan p y expected).Finds p x where
  fresh := rfl
  sure := Candidate.sure_withTests (Candidate.sure_bare bare_all) fun t ht => by
    obtain rfl := List.mem_singleton.1 ht
    exact hy
  exact id hid := by
    rw [yields_scan, List.mem_filter, h id hid]
    exact and_iff_right (Partition.mem_keys.2 hid)

theorem scan_clean {y : Evaluator} {expected : Bool} : (scan p y expected).Clean p := by
  constructor
  · rw [yields_scan]
    exact fun id hid => Partition.mem_keys.1 (List.mem_filter.1 hid).1
  · rw [yields_scan]
    exact nodup_keys.filter _

theorem ofIds_finds {s : Seeking} {label : SearchKey} {ids : List EntryId}
    (h : ∀ id, p.Stored id → (id ∈ ids ↔ x.accepts p id = true)) :
    (ofList s (ids.map (Candidate.ofId label))).Finds p x := by
  refine finds_bare (fun k hk => ?_) fun id hid => ?_
  · obtain ⟨id, _, rfl⟩ := List.mem_map.1 hk
    rfl
  · rw [List.map_map, ← h id hid]
    exact iff_of_eq (congrArg (id ∈ ·) (List.map_id ids))

theorem ofIds_clean {s : Seeking} {label : SearchKey} {ids : List EntryId}
    (hstored : ∀ id ∈ ids, p.Stored id) (honce : ids.Nodup) :
    (ofList s (ids.map (Candidate.ofId label))).Clean p := by
  have hmap : (ids.map (Candidate.ofId label)).map (·.1.id) = ids := by
    rw [List.map_map]
    exact List.map_id ids
  refine clean_bare (fun k hk => ?_) (hmap.symm ▸ hstored) (hmap.symm ▸ honce)
  obtain ⟨id, _, rfl⟩ := List.mem_map.1 hk
  rfl

theorem ofBase_finds {base : EntryId} (h : ∀ id, x.accepts p id = (id == base)) :
    (ofBase p base).Finds p x := by
  unfold ofBase
  split
  · refine finds_bare (fun k hk => by rw [List.mem_singleton.1 hk]) fun id _ => ?_
    rw [h id, beq_iff_eq]
    exact List.mem_singleton
  · rename_i hnone
    refine finds_bare (List.forall_mem_nil _) fun id ⟨e, he⟩ => ?_
    rw [h id, beq_iff_eq]
    refine iff_of_false List.not_mem_nil fun heq => ?_
    rw [heq, hnone] at he
    cases he

theorem ofBase_clean {base : EntryId} : (ofBase p base).Clean p := by
  unfold ofBase
  split
  · rename_i e he
    refine clean_bare (fun k hk => by rw [List.mem_singleton.1 hk]) (fun id hid => ?_)
      (List.nodup_singleton _)
    obtain rfl := List.mem_singleton.1 hid
    exact ⟨e, he⟩
  · exact empty_clean

theorem scope_finds {base : EntryId} {s : SearchScope} {follow : Bool}
    (hc : scope p base s follow = .ok c) : c.Finds p (.scope base s follow) := by
  have hbelow : ∀ structural aliased : Index EntryId, ∀ id,
      (id ∈ (if follow then structural.ids base ++ aliased.ids base else structural.ids base).filter
          fun id => !(follow && (p.system.aliasTarget.key? id).isSome)) ↔
        (!(follow && (p.system.aliasTarget.key? id).isSome) &&
          (structural.has base id || (follow && aliased.has base id))) = true := by
    intro structural aliased id
    rw [List.mem_filter, Bool.and_eq_true, Bool.or_eq_true, Bool.and_eq_true, Index.has_iff,
      Index.has_iff, and_comm]
    refine and_congr_right fun _ => ?_
    cases follow with
    | true =>
      rw [if_pos rfl, List.mem_append, Index.mem_ids, Index.mem_ids]
      simp
    | false =>
      rw [if_neg Bool.false_ne_true, Index.mem_ids]
      simp
  cases s with
  | base => cases hc
  | oneLevel =>
    cases hc
    exact ofIds_finds fun id _ => hbelow p.system.oneLevel p.system.oneAlias id
  | subtree =>
    cases hc
    exact ofIds_finds fun id _ => hbelow p.system.subLevel p.system.subAlias id

/-- Below a base there are stored entries, unless aliases are followed. -/
theorem scope_clean (hp : p.Arranged) {base : EntryId} {s : SearchScope} {follow : Bool}
    (hfollow : follow = false) (hc : scope p base s follow = .ok c) : c.Clean p := by
  subst hfollow
  cases s with
  | base => cases hc
  | oneLevel =>
    cases hc
    refine ofIds_clean (fun id hid => ?_) (Index.nodup_ids.filter _)
    obtain ⟨e, he, _⟩ := (hp.oneLevel base id).1 (List.mem_filter.1 hid).1
    exact ⟨e, he⟩
  | subtree =>
    cases hc
    refine ofIds_clean (fun id hid => ?_) (Index.nodup_ids.filter _)
    exact ((hp.subLevel base id).1 (List.mem_filter.1 hid).1).1

/-! ## Keys of an index -/

theorem mem_firstTuples {i : Index Value} (hi : i.WellFormed) {q : Value → Bool}
    {t : Value × EntryId} :
    t ∈ i.firstTuples q ↔ (i.keys t.2).find? q = some t.1 := by
  rw [Index.firstTuples, List.mem_filter, beq_iff_eq]
  refine and_iff_right_of_imp fun h => ?_
  exact Tables.mem_byKey.2 ((Index.mem_keys hi).1 (List.mem_of_find?_eq_some h))

theorem firstTuples_finds {i : Index Value} (hi : i.WellFormed) {q : Value → Bool} {s : Seeking}
    (h : ∀ id, x.accepts p id = (i.keys id).any q) :
    (ofList s ((i.firstTuples q).map Candidate.ofTuple)).Finds p x := by
  refine finds_bare (fun k hk => ?_) fun id _ => ?_
  · obtain ⟨t, _, rfl⟩ := List.mem_map.1 hk
    rfl
  · rw [List.map_map, List.mem_map, h, List.any_eq_true]
    constructor
    · rintro ⟨t, ht, rfl⟩
      have ht := (mem_firstTuples hi).1 ht
      exact ⟨t.1, List.mem_of_find?_eq_some ht, List.find?_some ht⟩
    · intro h
      obtain ⟨k, hk⟩ := Option.isSome_iff_exists.1 (List.find?_isSome.2 h)
      exact ⟨(k, id), (mem_firstTuples hi).2 hk, rfl⟩

theorem firstTuples_clean {i : Index Value} (hi : i.WellFormed) {q : Value → Bool} {s : Seeking}
    (h : ∀ k id, i.Has k id → p.Stored id) :
    (ofList s ((i.firstTuples q).map Candidate.ofTuple)).Clean p := by
  have hmap : ((i.firstTuples q).map Candidate.ofTuple).map (·.1.id) =
      (i.firstTuples q).map Prod.snd := by
    rw [List.map_map]
    rfl
  refine clean_bare (fun k hk => ?_) (fun id hid => ?_) ?_
  · obtain ⟨t, _, rfl⟩ := List.mem_map.1 hk
    rfl
  · rw [hmap, List.mem_map] at hid
    obtain ⟨t, ht, rfl⟩ := hid
    exact h t.1 t.2 ((Index.mem_keys hi).1 (List.mem_of_find?_eq_some ((mem_firstTuples hi).1 ht)))
  · rw [hmap]
    refine List.Nodup.map_on (fun t ht u hu hid => ?_) ((Tables.nodup_byKey _).filter _)
    have ht := (mem_firstTuples hi).1 ht
    rw [hid, (mem_firstTuples hi).1 hu] at ht
    exact Prod.ext (Option.some.inj ht).symm hid

/-! ## Combinations -/

theorem yields_both (c : SearchCursor) (xs : List Evaluator) : (both c xs).yields p =
    (c.yields p).filter fun id => xs.all (·.accepts p id) := by
  show Candidate.yields p (c.candidates.map (·.withTests (xs.map fun x => ⟨x, true⟩))) = _
  rw [Candidate.yields_withTests]
  refine List.filter_congr fun id _ => ?_
  rw [List.all_map]
  congr 1
  funext x
  exact beq_true _

theorem both_finds {xs : List Evaluator} {y : Evaluator} (hc : c.Finds p x)
    (hxs : ∀ y ∈ xs, y.Sure p) (hy : ∀ id, y.accepts p id = true ↔
      x.accepts p id = true ∧ ∀ z ∈ xs, z.accepts p id = true) : (both c xs).Finds p y where
  fresh := rfl
  sure := Candidate.sure_withTests hc.sure fun t ht => by
    obtain ⟨z, hz, rfl⟩ := List.mem_map.1 ht
    exact hxs z hz
  exact id hid := by rw [yields_both, List.mem_filter, hc.exact id hid, List.all_eq_true, hy]

theorem both_clean {xs : List Evaluator} (hc : c.Clean p) : (both c xs).Clean p := by
  constructor
  · rw [yields_both]
    exact fun id hid => hc.stored id (List.mem_filter.1 hid).1
  · rw [yields_both]
    exact hc.once.filter _

section InTurn

variable {cs : List SearchCursor} {xs : List Evaluator}

theorem sure_inTurn (hcs : ∀ c ∈ cs, ∀ k ∈ c.candidates, k.Sure p) (hxs : ∀ y ∈ xs, y.Sure p)
    {earlier : List Test} (he : ∀ t ∈ earlier, t.evaluator.Sure p) :
    ∀ k ∈ inTurn earlier cs xs, k.Sure p := by
  induction cs generalizing xs earlier with
  | nil => exact List.forall_mem_nil _
  | cons c cs ih =>
    cases xs with
    | nil => exact List.forall_mem_nil _
    | cons x xs =>
      intro k hk
      rcases List.mem_append.1 hk with hk | hk
      · exact Candidate.sure_withTests (hcs c (.head _)) he k hk
      · refine ih (fun c hc => hcs c (.tail _ hc)) (fun y hy => hxs y (.tail _ hy))
          (fun t ht => ?_) k hk
        rcases List.mem_append.1 ht with ht | ht
        · exact he t ht
        · obtain rfl := List.mem_singleton.1 ht
          exact hxs x (.head _)

/-- What cursors yield in turn: the entries that pass the tests of the cursors before them all. -/
theorem mem_inTurn (h : List.Forall₂ (Finds p) cs xs) {earlier : List Test} (hid : p.Stored id) :
    id ∈ Candidate.yields p (inTurn earlier cs xs) ↔
      earlier.all (Test.passes p id) = true ∧ ∃ x ∈ xs, x.accepts p id = true := by
  induction h generalizing earlier with
  | nil => exact ⟨fun h => (nomatch h), fun ⟨_, _, h, _⟩ => nomatch h⟩
  | @cons c x cs xs hc _ ih =>
    have hlast : Test.passes p id ⟨x, false⟩ = !x.accepts p id := beq_false _
    rw [inTurn, Candidate.yields_append, List.mem_append, Candidate.yields_withTests,
      List.mem_filter, ih, show id ∈ Candidate.yields p c.candidates ↔ _ from hc.exact id hid,
      List.all_append, List.all_cons, List.all_nil, Bool.and_true, hlast]
    cases hx : x.accepts p id <;> simp [hx]

/-- Cursors in turn yield no entry twice, since the later ones pass over what the earlier have. -/
theorem clean_inTurn (h : List.Forall₂ (Finds p) cs xs) (hcs : ∀ c ∈ cs, c.Clean p)
    {earlier : List Test} : (∀ id ∈ Candidate.yields p (inTurn earlier cs xs), p.Stored id) ∧
      (Candidate.yields p (inTurn earlier cs xs)).Nodup := by
  induction h generalizing earlier with
  | nil => exact ⟨List.forall_mem_nil _, List.nodup_nil⟩
  | @cons c x cs xs hc hrest ih =>
    obtain ⟨hstored, honce⟩ := @ih (fun c hc => hcs c (.tail _ hc)) (earlier ++ [⟨x, false⟩])
    have hclean := hcs c (.head _)
    rw [inTurn, Candidate.yields_append, Candidate.yields_withTests]
    refine ⟨fun id hid => ?_, List.nodup_append.2 ⟨hclean.once.filter _, honce, ?_⟩⟩
    · rcases List.mem_append.1 hid with hid | hid
      · exact hclean.stored id (List.mem_filter.1 hid).1
      · exact hstored id hid
    · rintro id hid _ hid' rfl
      have hid := (List.mem_filter.1 hid).1
      have haccepts := (hc.exact id (hclean.stored id hid)).1 hid
      have hpass := ((mem_inTurn hrest (hstored id hid')).1 hid').1
      rw [List.all_append, List.all_cons, Test.passes, haccepts] at hpass
      simp at hpass

end InTurn

theorem either_finds {cs : List SearchCursor} {xs : List Evaluator} {y : Evaluator}
    (hc : either cs xs = .ok c) (hcs : List.Forall₂ (Finds p) cs xs) (hxs : ∀ y ∈ xs, y.Sure p)
    (hy : ∀ id, y.accepts p id = true ↔ ∃ x ∈ xs, x.accepts p id = true) : c.Finds p y := by
  rw [either, if_pos hcs.length_eq] at hc
  cases hc
  exact {
    fresh := rfl
    sure := sure_inTurn ((List.forall₂_and_left _ _).1 (hcs.imp fun c x h => ⟨h.sure, h⟩)).1 hxs
      (List.forall_mem_nil _)
    exact id hid := by
      rw [hy]
      exact (mem_inTurn hcs hid).trans (and_iff_right rfl) }

theorem either_clean {cs : List SearchCursor} {xs : List Evaluator} (hc : either cs xs = .ok c)
    (hcs : List.Forall₂ (Finds p) cs xs) (hclean : ∀ c ∈ cs, c.Clean p) : c.Clean p := by
  rw [either, if_pos hcs.length_eq] at hc
  cases hc
  obtain ⟨hstored, honce⟩ := clean_inTurn hcs hclean
  exact ⟨hstored, honce⟩

end SearchCursor

end Directory
