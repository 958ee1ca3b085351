import Directory.Proofs.Index.WellFormed
import Directory.Proofs.Search.Build
import Directory.Proofs.Search.Walker

/-!
# Walkers and search cursors of filters

* `Alike`: both can be built, and the walker stands in front of the candidates of the cursor; or
  both fail with the same error.
* `Walker.build_alike`: **the walker and the search cursor of a filter are alike**.
-/

namespace Directory

variable {p : Partition} {σ : Type} {S : Standing σ SearchKey (List Test)}

/-- What is built stands in front of the candidates of the cursor, or the errors are the same. -/
inductive Alike (S : Standing σ SearchKey (List Test)) :
    Except Error SearchCursor → Except Error σ → Prop
  | built {c : SearchCursor} {w : σ} (hfresh : c.cursor = .ofList c.candidates)
      (h : S w (.start c.candidates) none) : Alike S (.ok c) (.ok w)
  | failed (e : Error) : Alike S (.error e) (.error e)

/-! ## Leaves -/

theorem MasterWalker.fresh (p : Partition) :
    Stands ⟨p.master, .beforeFirst, none, false⟩ (.start (SearchCursor.all p).candidates) none :=
  .intro (t := .start p.master.toList) (Track.toList_start _) .beforeFirst

theorem KeyWalker.fresh {κ : Type} [Ord κ] (t : Tables κ) (key : κ) (label : SearchKey) :
    (ofTables t key label).Stands (.start ((t.idsOf key).toList.map (Candidate.ofId label))) none :=
  ⟨.start (t.idsOf key).toList, ⟨rfl, Track.toList_start _, .beforeFirst⟩, rfl, rfl⟩

theorem TestedWalker.fresh {ks : List Candidate} {s : σ} (h : S s (.start ks) none)
    (ts : List Test) : Stands S (of s ts) (.start (ks.map (Candidate.withTests · ts))) none :=
  ⟨rfl, rfl, _, _, h, rfl⟩

theorem ScanWalker.fresh (x : Evaluator) (expected : Bool) :
    TestedWalker.Stands MasterWalker.Stands (Layer.testAll p x expected)
      (.start (SearchCursor.scan p x expected).candidates) none :=
  TestedWalker.fresh (MasterWalker.fresh p) _

theorem Index.isSome_key? {κ : Type} [Ord κ] [Std.TransOrd κ] [Std.LawfulEqOrd κ] {x : Index κ}
    (hx : x.WellFormed) (id : EntryId) :
    (x.key? id).isSome = x.tables.reverse.contains id := by
  rw [key?, SortedSet.min?, Tables.keysOf, SortedMap.getD, SortedMap.contains]
  cases hid : x.tables.reverse.get? id with
  | none => rfl
  | some s =>
    obtain ⟨k, hk⟩ := hx.reverse_noEmpty id s hid
    obtain ⟨l, hl⟩ := List.exists_mem_of_ne_nil s.toList (List.ne_nil_of_mem hk)
    show s.toList.head?.isSome = true
    rw [List.isSome_head?]
    simpa using List.ne_nil_of_mem hk

theorem ScopeWalker.fresh (t : Tables EntryId) (base : EntryId) {aliased : Option KeyWalker}
    (hplain : ∀ k ∈ aliased, k.Plain) (hidden : Option (Tables String)) :
    Stands ⟨.ofTables t base none, aliased, hidden, .structural, false⟩
      (.start ((((t.idsOf base).toList ++ aliased.elim [] (·.ids.toList)).filter
        fun id => !hidden.any (·.reverse.contains id)).map (Candidate.ofId none))) none := by
  refine ⟨.start ((t.idsOf base).toList ++ aliased.elim [] (·.ids.toList)),
    ⟨rfl, ⟨⟨rfl, rfl⟩, hplain⟩, _, .start (t.idsOf base).toList, rfl,
      ⟨rfl, Track.toList_start _, .beforeFirst⟩, rfl⟩, nofun, rfl, rfl⟩

theorem ofScope_alike (halias : p.system.aliasTarget.WellFormed) (base : EntryId) (s : SearchScope)
    (follow : Bool) : Alike (Layer.Stands S) (SearchCursor.scope p base s follow)
      (Layer.ofScope p base s follow) := by
  have hbelow (structural aliased : Index EntryId) : ScopeWalker.Stands
      ⟨.ofTables structural.tables base none,
        if follow then some (.ofTables aliased.tables base none) else none,
        if follow then some p.system.aliasTarget.tables else none, .structural, false⟩
      (.start (((if follow then structural.ids base ++ aliased.ids base
        else structural.ids base).filter fun id =>
          !(follow && (p.system.aliasTarget.key? id).isSome)).map (Candidate.ofId none))) none := by
    simp only [Index.isSome_key? halias]
    cases follow with
    | true =>
      exact ScopeWalker.fresh structural.tables base (fun _ hk => by cases hk; exact ⟨rfl, rfl⟩)
        (some p.system.aliasTarget.tables)
    | false =>
      have hfresh := @ScopeWalker.fresh structural.tables base none nofun none
      rw [Option.elim_none, List.append_nil] at hfresh
      exact hfresh
  cases s with
  | base => exact .failed _
  | oneLevel => exact .built rfl (hbelow ..)
  | subtree => exact .built rfl (hbelow ..)

theorem SpanWalker.fresh (t : Tables Value) (s : Span) : Stands (ofTables t s)
    (.start ((t.byKey.filter (shows s t)).map Candidate.ofTuple)) none :=
  (among_fresh t s).stands

namespace SpanWalker

/-- The first element of an ordered list that satisfies a test which holds of all smaller ones. -/
theorem find?_eq_head? {ks : List Value} {q : Value → Bool} {k : Value}
    (hsorted : ks.Pairwise fun k l => compare k l = .lt)
    (hq : ∀ {k l}, compare k l = .lt → q l = true → q k = true) :
    ks.find? q = some k ↔ q k = true ∧ ks.head? = some k := by
  cases ks with
  | nil => simp
  | cons l ks =>
    rw [List.find?_cons, List.head?_cons]
    cases hl : q l with
    | true =>
      constructor
      · rintro ⟨⟩
        exact ⟨hl, rfl⟩
      · exact And.right
    | false =>
      refine iff_of_false (fun hk => ?_) ?_
      · have hlk := (List.pairwise_cons.1 hsorted).1 k (List.mem_of_find?_eq_some hk)
        rw [hq hlk (List.find?_some (p := q) hk)] at hl
        cases hl
      · rintro ⟨hk, ⟨⟩⟩
        rw [hk] at hl
        cases hl

variable (x : Index Value)

theorem shows_atLeast (v : Value) : x.tables.byKey.filter (shows (.atLeast v) x.tables) =
    x.firstTuples (Comparison.atLeast.holds v) := by
  refine List.filter_congr fun t _ => ?_
  rw [Bool.eq_iff_iff, shows, Bool.and_eq_true, beq_iff_eq, beq_iff_eq]
  exact and_iff_right_of_imp fun h => List.find?_some (p := Comparison.atLeast.holds v) h

theorem shows_atMost (v : Value) : x.tables.byKey.filter (shows (.atMost v) x.tables) =
    x.firstTuples (Comparison.atMost.holds v) := by
  refine List.filter_congr fun t _ => ?_
  rw [Bool.eq_iff_iff, shows, Bool.and_eq_true, beq_iff_eq, beq_iff_eq]
  exact (find?_eq_head? (x.tables.keysOf t.2).increasing fun hkl hl =>
    Std.TransCmp.isLE_trans (Ordering.isLE_of_eq_lt hkl) hl).symm

theorem shows_pieces (pieces : Pieces) (stem : Option String) :
    x.tables.byKey.filter (shows (.pieces pieces stem) x.tables) =
      (x.firstTuples pieces.fits).filter fun t => stem.all (t.1.startsWith ·) := by
  rw [Index.firstTuples, List.filter_filter]
  rfl

end SpanWalker

theorem scanFor_alike (f : Filter) :
    Alike (Layer.Stands S) (SearchCursor.scanFor p f) (Layer.scanFor p f) := by
  unfold SearchCursor.scanFor Layer.scanFor
  cases Evaluator.ofFilter p f with
  | error e => exact .failed e
  | ok x => exact .built rfl (ScanWalker.fresh x true)

theorem ofBase_alike (base : EntryId) :
    Alike (Layer.Stands S) (.ok (SearchCursor.ofBase p base)) (.ok (Layer.ofBase p base)) := by
  unfold SearchCursor.ofBase Layer.ofBase
  cases p.get? base with
  | none => exact .built rfl ⟨rfl, rfl, rfl⟩
  | some e => exact .built rfl .front

theorem ofRange_alike {op : Comparison} {s : Span} {v : Value} (a : AttributeId) (n : Option Nat)
    (hop : p.indexesComparison op a = if p.schema.isOrdered a then
      .ok ((p.userIndex? a).any Index.ordered) else .error (.noRangeOrdering a))
    (hshows : ∀ x : Index Value, x.tables.byKey.filter (SpanWalker.shows s x.tables) =
      x.firstTuples (op.holds v)) :
    Alike (Layer.Stands S) (SearchCursor.range p op a v)
      (Layer.ofRange p (.comparison op a v n) s a) := by
  unfold SearchCursor.range Layer.ofRange
  rw [Evaluator.ofFilter, hop]
  cases p.schema.isOrdered a with
  | false => exact .failed _
  | true =>
    rw [if_pos rfl, Except.ok_bind, Evaluator.indexFor?]
    cases p.userIndex? a with
    | none => exact .built rfl (.fullScan (ScanWalker.fresh _ true))
    | some x =>
      cases hx : x.ordered with
      | false =>
        rw [Option.any_some, Option.filter_some, hx]
        exact .built rfl (.fullScan (ScanWalker.fresh _ true))
      | true =>
        have hfresh := SpanWalker.fresh x.tables s
        rw [hshows] at hfresh
        rw [Option.any_some, Option.filter_some, hx]
        exact .built rfl hfresh

theorem ofEqual_alike {op : Comparison} (hop : op = .equality ∨ op = .approximate)
    (a : AttributeId) (v : Value) (n : Option Nat) :
    Alike (Layer.Stands S) (SearchCursor.ofFilter p (.comparison op a v n))
      (Layer.ofComparison p (.comparison op a v n) op a v) := by
  rcases hop with rfl | rfl
  all_goals
    rw [SearchCursor.ofFilter, Layer.ofComparison]
    · cases p.userIndex? a with
      | some x => exact .built rfl (KeyWalker.fresh ..)
      | none => exact scanFor_alike _
    all_goals
      intro h
      cases h

theorem ofPieces_alike (a : AttributeId) (pieces : Pieces) (n : Option Nat) :
    Alike (Layer.Stands S) (.ok (SearchCursor.substring p a pieces))
      (Layer.ofPieces p (.substring a pieces n) a pieces) := by
  unfold SearchCursor.substring Layer.ofPieces
  rw [Evaluator.ofFilter, Partition.hasUserIndex]
  cases p.userIndex? a with
  | none => exact .built rfl (.fullScan (ScanWalker.fresh _ true))
  | some x =>
    have hfresh := SpanWalker.fresh x.tables (.pieces pieces (pieces.stem? p.schema a))
    rw [SpanWalker.shows_pieces] at hfresh
    exact .built rfl hfresh

/-! ## Combinations -/

section Lists

variable {α β : Type} {R : α → β → Prop} {xs : List α} {ys : List β}

theorem forall₂_mergeSort {le : α → α → Bool} {le' : β → β → Bool} (h : List.Forall₂ R xs ys)
    (hle : ∀ {a a' b b'}, R a b → R a' b' → le a a' = le' b b') :
    List.Forall₂ R (xs.mergeSort le) (ys.mergeSort le') := by
  obtain ⟨zs, rfl, rfl⟩ : ∃ zs : List { z : α × β // R z.1 z.2 },
      zs.map (·.1.1) = xs ∧ zs.map (·.1.2) = ys := by
    induction h with
    | nil => exact ⟨[], rfl, rfl⟩
    | @cons x y _ _ hxy _ ih =>
      obtain ⟨zs, hxs, hys⟩ := ih
      exact ⟨⟨(x, y), hxy⟩ :: zs, congrArg _ hxs, congrArg _ hys⟩
  let lez (y z : { z : α × β // R z.1 z.2 }) : Bool := le y.1.1 z.1.1
  have hxs : (zs.map (·.1.1)).mergeSort le = (zs.mergeSort lez).map (·.1.1) :=
    (List.map_mergeSort (f := fun z : { z : α × β // R z.1 z.2 } => z.1.1) fun _ _ _ _ => rfl).symm
  have hys : (zs.map (·.1.2)).mergeSort le' = (zs.mergeSort lez).map (·.1.2) :=
    (List.map_mergeSort (f := fun z : { z : α × β // R z.1 z.2 } => z.1.2)
      fun y _ z _ => hle y.2 z.2).symm
  rw [hxs, hys, List.forall₂_map_left_iff, List.forall₂_map_right_iff]
  exact List.forall₂_same.2 fun z _ => z.2

end Lists

/-- A filter with its cursor and the same filter with its walker, which are alike. -/
def BuiltAlike (S : Standing σ SearchKey (List Test)) (x : SearchCursor.Built)
    (y : Filter × Except Error σ) : Prop :=
  x.1 = y.1 ∧ Alike S x.2 y.2

theorem map_fst_eq {xs : List SearchCursor.Built} {ys : List (Filter × Except Error σ)}
    (h : List.Forall₂ (BuiltAlike S) xs ys) : xs.map Prod.fst = ys.map Prod.fst := by
  induction h with
  | nil => rfl
  | cons hxy _ ih => rw [List.map_cons, List.map_cons, hxy.1, ih]

theorem conjunction_alike {xs : List SearchCursor.Built} {ys : List (Filter × Except Error σ)}
    (h : List.Forall₂ (BuiltAlike S) xs ys) :
    Alike (Layer.Stands S) (SearchCursor.conjunction p xs) (Layer.conjunction p ys) := by
  have hsorted : List.Forall₂ (BuiltAlike S)
      (xs.mergeSort fun x y => x.1.estimate ≤ y.1.estimate)
      (ys.mergeSort fun x y => x.1.estimate ≤ y.1.estimate) :=
    forall₂_mergeSort h fun h h' => by rw [h.1, h'.1]
  unfold SearchCursor.conjunction Layer.conjunction
  generalize xs.mergeSort (fun x y => x.1.estimate ≤ y.1.estimate) = xs at hsorted
  generalize ys.mergeSort (fun x y => x.1.estimate ≤ y.1.estimate) = ys at hsorted
  cases hsorted with
  | nil => exact .built rfl (MasterWalker.fresh p)
  | @cons x y xs ys hxy hrest =>
    obtain ⟨f, c⟩ := x
    obtain ⟨_, w⟩ := y
    obtain ⟨rfl, hcw⟩ := hxy
    dsimp only at hcw ⊢
    rw [map_fst_eq hrest]
    cases Evaluator.ofFilters p (ys.map Prod.fst) with
    | error e => exact .failed e
    | ok zs =>
      cases hcw with
      | failed e => exact .failed e
      | built _ hstands => exact .built rfl (TestedWalker.fresh hstands _)

/-- Cursors and walkers that are alike can all be built, or fail with the same error. -/
theorem mapM_alike {xs : List SearchCursor.Built} {ys : List (Filter × Except Error σ)}
    (h : List.Forall₂ (BuiltAlike S) xs ys) :
    (∃ e, xs.mapM Prod.snd = .error e ∧ ys.mapM Prod.snd = .error e) ∨
      ∃ cs ws, xs.mapM Prod.snd = .ok cs ∧ ys.mapM Prod.snd = .ok ws ∧
        List.Forall₂ (fun w ks => S w (.start ks) none) ws (cs.map SearchCursor.candidates) := by
  induction h with
  | nil => exact .inr ⟨[], [], rfl, rfl, .nil⟩
  | @cons x y xs ys hxy _ ih =>
    obtain ⟨f, c⟩ := x
    obtain ⟨_, w⟩ := y
    obtain ⟨rfl, hcw⟩ := hxy
    rw [List.mapM_cons, List.mapM_cons]
    cases hcw with
    | failed e => exact .inl ⟨e, rfl, rfl⟩
    | @built c w _ hstands =>
      rcases ih with ⟨e, hxs, hys⟩ | ⟨cs, ws, hxs, hys, hrest⟩
      · refine .inl ⟨e, ?_, ?_⟩
        · rw [hxs]
          rfl
        · rw [hys]
          rfl
      · refine .inr ⟨c :: cs, w :: ws, ?_, ?_, .cons hstands hrest⟩
        · rw [hxs]
          rfl
        · rw [hys]
          rfl

theorem inTurn_eq {cs : List SearchCursor} {xs : List Evaluator} (h : cs.length = xs.length)
    (earlier : List Test) : SearchCursor.inTurn earlier cs xs =
      ((cs.map SearchCursor.candidates).mapIdx fun i ks =>
        ks.map (Candidate.withTests · (earlier ++ EitherWalker.testsAt xs i))).flatten := by
  induction cs generalizing earlier xs with
  | nil => rfl
  | cons c cs ih =>
    cases xs with
    | nil => cases h
    | cons x xs =>
      rw [SearchCursor.inTurn, ih (Nat.succ.inj h), List.map_cons, List.mapIdx_cons,
        List.flatten_cons]
      simp [EitherWalker.testsAt]

theorem EitherWalker.fresh {ws : List σ} {xs : List Evaluator} {ls : List (List Candidate)}
    (h : List.Forall₂ (fun w ks => S w (.start ks) none) ws ls) (hws : ws ≠ []) :
    Stands S (of ws xs) (.start (parts xs ls).flatten) none := by
  refine ⟨⟨xs, ls, rfl, rfl, h.imp fun w ks hw => ⟨_, _, hw, Track.toList_start ks⟩, ?_⟩, rfl⟩
  cases h with
  | nil => exact absurd rfl hws
  | @cons w ks ws ls hw h =>
    refine ⟨w, .start ks, none, rfl, hw, by rw [Track.toList_start]; rfl, ?_⟩
    rw [partOf, Track.start_map]
    exact (Track.inPart_first (w := .forward) (getElem?_parts (i := 0) rfl)).symm

theorem disjunction_alike {xs : List SearchCursor.Built} {ys : List (Filter × Except Error σ)}
    (h : List.Forall₂ (BuiltAlike S) xs ys) :
    Alike (Layer.Stands S) (SearchCursor.disjunction p xs) (Layer.disjunction p ys) := by
  unfold SearchCursor.disjunction Layer.disjunction
  cases h with
  | nil => exact .built rfl ⟨rfl, rfl, rfl⟩
  | @cons x y xs ys hxy hrest =>
    have h := List.Forall₂.cons hxy hrest
    rw [List.isEmpty_cons, List.isEmpty_cons, map_fst_eq h]
    rcases mapM_alike h with ⟨e, hcs, hws⟩ | ⟨cs, ws, hcs, hws, hstands⟩
    · rw [hcs, hws]
      exact .failed e
    · rw [hcs, hws]
      cases Evaluator.ofFilters p ((y :: ys).map Prod.fst) with
      | error e => exact .failed e
      | ok zs =>
        have hlength : ws.length = cs.length := hstands.length_eq.trans (List.length_map ..)
        show Alike _ (SearchCursor.either cs zs) (if ws.length = zs.length then _ else _)
        rw [SearchCursor.either, hlength]
        by_cases hzs : cs.length = zs.length
        · rw [if_pos hzs, if_pos hzs]
          obtain ⟨w, _, htail⟩ := Except.bind_eq_ok.1 (List.mapM_cons.symm.trans hws)
          obtain ⟨ws, _, htail⟩ := Except.bind_eq_ok.1 htail
          cases htail
          refine .built rfl ?_
          show EitherWalker.Stands S _ (.start (SearchCursor.ofList _ _).candidates) none
          rw [show (SearchCursor.ofList _ (SearchCursor.inTurn [] cs zs)).candidates = _ from
            Track.toList_start _, inTurn_eq hzs]
          exact EitherWalker.fresh hstands (List.cons_ne_nil w ws)
        · rw [if_neg hzs, if_neg hzs]
          exact .failed _

/-! ## Filters -/

namespace Walker

variable {n : Nat}

mutual

/-- **The walker and the search cursor of a filter are alike.** -/
theorem build_alike (halias : p.system.aliasTarget.WellFormed) : (f : Filter) → (d : Nat) →
    (h : f.depth ≤ d) → Alike (Stands d) (SearchCursor.ofFilter p f) (build p f d h)
  | f, 0, h => absurd h (Nat.not_le_of_lt f.depth_pos)
  | .scope b .base _ _, _ + 1, _ => ofBase_alike b
  | .scope b .oneLevel m _, _ + 1, _ => ofScope_alike halias b .oneLevel m.followsBelow
  | .scope b .subtree m _, _ + 1, _ => ofScope_alike halias b .subtree m.followsBelow
  | .presence a n, _ + 1, _ => by
    show Alike _ _ (Layer.ofPresence p (.presence a n) a)
    rw [SearchCursor.ofFilter, Layer.ofPresence]
    cases p.hasUserIndex a with
    | true => exact .built rfl (KeyWalker.fresh ..)
    | false => exact scanFor_alike _
  | .comparison .atLeast a v n, _ + 1, _ =>
    ofRange_alike a n rfl fun x => SpanWalker.shows_atLeast x v
  | .comparison .atMost a v n, _ + 1, _ =>
    ofRange_alike a n rfl fun x => SpanWalker.shows_atMost x v
  | .comparison .equality a v n, _ + 1, _ => ofEqual_alike (.inl rfl) a v n
  | .comparison .approximate a v n, _ + 1, _ => ofEqual_alike (.inr rfl) a v n
  | .substring a pieces n, _ + 1, _ => ofPieces_alike a pieces n
  | .extensible a r v i n, _ + 1, _ => scanFor_alike _
  | .and fs _, d + 1, h => conjunction_alike (buildAll_alike halias fs d _)
  | .or fs _, d + 1, h => disjunction_alike (buildAll_alike halias fs d _)
  | .not f _, _ + 1, _ => by
    show Alike _ _ (do return Layer.scan (Layer.testAll p (← Evaluator.ofFilter p f) false))
    rw [SearchCursor.ofFilter]
    cases Evaluator.ofFilter p f with
    | error e => exact .failed e
    | ok x => exact .built rfl (ScanWalker.fresh x false)

theorem buildAll_alike (halias : p.system.aliasTarget.WellFormed) : (fs : List Filter) → (d : Nat) →
    (h : Filter.depthAll fs ≤ d) →
      List.Forall₂ (BuiltAlike (Stands d)) (SearchCursor.buildAll p fs) (buildAll p fs d h)
  | [], _, _ => .nil
  | f :: fs, d, _ => .cons ⟨rfl, build_alike halias f d _⟩ (buildAll_alike halias fs d _)

end

theorem exists_cursor (hp : p.Valued n) {f : Filter} {w : Walker f.depth}
    (hw : ofFilter p f = .ok w) : ∃ c, SearchCursor.ofFilter p f = .ok c ∧
      Stands f.depth w (.start c.candidates) none := by
  have halike := build_alike (hp.sound.names .aliasTarget) f f.depth (Nat.le_refl _)
  rw [show build p f f.depth _ = _ from hw] at halike
  generalize SearchCursor.ofFilter p f = r at halike
  cases halike with
  | built _ hstands => exact ⟨_, rfl, hstands⟩

theorem cursor_fresh (hp : p.Valued n) {f : Filter} {c : SearchCursor}
    (hc : SearchCursor.ofFilter p f = .ok c) : c.cursor = .ofList c.candidates := by
  have halike := build_alike (hp.sound.names .aliasTarget) f f.depth (Nat.le_refl _)
  rw [hc] at halike
  generalize build p f f.depth (Nat.le_refl _) = r at halike
  cases halike with
  | built hfresh _ => exact hfresh

end Walker

end Directory
