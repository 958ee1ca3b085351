import Directory.Proofs.Index.Walker
import Directory.Proofs.Search.Nested
import Directory.Search.Span

/-!
# Walkers over a span of keys walk their candidates

The keys of a span are consecutive: what lies in front of it on a way is closed towards the start of
the way. So a walker may come back to an edge from outside without passing over a candidate.

* `Span.outside`: the key lies in front of the span on a way; `Span.outside_of_earlier`: so do all
  that are met before it.
* `Span.toEdge_at`: **the edge of the span lies between the keys in front of it and all others**.
* `SpanWalker.Among`, `SpanWalker.walksAmong`: a walker over an index walks the tuples that are
  shown; `SpanWalker.walks`: so does any, or it walks a scan.
-/

namespace Directory

/-! ## Stems -/

theorem not_lt_of_isPrefixOf {p k : List Char} (h : p.isPrefixOf k = true) : ¬k < p := by
  induction p generalizing k with
  | nil => exact List.not_lt_nil k
  | cons a p ih =>
    cases k with
    | nil => cases h
    | cons b k =>
      obtain ⟨hab, hpk⟩ := Bool.and_eq_true_iff.1 h
      obtain rfl : a = b := eq_of_beq hab
      rw [List.cons_lt_cons_iff]
      rintro (h' | ⟨_, h'⟩)
      · exact Char.lt_irrefl a h'
      · exact ih hpk h'

theorem isPrefixOf_of_between {p x y : List Char} (hx : ¬x < p) (hxy : x < y)
    (hy : p.isPrefixOf y = true) : p.isPrefixOf x = true := by
  induction p generalizing x y with
  | nil => rfl
  | cons a p ih =>
    cases y with
    | nil => cases hy
    | cons b y =>
      obtain ⟨hab, hpy⟩ := Bool.and_eq_true_iff.1 hy
      obtain rfl : a = b := eq_of_beq hab
      cases x with
      | nil => exact absurd (List.nil_lt_cons a p) hx
      | cons c x =>
        rw [List.cons_lt_cons_iff] at hx hxy
        rcases hxy with h | ⟨rfl, h⟩
        · exact absurd (.inl h) hx
        · rw [List.isPrefixOf, beq_self_eq_true, Bool.true_and]
          exact ih (fun h' => hx (.inr ⟨rfl, h'⟩)) h hpy

namespace Value

variable {stem : String} {k l : Value}

theorem compare_text_eq_lt {s t : String} :
    compare (text s) (text t) = .lt ↔ s.toList < t.toList := by
  have hlt : compare s t = .lt ↔ s < t := compareOfLessAndEq_eq_lt
  exact hlt

theorem not_lt_of_startsWith (h : k.startsWith stem = true) : compare k (.text stem) ≠ .lt := by
  cases k with
  | text s => exact fun hlt => not_lt_of_isPrefixOf h (compare_text_eq_lt.1 hlt)
  | _ => cases h

theorem startsWith_of_between (hk : compare k (.text stem) ≠ .lt) (hkl : compare k l = .lt)
    (hl : l.startsWith stem = true) : k.startsWith stem = true := by
  cases l with
  | text t =>
    cases k with
    | text s =>
      exact isPrefixOf_of_between (fun h => hk (compare_text_eq_lt.2 h))
        (compare_text_eq_lt.1 hkl) hl
    | integer n => exact absurd rfl hk
    | binary bs => cases hkl
  | _ => cases hl

end Value

/-! ## Spans -/

namespace Span

variable {s : Span} {w : Way} {k l : Value}

/-- The key lies in front of the span on a way. -/
def outside (s : Span) (w : Way) (k : Value) : Bool :=
  !s.within k && (s.below k == (w = .forward))

theorem within_eq_false_of_below (h : s.below k = true) : s.within k = false := by
  cases s with
  | atLeast bound =>
    rw [below, beq_iff_eq] at h
    rw [within, Std.OrientedCmp.gt_of_lt h]
    rfl
  | atMost bound => cases h
  | pieces p stem =>
    cases stem with
    | none => cases h
    | some stem =>
      rw [below, Option.any_some, beq_iff_eq] at h
      exact Bool.eq_false_iff.2 fun hs => Value.not_lt_of_startsWith hs h

theorem outside_forward : s.outside .forward k = s.below k := by
  rw [outside]
  cases h : s.below k with
  | false => simp
  | true => simp [within_eq_false_of_below h]

theorem outside_backward :
    s.outside .backward k = true ↔ s.within k = false ∧ s.below k = false := by
  simp [outside]

theorem outside_atLeast_backward {bound : Value} :
    (atLeast bound).outside .backward k = false := by
  refine Bool.eq_false_iff.2 fun h => ?_
  obtain ⟨hwithin, hbelow⟩ := outside_backward.1 h
  have hgt : compare bound k = .gt := by
    rw [within] at hwithin
    cases hc : compare bound k <;> simp_all
  rw [below, Std.OrientedCmp.lt_of_gt hgt] at hbelow
  cases hbelow

theorem outside_atMost_backward {bound : Value} :
    (atMost bound).outside .backward k = (compare bound k == .lt) := by
  have hswap : compare k bound = (compare bound k).swap := Std.OrientedCmp.eq_swap
  rw [outside, within, hswap]
  cases compare bound k <;> rfl

theorem not_within_of_outside (h : s.outside w k = true) : s.within k = false := by
  rw [outside, Bool.and_eq_true, Bool.not_eq_true'] at h
  exact h.1

theorem below_of_lt (h : s.below k = true) (hlk : compare l k = .lt) : s.below l = true := by
  cases s with
  | atLeast bound =>
    rw [below, beq_iff_eq] at h ⊢
    exact Std.TransCmp.lt_trans hlk h
  | atMost bound => cases h
  | pieces p stem =>
    cases stem with
    | none => cases h
    | some stem =>
      rw [below, Option.any_some, beq_iff_eq] at h ⊢
      exact Std.TransCmp.lt_trans hlk h

/-- What is met before a key in front of the span lies in front of it too. -/
theorem outside_of_earlier (h : s.outside w k = true) (hlk : w.order compare l k = .lt) :
    s.outside w l = true := by
  cases w with
  | forward =>
    rw [outside_forward] at h ⊢
    exact below_of_lt h hlk
  | backward =>
    have hkl : compare k l = .lt := hlk
    cases s with
    | atLeast bound =>
      rw [outside_atLeast_backward] at h
      cases h
    | atMost bound =>
      rw [outside_atMost_backward, beq_iff_eq] at h ⊢
      exact Std.TransCmp.lt_trans h hkl
    | pieces p stem =>
      rw [outside_backward] at h ⊢
      obtain ⟨hwithin, hbelow⟩ := h
      cases stem with
      | none => cases hwithin
      | some stem =>
        have hwithin : k.startsWith stem = false := hwithin
        have hbelow : compare k (.text stem) ≠ .lt := beq_eq_false_iff_ne.1 hbelow
        refine ⟨Bool.eq_false_iff.2 fun hl => ?_, beq_eq_false_iff_ne.2 fun hl => ?_⟩
        · rw [Value.startsWith_of_between hbelow hkl hl] at hwithin
          cases hwithin
        · exact hbelow (Std.TransCmp.lt_trans hkl hl)

/-! ### Edges -/

/-- The track is at the edge from which a way leads into the span. -/
structure AtEdge (s : Span) (w : Way) (u : Track (Value × EntryId)) : Prop where
  here : u.here = none
  behind : ∀ x ∈ (u.seen w).behind, s.outside w x.1 = true
  ahead : ∀ x ∈ (u.seen w).ahead, s.outside w x.1 = false

variable {c : IndexWalker Value} {u : Track (Value × EntryId)}

theorem outset_atEdge (h : ∀ k, s.outside w k = false) : s.AtEdge w (u.outset w) where
  here := Track.here_outset
  behind := by cases w <;> exact nofun
  ahead x _ := h x.1

theorem dropWhile_eq_filter {α : Type} {q : α → Bool} {xs : List α}
    (h : xs.Pairwise fun x y => q x = false → q y = false) :
    xs.dropWhile q = xs.filter (!q ·) := by
  induction xs with
  | nil => rfl
  | cons x xs ih =>
    obtain ⟨hx, hxs⟩ := List.pairwise_cons.1 h
    cases hq : q x with
    | true =>
      rw [List.dropWhile_cons_of_pos hq, ih hxs, List.filter_cons_of_neg (by simp [hq])]
    | false =>
      rw [List.dropWhile_cons_of_neg (by simp [hq]), List.filter_eq_self.2]
      intro y hy
      rcases List.mem_cons.1 hy with rfl | hy
      · rw [hq]
        rfl
      · rw [hx y hy hq]
        rfl

theorem takeWhile_eq_filter {α : Type} {q : α → Bool} {xs : List α}
    (h : xs.Pairwise fun x y => q x = false → q y = false) : xs.takeWhile q = xs.filter q := by
  induction xs with
  | nil => rfl
  | cons x xs ih =>
    obtain ⟨hx, hxs⟩ := List.pairwise_cons.1 h
    cases hq : q x with
    | true => rw [List.takeWhile_cons_of_pos hq, ih hxs, List.filter_cons_of_pos hq]
    | false =>
      rw [List.takeWhile_cons_of_neg (by simp [hq]), List.filter_cons_of_neg (by simp [hq]),
        List.filter_eq_nil_iff.2 fun y hy => Bool.eq_false_iff.1 (hx y hy hq)]

theorem pairwise_keys {t : Tables Value} :
    t.forward.keys.Pairwise fun k l => compare k l = .lt :=
  List.pairwise_map.2 t.forward.increasing

/-- The search goes through all keys with the stem, since they follow one another. -/
theorem lastWith?_eq {t : Tables Value} {stem : String} :
    lastWith? t stem = (t.forward.keys.filter (·.startsWith stem)).getLast? := by
  have hsorted := @pairwise_keys t
  have hdrop : t.forward.keys.dropWhile (compare · (.text stem) == .lt) =
      t.forward.keys.filter fun k => !(compare k (.text stem) == .lt) := by
    refine dropWhile_eq_filter (hsorted.imp fun {k l} hkl hk => ?_)
    exact beq_eq_false_iff_ne.2 fun hl => beq_eq_false_iff_ne.1 hk (Std.TransCmp.lt_trans hkl hl)
  rw [lastWith?, hdrop, takeWhile_eq_filter, List.filter_filter]
  · refine congrArg List.getLast? (List.filter_congr fun k _ => ?_)
    cases hk : k.startsWith stem with
    | false => rfl
    | true =>
      have := Value.not_lt_of_startsWith hk
      cases hc : compare k (.text stem) <;> simp_all
  · refine (hsorted.filter _).imp_of_mem fun {k l} hk _ hkl hstem => ?_
    have hge : compare k (.text stem) ≠ .lt := by simpa using (List.mem_filter.1 hk).2
    exact Bool.eq_false_iff.2 fun hl =>
      Bool.eq_false_iff.1 hstem (Value.startsWith_of_between hge hkl hl)

theorem lastWith?_spec {t : Tables Value} {stem : String} :
    match lastWith? t stem with
    | some k => k.startsWith stem = true ∧
        ∀ l ∈ t.forward.keys, l.startsWith stem = true → compare k l ≠ .lt
    | none => ∀ l ∈ t.forward.keys, l.startsWith stem = false := by
  rw [lastWith?_eq]
  cases hlast : (t.forward.keys.filter (·.startsWith stem)).getLast? with
  | none =>
    intro l hl
    have hnil := List.getLast?_eq_none_iff.1 hlast
    exact Bool.eq_false_iff.2 fun h => List.filter_eq_nil_iff.1 hnil l hl h
  | some k =>
    obtain ⟨ks, hks⟩ := List.getLast?_eq_some_iff.1 hlast
    have hmem : k ∈ t.forward.keys.filter (·.startsWith stem) := by simp [hks]
    refine ⟨(List.mem_filter.1 hmem).2, fun l hl h hlt => ?_⟩
    have hsorted := hks ▸ (@pairwise_keys t).filter (Value.startsWith stem)
    rcases List.mem_append.1 (hks ▸ List.mem_filter.2 ⟨hl, h⟩) with hl | hl
    · have hlk := (List.pairwise_append.1 hsorted).2.2 l hl k (.head _)
      rw [Std.OrientedCmp.gt_of_lt hlk] at hlt
      cases hlt
    · rw [List.mem_singleton.1 hl, Sorted.compare_self] at hlt
      cases hlt

/-- The walker has come to another place, which stands for a track of the same tuples. -/
structure Comes (c c' : IndexWalker Value) (u v : Track (Value × EntryId)) : Prop where
  at_ : c'.At v
  list : v.toList = u.toList
  tables : c'.tables = c.tables
  direction : c'.direction = .forward

theorem comes_goTo (hat : c.At u) (hd : c.direction = .forward) {pl : Place (Value × EntryId)}
    {v : Track (Value × EntryId)} (hv : v.toList = u.toList) (hpl : pl.At comparePairs id v) :
    Comes c { c with place := pl } u v where
  at_ := hat.goTo hv (by rw [hd]; exact hpl)
  list := hv
  tables := rfl
  direction := hd

theorem comes_restart (hat : c.At u) (hd : c.direction = .forward) (w : Way) :
    ∃ c' v, IndexWalker.restart w c = .ok () c' ∧ Comes c c' u v ∧ v = u.outset w :=
  ⟨_, _, bind_of_ok (ensureOpen_ok hat.isOpen _),
    comes_goTo hat hd Track.toList_outset (Place.outset_at u), rfl⟩

theorem comes_before (hat : c.At u) (hd : c.direction = .forward) (k : Value) :
    ∃ c' v, IndexWalker.beforeValue none k c = .ok () c' ∧ Comes c c' u v ∧ v.here = none ∧
      (∀ x ∈ v.behind, compare x.1 k = .lt) ∧ ∀ x ∈ v.ahead, compare x.1 k ≠ .lt := by
  have hsorted := hat.list ▸ Tables.pairwise_tuples c.tables c.direction
  rw [hd] at hsorted
  have hplace : Place.At comparePairs id (.before (k, EntryId.least)) _ :=
    Place.before_at u hsorted (k, EntryId.least)
  obtain ⟨hhere, hbehind, hahead⟩ := hplace.of_before
  refine ⟨_, _, ?_, comes_goTo hat hd (Track.toList_seek _ u) hplace, hhere,
    fun x hx => comparePairs_least.1 (hbehind x hx),
    fun x hx h => hahead x hx (comparePairs_least.2 h)⟩
  obtain ⟨tables, direction, place, closed⟩ := c
  cases hd
  exact bind_of_ok (ensureOpen_ok hat.isOpen _)

theorem comes_after (hat : c.At u) (hd : c.direction = .forward) (k : Value) :
    ∃ c' v, IndexWalker.afterValue none k c = .ok () c' ∧ Comes c c' u v ∧ v.here = none ∧
      (∀ x ∈ v.behind, compare k x.1 ≠ .lt) ∧ ∀ x ∈ v.ahead, compare k x.1 = .lt := by
  have hsorted := hat.list ▸ Tables.pairwise_tuples c.tables c.direction
  rw [hd] at hsorted
  have hplace : Place.At comparePairs id (.after (k, EntryId.greatest)) _ :=
    Place.after_at u hsorted (k, EntryId.greatest)
  obtain ⟨hhere, hbehind, hahead⟩ := hplace.of_after
  refine ⟨_, _, ?_, comes_goTo hat hd (Track.toList_seek _ u) hplace, hhere,
    fun x hx h => hbehind x hx (comparePairs_greatest.2 h),
    fun x hx => comparePairs_greatest.1 (hahead x hx)⟩
  obtain ⟨tables, direction, place, closed⟩ := c
  cases hd
  exact bind_of_ok (ensureOpen_ok hat.isOpen _)

/-- The walker reaches the edge of the span from which a way leads into it. -/
def Reaches (s : Span) (w : Way) (c : IndexWalker Value) (u : Track (Value × EntryId)) : Prop :=
  ∃ c' v, s.toEdge w c = .ok () c' ∧ Comes c c' u v ∧ s.AtEdge w v

theorem reaches_end (hat : c.At u) (hd : c.direction = .forward)
    (hedge : s.toEdge w c = IndexWalker.restart w c) (h : ∀ k, s.outside w k = false) :
    s.Reaches w c u := by
  obtain ⟨c', _, hc', hcomes, rfl⟩ := comes_restart hat hd w
  exact ⟨c', _, hedge.trans hc', hcomes, outset_atEdge h⟩

theorem reaches_front (hat : c.At u) (hd : c.direction = .forward)
    (hedge : s.toEdge .forward c = IndexWalker.beforeValue none k c)
    (h : ∀ l, s.below l = (compare l k == .lt)) : s.Reaches .forward c u := by
  obtain ⟨c', v, hc', hcomes, hhere, hbehind, hahead⟩ := comes_before hat hd k
  refine ⟨c', v, hedge.trans hc', hcomes, hhere, fun x hx => ?_, fun x hx => ?_⟩
  · rw [outside_forward, h]
    exact beq_iff_eq.2 (hbehind x hx)
  · rw [outside_forward, h]
    exact beq_eq_false_iff_ne.2 (hahead x hx)

theorem reaches_stem (hat : c.At u) (hd : c.direction = .forward) (ps : Pieces) (stem : String) :
    (pieces ps (some stem)).Reaches .backward c u := by
  have hkeys {c' : IndexWalker Value} {v : Track (Value × EntryId)} (hv : Comes c c' u v)
      {x : Value × EntryId} (hx : x ∈ v.toList) : x.1 ∈ c.tables.forward.keys := by
    rw [hv.list, hat.list, hd] at hx
    exact mem_keys_of_mem_pairs hx
  have hlast := @lastWith?_spec c.tables stem
  have hedge : toEdge (.pieces ps (some stem)) .backward c =
      (match lastWith? c.tables stem with
        | some k => IndexWalker.afterValue none k
        | none => IndexWalker.beforeValue none (.text stem) :
          EStateM Error (IndexWalker Value) Unit) c := rfl
  rw [Reaches, hedge]
  cases hk : lastWith? c.tables stem with
  | none =>
    rw [hk] at hlast
    obtain ⟨c', v, hc', hcomes, hhere, hbehind, hahead⟩ := comes_before hat hd (.text stem)
    refine ⟨c', v, hc', hcomes, hhere, fun x hx => ?_, fun x hx => ?_⟩
    · exact outside_backward.2 ⟨hlast x.1 (hkeys hcomes (Track.mem_of_behind hx)),
        beq_eq_false_iff_ne.2 (hahead x hx)⟩
    · refine Bool.eq_false_iff.2 fun h => ?_
      exact beq_eq_false_iff_ne.1 (outside_backward.1 h).2 (hbehind x hx)
  | some k =>
    rw [hk] at hlast
    obtain ⟨hstem, hgreatest⟩ := hlast
    have hnot : (pieces ps (some stem)).outside .backward k = false := by
      rw [outside, show (pieces ps (some stem)).within k = true from hstem]
      rfl
    obtain ⟨c', v, hc', hcomes, hhere, hbehind, hahead⟩ := comes_after hat hd k
    refine ⟨c', v, hc', hcomes, hhere, fun x hx => ?_, fun x hx => ?_⟩
    · refine outside_backward.2 ⟨Bool.eq_false_iff.2 fun h => ?_,
        beq_eq_false_iff_ne.2 fun h => ?_⟩
      · exact hgreatest x.1 (hkeys hcomes (Track.mem_of_behind hx)) h (hahead x hx)
      · exact Value.not_lt_of_startsWith hstem (Std.TransCmp.lt_trans (hahead x hx) h)
    · refine Bool.eq_false_iff.2 fun h => ?_
      cases hc : compare k x.1 with
      | lt => exact hbehind x hx hc
      | eq =>
        rw [Std.LawfulEqCmp.eq_of_compare hc, h] at hnot
        cases hnot
      | gt =>
        rw [outside_of_earlier h (Std.OrientedCmp.lt_of_gt hc)] at hnot
        cases hnot

/-- **The edge of a span.** It lies between the keys in front of the span and all others. -/
theorem toEdge_at (hat : c.At u) (hd : c.direction = .forward) (s : Span) (w : Way) :
    s.Reaches w c u := by
  cases s with
  | atLeast bound =>
    cases w with
    | forward => exact reaches_front hat hd rfl fun _ => rfl
    | backward => exact reaches_end hat hd rfl fun _ => outside_atLeast_backward
  | atMost bound =>
    cases w with
    | forward => exact reaches_end hat hd rfl fun _ => outside_forward
    | backward =>
      obtain ⟨c', v, hc', hcomes, hhere, hbehind, hahead⟩ := comes_after hat hd bound
      refine ⟨c', v, hc', hcomes, hhere, fun x hx => ?_, fun x hx => ?_⟩
      · exact outside_atMost_backward.trans (beq_iff_eq.2 (hahead x hx))
      · exact outside_atMost_backward.trans (beq_eq_false_iff_ne.2 (hbehind x hx))
  | pieces ps stem =>
    cases stem with
    | none => exact reaches_end hat hd (by cases w <;> rfl) fun _ => rfl
    | some stem =>
      cases w with
      | forward => exact reaches_front hat hd rfl fun _ => rfl
      | backward => exact reaches_stem hat hd ps stem

theorem outside_of_earlier_tuple {x y : Value × EntryId} (hx : s.outside w x.1 = true)
    (hyx : w.order comparePairs y x = .lt) : s.outside w y.1 = true := by
  by_cases hkeys : y.1 = x.1
  · rwa [hkeys]
  · refine outside_of_earlier hx ?_
    have hne : compare y.1 x.1 ≠ .eq := fun h => hkeys (Std.LawfulEqCmp.eq_of_compare h)
    rwa [← order_comparePairs (a := y.1) (b := y.2) hne]

variable {x : Value × EntryId} {xs : List (Value × EntryId)}

theorem outside_behind (hsorted : u.toList.Pairwise fun x y => comparePairs x y = .lt)
    (hahead : (u.seen w).ahead = x :: xs) (hx : s.outside w x.1 = true) :
    (∀ y ∈ (u.seen w).behind, s.outside w y.1 = true) ∧ ∀ y ∈ u.here, s.outside w y.1 = true := by
  have hearlier := Track.earlier hsorted hahead
  exact ⟨fun y hy => outside_of_earlier_tuple hx (hearlier.1 y hy),
    fun y hy => outside_of_earlier_tuple hx (hearlier.2.1 y hy)⟩

/-- From a tuple in front of the span, the edge is nearer to the end. -/
theorem AtEdge.nearer {v : Track (Value × EntryId)} (h : s.AtEdge w v) (hlist : v.toList = u.toList)
    (hahead : (u.seen w).ahead = x :: xs) (hx : s.outside w x.1 = true)
    (hbehind : ∀ y ∈ (u.seen w).behind, s.outside w y.1 = true)
    (hbefore : ∀ y ∈ u.here, s.outside w y.1 = true) :
    (v.seen w).ahead.length < (u.seen w).ahead.length := by
  have hnil {ys : List (Value × EntryId)} (hys : ∀ y ∈ ys, s.outside w y.1 = true) :
      ys.filter (!s.outside w ·.1) = [] :=
    List.filter_eq_nil_iff.2 fun y hy => by simp [hys y hy]
  have hv : (w.list v.toList).filter (!s.outside w ·.1) = (v.seen w).ahead := by
    have hself : (v.seen w).ahead.filter (!s.outside w ·.1) = (v.seen w).ahead :=
      List.filter_eq_self.2 fun y hy => by simp [h.ahead y hy]
    rw [← Track.toList_seen, Track.toList, Track.here_seen, h.here, List.filter_append,
      List.filter_append, List.filter_reverse, hnil h.behind, hself]
    rfl
  have hu : (w.list u.toList).filter (!s.outside w ·.1) = xs.filter (!s.outside w ·.1) := by
    rw [← Track.toList_seen, Track.toList, Track.here_seen, List.filter_append,
      List.filter_append, List.filter_reverse, hnil hbehind,
      hnil fun y hy => hbefore y (Option.mem_toList.1 hy), hahead,
      List.filter_cons_of_neg (by simp [hx])]
    rfl
  rw [← hv, hlist, hu, hahead]
  exact Nat.lt_succ_of_le (List.length_filter_le ..)

theorem outside_ahead (hsorted : u.toList.Pairwise fun x y => comparePairs x y = .lt)
    (hahead : (u.seen w).ahead = x :: xs) (hx : s.outside w.opposite x.1 = true) :
    ∀ y ∈ (u.seen w).ahead, s.outside w.opposite y.1 = true := by
  intro y hy
  rw [hahead] at hy
  rcases List.mem_cons.1 hy with rfl | hy
  · exact hx
  · refine outside_of_earlier_tuple hx ?_
    have := (Track.earlier hsorted hahead).2.2 y hy
    cases w <;> exact this

end Span

/-! ## Walkers -/

theorem ScanWalker.walks (p : Partition) : (ScanWalker.navigation p).Walks (Test.accept p)
    (TestedWalker.Stands MasterWalker.Stands) :=
  TestedWalker.walks MasterWalker.walks .scan

namespace SpanWalker

variable {p : Partition} {w : Way} {s : Span} {t : Tables Value} {i i' : IndexWalker Value}
  {u v : Track (Value × EntryId)}

/-- The tuple lies in the span and is the one under which its entry is shown. -/
def shows (s : Span) (t : Tables Value) (x : Value × EntryId) : Bool :=
  s.within x.1 && s.first? (t.keysOf x.2).toList == some x.1

theorem shows_of_outside {x : Value × EntryId} (h : s.outside w x.1 = true) :
    shows s t x = false := by
  rw [shows, Span.not_within_of_outside h]
  rfl

theorem shown_of_atEdge (h : s.AtEdge w u) :
    u.shown (shows s t) Candidate.ofTuple = (u.outset w).shown (shows s t) Candidate.ofTuple :=
  Track.shown_outset (fun z hz => shows_of_outside (h.behind z hz)) (h.here ▸ nofun)

theorem get_bind {σ α : Type} {f : σ → EStateM Error σ α} {c : σ} : (get >>= f) c = f c c := rfl

theorem onIndex_ok {α : Type} {m : EStateM Error (IndexWalker Value) α} {a : α} {closed : Bool}
    (hm : m i = .ok a i') :
    onIndex m ⟨.indexed i, s, closed⟩ = .ok (some a) ⟨.indexed i', s, closed⟩ := by
  rw [onIndex]
  dsimp only
  rw [map_of_ok hm]
  rfl

/-- The walker stands for the track of the tuples that are shown, or for that of a scan. -/
inductive Stands : SpanWalker → Track Candidate → Option (Element SearchKey) → Prop
  | indexed {i : IndexWalker Value} {s : Span} {u : Track (Value × EntryId)} (hat : i.At u)
      (hd : i.direction = .forward) (hhere : ∀ x ∈ u.here, shows s i.tables x = true) :
      Stands ⟨.indexed i, s, false⟩ (u.shown (shows s i.tables) Candidate.ofTuple)
        (u.here.map fun x => ⟨some x.1, x.2, none⟩)
  | fullScan {k : ScanWalker} {s : Span} {u : Track Candidate} {e : Option (Element SearchKey)}
      (h : TestedWalker.Stands MasterWalker.Stands k u e) : Stands ⟨.fullScan k, s, false⟩ u e

/-- The walker is over this span of these tables, and stands for the track of the tuples that are
shown. -/
def Among (s : Span) (t : Tables Value) (c : SpanWalker) (v : Track Candidate)
    (e : Option (Element SearchKey)) : Prop :=
  ∃ i u, c = ⟨.indexed i, s, false⟩ ∧ i.At u ∧ i.direction = .forward ∧ i.tables = t ∧
    (∀ x ∈ u.here, shows s t x = true) ∧ v = u.shown (shows s t) Candidate.ofTuple ∧
    e = u.here.map fun x => ⟨some x.1, x.2, none⟩

theorem Among.stands {c : SpanWalker} {v : Track Candidate} {e : Option (Element SearchKey)}
    (h : Among s t c v e) : Stands c v e := by
  obtain ⟨i, u, rfl, hat, hd, rfl, hhere, rfl, rfl⟩ := h
  exact .indexed hat hd hhere

theorem among_of_edge (hcomes : Span.Comes i i' u v) (hedge : s.AtEdge w v) :
    Among s i.tables ⟨.indexed i', s, false⟩
      ((u.outset w).shown (shows s i.tables) Candidate.ofTuple) none := by
  refine ⟨i', v, rfl, hcomes.at_, hcomes.direction, hcomes.tables, hedge.here ▸ nofun, ?_, ?_⟩
  · rw [shown_of_atEdge hedge, Track.outset_congr hcomes.list]
  · rw [hedge.here]
    rfl

theorem among_fresh (t : Tables Value) (s : Span) : Among s t (ofTables t s)
    (.start ((t.byKey.filter (shows s t)).map Candidate.ofTuple)) none := by
  have hat : (IndexWalker.ofTables t .forward).At (.start t.byKey) :=
    ⟨rfl, Track.toList_start _, .beforeFirst⟩
  obtain ⟨i, v, hedge, hcomes, hatEdge⟩ := Span.toEdge_at hat rfl s .forward
  rw [ofTables, hedge]
  exact among_of_edge hcomes hatEdge

/-- The walker is open and walks the tuples of these tables; there are so many ahead. -/
def Moving (w : Way) (s : Span) (t : Tables Value) (k : Nat) (c : SpanWalker)
    (v : Track Candidate) : Prop :=
  ∃ i u, c = ⟨.indexed i, s, false⟩ ∧ i.At u ∧ i.direction = .forward ∧ i.tables = t ∧
    v = u.shown (shows s t) Candidate.ofTuple ∧ k = (u.seen w).ahead.length

theorem attempt_met {e : Element Value} (hmove : IndexWalker.advance w i = .ok true i')
    (hel : IndexWalker.element i' = .ok e i') :
    attempt w ⟨.indexed i, s, false⟩ =
      (if s.within e.key then
        return if s.first? (i'.tables.keysOf e.id).toList == some e.key then some true else none
      else if s.below e.key == (w = .forward) then do
        let _ ← onIndex (s.toEdge w)
        return none
      else do
        let _ ← onIndex (s.toEdge w.opposite)
        return some false : EStateM Error SpanWalker (Option Bool)) ⟨.indexed i', s, false⟩ := by
  have htables : (do return (← IndexWalker.element, (← get).tables) :
      EStateM Error (IndexWalker Value) (Element Value × Tables Value)) i' =
        .ok (e, i'.tables) i' := bind_of_ok hel
  rw [attempt, get_bind]
  exact (bind_of_ok (onIndex_ok hmove)).trans (bind_of_ok (onIndex_ok htables))

theorem attempt_ended (hmove : IndexWalker.advance w i = .ok false i') :
    attempt w ⟨.indexed i, s, false⟩ = .ok (some false) ⟨.indexed i', s, false⟩ := by
  rw [attempt, get_bind]
  exact bind_of_ok (onIndex_ok hmove)

/-- The walker inside moves to a tuple. -/
structure Met (w : Way) (i i' : IndexWalker Value) (u : Track (Value × EntryId))
    (x : Value × EntryId) (xs : List (Value × EntryId)) : Prop where
  at_ : i.At u
  ahead : (u.seen w).ahead = x :: xs
  move : IndexWalker.advance w i = .ok true i'
  next : i'.At (u.stepOn w)
  tables : i'.tables = i.tables
  forward : i.direction = .forward ∧ i'.direction = .forward

namespace Met

variable {x : Value × EntryId} {xs : List (Value × EntryId)}

theorem here (h : Met w i i' u x xs) : (u.stepOn w).here = some x := by
  rw [Track.here_stepOn, h.ahead]
  rfl

theorem element (h : Met w i i' u x xs) :
    IndexWalker.element i' = .ok ⟨x.1, x.2, none⟩ i' := by
  rw [h.next.element, h.here]
  rfl

theorem sorted (h : Met w i i' u x xs) :
    u.toList.Pairwise fun x y => comparePairs x y = .lt := by
  have hsorted := h.at_.list ▸ Tables.pairwise_tuples i.tables i.direction
  rwa [h.forward.1] at hsorted

/-- In the span, the walker stops at a tuple that is shown, and passes another one. -/
theorem attempt_within (h : Met w i i' u x xs) (hwithin : s.within x.1 = true) :
    Tried (Test.accept p) w (Moving w s i.tables) (Among s i.tables) (u.seen w).ahead.length
      (u.shown (shows s i.tables) Candidate.ofTuple)
      (SpanWalker.attempt w ⟨.indexed i, s, false⟩) := by
  rw [attempt_met h.move h.element, h.tables, if_pos hwithin]
  dsimp only
  have hshows : shows s i.tables x = (s.first? (i.tables.keysOf x.2).toList == some x.1) := by
    rw [shows, hwithin, Bool.true_and]
  rw [← hshows]
  cases hx : shows s i.tables x with
  | true =>
    refine .moved (Track.move_shown_keep h.ahead hx rfl)
      ⟨i', _, rfl, h.next, h.forward.2, h.tables, ?_, rfl, ?_⟩
    · rw [h.here]
      rintro _ ⟨⟩
      exact hx
    · rw [h.here]
      rfl
  | false =>
    refine .again (Track.move_shown_skip h.ahead hx).symm ?_
      ⟨i', _, rfl, h.next, h.forward.2, h.tables, rfl, rfl⟩
    rw [Track.ahead_stepOn, h.ahead]
    exact Nat.lt_succ_self _

/-- In front of the span, the walker comes back to the edge. -/
theorem attempt_before (h : Met w i i' u x xs) (hout : s.outside w x.1 = true) :
    Tried (Test.accept p) w (Moving w s i.tables) (Among s i.tables) (u.seen w).ahead.length
      (u.shown (shows s i.tables) Candidate.ofTuple)
      (SpanWalker.attempt w ⟨.indexed i, s, false⟩) := by
  obtain ⟨hwithin, hnear⟩ := Bool.and_eq_true_iff.1 hout
  rw [Bool.not_eq_true'] at hwithin
  obtain ⟨i'', v, hedge, hcomes, hatEdge⟩ := Span.toEdge_at h.next h.forward.2 s w
  have hlist : v.toList = u.toList := hcomes.list.trans Track.toList_stepOn
  obtain ⟨hbehind, hbefore⟩ := Span.outside_behind h.sorted h.ahead hout
  have hsame : u.shown (shows s i.tables) Candidate.ofTuple =
      v.shown (shows s i.tables) Candidate.ofTuple := by
    rw [shown_of_atEdge hatEdge, Track.outset_congr hlist]
    exact Track.shown_outset (fun z hz => shows_of_outside (hbehind z hz)) fun z hz =>
      shows_of_outside (hbefore z hz)
  rw [attempt_met h.move h.element, if_neg (Bool.eq_false_iff.1 hwithin), if_pos hnear,
    bind_of_ok (onIndex_ok hedge), hsame]
  exact .again rfl (hatEdge.nearer hlist h.ahead hout hbehind hbefore)
    ⟨i'', v, rfl, hcomes.at_, hcomes.direction, hcomes.tables.trans h.tables, rfl, rfl⟩

/-- Behind the span, the walk ends at the edge there. -/
theorem attempt_behind (h : Met w i i' u x xs) (hwithin : s.within x.1 = false)
    (hfar : (s.below x.1 == (w = .forward)) = false) :
    Tried (Test.accept p) w (Moving w s i.tables) (Among s i.tables) (u.seen w).ahead.length
      (u.shown (shows s i.tables) Candidate.ofTuple)
      (SpanWalker.attempt w ⟨.indexed i, s, false⟩) := by
  have hout : s.outside w.opposite x.1 = true := by
    rw [Span.outside, hwithin]
    cases w <;> cases hb : s.below x.1 <;> simp_all [Way.opposite]
  obtain ⟨i'', v, hedge, hcomes, hatEdge⟩ := Span.toEdge_at h.next h.forward.2 s w.opposite
  have hamong := among_of_edge hcomes hatEdge
  rw [h.tables, Track.outset_congr Track.toList_stepOn] at hamong
  rw [attempt_met h.move h.element, if_neg (Bool.eq_false_iff.1 hwithin),
    if_neg (Bool.eq_false_iff.1 hfar), bind_of_ok (onIndex_ok hedge)]
  exact .moved (Track.move_shown_end fun z hz =>
    shows_of_outside (Span.outside_ahead h.sorted h.ahead hout z hz)) hamong

end Met

theorem Moving.attempt {k : Nat} {c : SpanWalker} {v : Track Candidate} (h : Moving w s t k c v) :
    Tried (Test.accept p) w (Moving w s t) (Among s t) k v (SpanWalker.attempt w c) := by
  obtain ⟨i, u, rfl, hat, hd, rfl, rfl, rfl⟩ := h
  obtain ⟨i', hi', hat', htables, hdirection⟩ := hat.advance w
  cases hahead : (u.seen w).ahead with
  | nil =>
    have hhere : (u.stepOn w).here = none := by rw [Track.here_stepOn, hahead]; rfl
    rw [hhere] at hi'
    rw [attempt_ended hi']
    refine .moved (Track.move_shown_end (hahead ▸ nofun))
      ⟨i', _, rfl, hat', hdirection.trans hd, htables, by rw [hhere]; exact nofun, ?_, ?_⟩
    · rw [Track.stepOn_nil hahead]
    · rw [hhere]
      rfl
  | cons x xs =>
    have hhere : (u.stepOn w).here = some x := by rw [Track.here_stepOn, hahead]; rfl
    rw [hhere] at hi'
    have hmet : Met w i i' u x xs := ⟨hat, hahead, hi', hat', htables, hd, hdirection.trans hd⟩
    rw [← hahead]
    cases hwithin : s.within x.1 with
    | true => exact hmet.attempt_within hwithin
    | false =>
      cases hnear : s.below x.1 == (w = .forward) with
      | true => exact hmet.attempt_before (by rw [Span.outside, hwithin, hnear]; rfl)
      | false => exact hmet.attempt_behind hwithin hnear

section Loop

variable {c : SpanWalker} {v : Track Candidate} {e : Option (Element SearchKey)}

theorem Among.advance_eq (h : Among s t c v e) (w : Way) :
    (navigation p).advance w c = rounds (attempt w) (t.byKey.length + 1) c := by
  obtain ⟨i, u, rfl, hat, hd, rfl, -⟩ := h
  have hadvance : (navigation p).advance w ⟨.indexed i, s, false⟩ =
      rounds (attempt w) ((i.tables.tuples i.direction).length + 1) ⟨.indexed i, s, false⟩ := by
    cases w <;> rfl
  rw [hadvance, hd]
  rfl

theorem Among.moving (h : Among s t c v e) (w : Way) :
    ∃ k ≤ t.byKey.length, Moving w s t k c v := by
  obtain ⟨i, u, rfl, hat, hd, rfl, -, rfl, -⟩ := h
  refine ⟨_, ?_, i, u, rfl, hat, hd, rfl, rfl, rfl⟩
  have hlength := Track.length_ahead_le (w := w) u
  rwa [Track.length, hat.list, hd] at hlength

/-- **The loop of a movement ends,** after at most one attempt more than there are tuples. -/
theorem Among.settles (h : Among s t c v e) (w : Way) :
    ∃ j ≤ t.byKey.length + 1, Settles (attempt w) j c ((navigation p).advance w c) := by
  obtain ⟨k, hk, hmoving⟩ := h.moving w
  obtain ⟨j, r, hj, hsettles, -⟩ := settles_of_tried (fun h => Moving.attempt (p := p) h) hmoving
  rw [h.advance_eq, hsettles.rounds_eq (by omega)]
  exact ⟨j, by omega, hsettles⟩

end Loop

/-- A walker over a span of an index walks the tuples that are shown. -/
theorem walksAmong (s : Span) (t : Tables Value) :
    (navigation p).Walks (Test.accept p) (Among s t) where
  isOpen := by
    rintro _ _ _ ⟨i, u, rfl, _⟩
    rfl
  size := by
    rintro _ _ _ ⟨i, u, rfl, hat, hd, rfl, hhere, rfl, rfl⟩
    rw [Track.length, Track.toList_shown, List.length_map, hat.list]
    exact List.length_filter_le ..
  restart := by
    rintro _ _ _ w ⟨i, u, rfl, hat, hd, rfl, hhere, rfl, rfl⟩
    obtain ⟨i', v, hedge, hcomes, hatEdge⟩ := Span.toEdge_at hat hd s w
    have hrestart : (navigation p).restart w ⟨.indexed i, s, false⟩ =
        inside (⟨.indexed ·, s, false⟩) (s.toEdge w i) := by
      cases w <;> rfl
    refine ⟨_, by rw [hrestart, hedge]; rfl, ?_⟩
    rw [Track.outset_shown]
    exact among_of_edge hcomes hatEdge
  advance := by
    intro c v e w h
    obtain ⟨k, hk, hmoving⟩ := h.moving w
    rw [h.advance_eq]
    exact lands_rounds Moving.attempt hmoving (Nat.lt_succ_of_le hk)
  element := by
    rintro _ _ _ ⟨i, u, rfl, hat, hd, rfl, hhere, rfl, rfl⟩
    have helement : (navigation p).element ⟨.indexed i, s, false⟩ =
        inside (⟨.indexed ·, s, false⟩) ((do
          let e ← IndexWalker.element
          return ⟨some e.key, e.id, e.entry⟩ : EStateM Error (IndexWalker Value) _) i) := rfl
    rw [helement]
    show inside _ (EStateM.bind IndexWalker.element _ i) = _
    rw [EStateM.bind, hat.element]
    cases u.here <;> rfl
  available := by
    rintro _ _ _ ⟨i, u, rfl, hat, hd, rfl, hhere, rfl, rfl⟩
    show (!false && IndexWalker.navigation.available i) = _
    rw [hat.available, Option.isSome_map]
    rfl

theorem Stands.among {i : IndexWalker Value} (hat : i.At u) (hd : i.direction = .forward)
    (hhere : ∀ x ∈ u.here, shows s i.tables x = true) : Among s i.tables ⟨.indexed i, s, false⟩
      (u.shown (shows s i.tables) Candidate.ofTuple)
      (u.here.map fun x => ⟨some x.1, x.2, none⟩) :=
  ⟨i, u, rfl, hat, hd, rfl, hhere, rfl, rfl⟩

/-- **Walkers over a span walk their candidates.** -/
theorem walks : (navigation p).Walks (Test.accept p) Stands where
  isOpen h := by cases h <;> rfl
  size h := by
    cases h with
    | indexed hat hd hhere => exact (walksAmong _ _).size (Stands.among hat hd hhere)
    | fullScan h => exact (ScanWalker.walks p).size h
  restart w h := by
    cases h with
    | indexed hat hd hhere =>
      obtain ⟨c', hc', hamong⟩ := (walksAmong _ _).restart w (Stands.among hat hd hhere)
      exact ⟨c', hc', hamong.stands⟩
    | @fullScan k s u e h =>
      obtain ⟨k', hk', hstands⟩ := (ScanWalker.walks p).restart w h
      have hrestart : (navigation p).restart w ⟨.fullScan k, s, false⟩ =
          inside (⟨.fullScan ·, s, false⟩) ((ScanWalker.navigation p).restart w k) := by
        cases w <;> rfl
      exact ⟨_, by rw [hrestart, hk']; rfl, .fullScan hstands⟩
  advance w h := by
    cases h with
    | indexed hat hd hhere =>
      exact ((walksAmong _ _).advance w (Stands.among hat hd hhere)).mono Among.stands
    | @fullScan k s u e h =>
      have hadvance : (navigation p).advance w ⟨.fullScan k, s, false⟩ =
          inside (⟨.fullScan ·, s, false⟩) ((ScanWalker.navigation p).advance w k) := by
        cases w <;> rfl
      rw [hadvance]
      exact ((ScanWalker.walks p).advance w h).inside .fullScan
  element := fun {_ _ e} h => by
    cases h with
    | indexed hat hd hhere => exact (walksAmong _ _).element (Stands.among hat hd hhere)
    | @fullScan k s u e h =>
      have helement : (navigation p).element ⟨.fullScan k, s, false⟩ =
          inside (⟨.fullScan ·, s, false⟩) ((ScanWalker.navigation p).element k) := rfl
      rw [helement, (ScanWalker.walks p).element h]
      cases e <;> rfl
  available h := by
    cases h with
    | indexed hat hd hhere => exact (walksAmong _ _).available (Stands.among hat hd hhere)
    | @fullScan k s u e h => exact (ScanWalker.walks p).available h

end SpanWalker

end Directory
