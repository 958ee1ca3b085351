import Directory.Proofs.Index.Seeking
import Directory.Proofs.Search.Span

/-!
# Walkers over a span of an index are positions in a list

The tuples that a walker shows are those under which their entries are found first. Whether it is
sought in the span or outside, walked either way or turned back at an edge, a caller cannot tell it
from a position in the list of these tuples.

* `Span.gap`: the gap that is sought in a list of tuples by key.
* `SpanWalker.reaches_sought`: a search leads to that gap; outside the span, to the edge.
* `SpanWalker.ofTables_seeks`: **whatever is asked of a walker over an index, the answers are those
  of a position in the list that its walk gives**, and the loop of a movement ends.
-/

namespace Directory

/-! ## Places that are sought -/

namespace Sought

variable {κ : Type}

def place : Sought κ → Seek
  | before _ => .before
  | after _ => .after
  | beforeValue .. => .beforeValue
  | afterValue .. => .afterValue

def id? : Sought κ → Option EntryId
  | before e | after e => some e.id
  | beforeValue id _ | afterValue id _ => id

def key : Sought κ → κ
  | before e | after e => e.key
  | beforeValue _ k | afterValue _ k => k

end Sought

/-- The tuple lies in front of the place in front of a tuple, or behind it. -/
def Seek.passes (pl : Seek) (x u : Value × EntryId) : Bool :=
  if pl.isBehind then comparePairs x u != .gt else comparePairs x u == .lt

namespace Span

variable {s : Span} {w : Way} {k l : Value} {i : IndexWalker Value} {u : Track (Value × EntryId)}

/-- The refusal of a search that names no key. -/
def needsKey (s : Span) (pl : Seek) : Error :=
  match s with
  | atLeast _ | atMost _ => .seekNeedsValue pl.name
  | pieces .. => .pieceSeekNeedsValue

/-- The gap of a list of tuples that is sought. Where no entry is named, the least one is meant in
front of a key, and the greatest one behind it. -/
def gap (s : Span) (xs : List (Value × EntryId)) (q : Sought SearchKey) : Except Error Nat :=
  match q.key with
  | some k => .ok (xs.countP fun x => q.place.passes x (k, q.id?.getD q.place.standIn))
  | none => .error (s.needsKey q.place)

theorem order_of_outside (hk : s.outside w k = true) (hl : s.within l = true) :
    w.order compare k l = .lt := by
  have hnot : s.outside w l = false := by
    rw [outside, hl]
    rfl
  cases hc : w.order compare l k with
  | lt =>
    rw [outside_of_earlier hk hc] at hnot
    cases hnot
  | eq =>
    rw [Std.LawfulEqCmp.eq_of_compare (Way.order_eq_iff.1 hc), hk] at hnot
    cases hnot
  | gt => exact Std.OrientedCmp.lt_of_gt hc

theorem passes_of_key {pl : Seek} {x : Value × EntryId} {id : EntryId} :
    (compare x.1 k = .lt → pl.passes x (k, id) = true) ∧
      (compare x.1 k = .gt → pl.passes x (k, id) = false) := by
  constructor <;> intro h <;> rw [Seek.passes, comparePairs, h] <;> cases pl.isBehind <;> rfl

theorem comes_sought (hat : i.At u) (hd : i.direction = .forward) (pl : Seek)
    (id : Option EntryId) (k : Value) : ∃ i' v, IndexWalker.navigation.seek pl id k i = .ok () i' ∧
      Comes i i' u v ∧ v.Parted (pl.passes · (k, id.getD pl.standIn)) := by
  have hfind (q : Sought Value)
      (hq : (Direction.forward.passes · q) = (pl.passes · (k, id.getD pl.standIn)))
      (hseek : IndexWalker.navigation.seek pl id k = IndexWalker.navigation.find q) :
      ∃ i' v, IndexWalker.navigation.seek pl id k i = .ok () i' ∧ Comes i i' u v ∧
        v.Parted (pl.passes · (k, id.getD pl.standIn)) := by
    obtain ⟨i', v, hi', htables, hdirection, hat', hlist, hparted⟩ := hat.find q
    rw [hd, hq] at hparted
    exact ⟨i', v, hseek ▸ hi', ⟨hat', hlist, htables, hdirection.trans hd⟩, hparted⟩
  cases pl with
  | before => exact hfind (.before ⟨k, id.getD .least, none⟩) rfl rfl
  | after => exact hfind (.after ⟨k, id.getD .greatest, none⟩) rfl rfl
  | beforeValue =>
    refine hfind (.beforeValue id k) ?_ rfl
    cases id with
    | some id => rfl
    | none => exact funext fun x => (Direction.compare_least x k).symm
  | afterValue =>
    refine hfind (.afterValue id k) ?_ rfl
    cases id with
    | some id => rfl
    | none => exact funext fun x => (Direction.compare_greatest x k).symm

/-- **A search** parts what it passes in the span from the rest. Outside, it leads to the edge that
is nearer. -/
theorem reaches_sought (hat : i.At u) (hd : i.direction = .forward) (s : Span) (pl : Seek)
    (id : Option EntryId) (k : Value) : ∃ i' v,
      (if s.below k then s.toEdge .forward
        else if s.within k then IndexWalker.navigation.seek pl id k
        else s.toEdge .backward) i = .ok () i' ∧ Comes i i' u v ∧ v.here = none ∧
      (∀ x ∈ v.behind, s.within x.1 = true → pl.passes x (k, id.getD pl.standIn) = true) ∧
      ∀ x ∈ v.ahead, s.within x.1 = true → pl.passes x (k, id.getD pl.standIn) = false := by
  have hout {w : Way} {l : Value} (h : s.outside w l = true) (h' : s.within l = true) : False := by
    rw [not_within_of_outside h] at h'
    cases h'
  by_cases hbelow : s.below k = true
  · rw [if_pos hbelow]
    obtain ⟨i', v, hedge, hcomes, hatEdge⟩ := toEdge_at hat hd s .forward
    refine ⟨i', v, hedge, hcomes, hatEdge.here, fun x hx h => (hout (hatEdge.behind x hx) h).elim,
      fun x _ h => passes_of_key.2 ?_⟩
    exact Std.OrientedCmp.gt_of_lt (order_of_outside (w := .forward) (outside_forward.trans hbelow) h)
  · rw [if_neg hbelow]
    by_cases hwithin : s.within k = true
    · rw [if_pos hwithin]
      obtain ⟨i', v, hseek, hcomes, hparted⟩ := comes_sought hat hd pl id k
      exact ⟨i', v, hseek, hcomes, hparted.here, fun x hx _ => hparted.behind x hx,
        fun x hx _ => hparted.ahead x hx⟩
    · rw [if_neg hwithin]
      obtain ⟨i', v, hedge, hcomes, hatEdge⟩ := toEdge_at hat hd s .backward
      refine ⟨i', v, hedge, hcomes, hatEdge.here, fun x _ h => passes_of_key.1 ?_,
        fun x hx h => (hout (hatEdge.behind x hx) h).elim⟩
      exact order_of_outside (w := .backward) (outside_backward.2
        ⟨Bool.eq_false_iff.2 hwithin, Bool.eq_false_iff.2 hbelow⟩) h

/-! ### Edges -/

theorem gap_below {xs : List (Value × EntryId)} (hxs : ∀ x ∈ xs, s.within x.1 = true)
    {q : Sought SearchKey} (hq : q.key = some k) (hk : s.below k = true) : s.gap xs q = .ok 0 := by
  rw [gap, hq]
  refine congrArg Except.ok (List.countP_eq_zero.2 fun x hx => Bool.eq_false_iff.1 ?_)
  exact passes_of_key.2 (Std.OrientedCmp.gt_of_lt
    (order_of_outside (w := .forward) (outside_forward.trans hk) (hxs x hx)))

theorem gap_above {xs : List (Value × EntryId)} (hxs : ∀ x ∈ xs, s.within x.1 = true)
    {q : Sought SearchKey} (hq : q.key = some k) (hwithin : s.within k = false)
    (hbelow : s.below k = false) : s.gap xs q = .ok xs.length := by
  rw [gap, hq]
  refine congrArg Except.ok (List.countP_eq_length.2 fun x hx => ?_)
  exact passes_of_key.1 (order_of_outside (w := .backward)
    (outside_backward.2 ⟨hwithin, hbelow⟩) (hxs x hx))

end Span

/-! ## Walkers -/

namespace SpanWalker

variable {p : Partition} {s : Span} {t : Tables Value}

/-- The tuples that a walker shows. -/
def tuples (s : Span) (t : Tables Value) : List (Value × EntryId) := t.byKey.filter (shows s t)

/-- A tuple as the element that a walker shows. -/
def elementOf (x : Value × EntryId) : Element SearchKey := ⟨some x.1, x.2, none⟩

/-- The walker stands for a place among the tuples that are shown. -/
def SeeksIn (s : Span) (t : Tables Value) (c : SpanWalker) (v : Track (Element SearchKey)) : Prop :=
  ∃ u : Track (Value × EntryId), u.toList = tuples s t ∧
    Among s t c (u.map Candidate.ofTuple) (u.here.map elementOf) ∧ v = u.map elementOf

theorem find_eq (q : Sought SearchKey) :
    (navigation p).find q = seek p q.place q.id? q.key := by
  cases q <;> rfl

theorem find_of_none {q : Sought SearchKey} {i : IndexWalker Value} (hq : q.key = none) :
    (navigation p).find q ⟨.indexed i, s, false⟩ =
      .error (s.needsKey q.place) ⟨.indexed i, s, false⟩ := by
  rw [find_eq, hq]
  cases s <;> rfl

theorem find_of_some {q : Sought SearchKey} {i : IndexWalker Value} {k : Value}
    (hq : q.key = some k) : (navigation p).find q ⟨.indexed i, s, false⟩ =
      inside (⟨.indexed ·, s, false⟩) ((if s.below k then s.toEdge .forward
        else if s.within k then IndexWalker.navigation.seek q.place q.id? k
        else s.toEdge .backward) i) := by
  rw [find_eq, hq]
  cases s <;> rfl

theorem Among.find {c : SpanWalker} {v : Track Candidate} {e : Option (Element SearchKey)}
    (h : Among s t c v e) {q : Sought SearchKey} {n : Nat} (hn : s.gap (tuples s t) q = .ok n) :
    ∃ (c' : SpanWalker) (u : Track (Value × EntryId)), (navigation p).find q c = .ok () c' ∧
      u.toList = tuples s t ∧ Among s t c' (u.map Candidate.ofTuple) none ∧ u.here = none ∧
      u.behind.length = n := by
  obtain ⟨i, u, rfl, hat, hd, rfl, -, -, -⟩ := h
  cases hq : q.key with
  | none =>
    rw [Span.gap, hq] at hn
    cases hn
  | some k =>
    rw [Span.gap, hq] at hn
    obtain ⟨i', v, hseek, hcomes, hhere, hbehind, hahead⟩ :=
      Span.reaches_sought hat hd s q.place q.id? k
    have hlist : (v.shown (shows s i.tables) id).toList = tuples s i.tables := by
      rw [Track.toList_shown, List.map_id, hcomes.list, hat.list, hd]
      rfl
    have hshown {x : Value × EntryId} {xs : List (Value × EntryId)}
        (hx : x ∈ (xs.filter (shows s i.tables)).map id) : x ∈ xs ∧ s.within x.1 = true := by
      rw [List.map_id, List.mem_filter] at hx
      exact ⟨hx.1, (Bool.and_eq_true_iff.1 hx.2).1⟩
    have hparted : (v.shown (shows s i.tables) id).Parted
        (q.place.passes · (k, q.id?.getD q.place.standIn)) := by
      refine ⟨?_, fun x hx => ?_, fun x hx => ?_⟩
      · rw [Track.shown, hhere]
        rfl
      · exact hbehind x (hshown hx).1 (hshown hx).2
      · exact hahead x (hshown hx).1 (hshown hx).2
    refine ⟨⟨.indexed i', s, false⟩, v.shown (shows s i.tables) id, ?_, hlist, ?_, hparted.here,
      ?_⟩
    · rw [find_of_some hq, hseek]
      rfl
    · refine ⟨i', v, rfl, hcomes.at_, hcomes.direction, hcomes.tables, fun x hx => ?_, ?_, ?_⟩
      · rw [hhere] at hx
        cases hx
      · rw [Track.map_shown]
        rfl
      · rw [hhere]
        rfl
    · rw [hparted.length_behind, hlist]
      exact Except.ok.inj hn

/-- **A walker over a span of an index is a position among the tuples that are shown.** -/
theorem seeks (p : Partition) (s : Span) (t : Tables Value) : (navigation p).Seeks
    ((tuples s t).map elementOf) (s.gap (tuples s t)) (SeeksIn s t) where
  list := by
    rintro c _ ⟨u, hlist, hamong, rfl⟩
    rw [Track.toList_map, hlist]
  restart := by
    rintro c _ w ⟨u, hlist, hamong, rfl⟩
    obtain ⟨c', hc', hamong'⟩ := (walksAmong s t).restart w hamong
    refine ⟨c', hc', u.outset w, Track.toList_outset.trans hlist, ?_, Track.outset_map _⟩
    rw [Track.here_outset, ← Track.outset_map]
    exact hamong'
  advance := by
    rintro c _ w ⟨u, hlist, hamong, rfl⟩
    have hlands := (walksAmong (p := p) s t).advance w hamong
    have hmove : (u.map Candidate.ofTuple).move w (Test.accept p) =
        (.ok ((u.stepOn w).here.map elementOf), (u.stepOn w).map Candidate.ofTuple) :=
      Track.move_kept fun _ => rfl
    rw [hmove] at hlands
    obtain ⟨c', hc', hamong'⟩ := hlands.of_ok
    refine ⟨c', ?_, u.stepOn w, Track.toList_stepOn.trans hlist, hamong', Track.stepOn_map _⟩
    rw [hc', Track.stepOn_map]
    rfl
  find := by
    rintro c _ q ⟨u, hlist, hamong, rfl⟩
    cases hgap : s.gap (tuples s t) q with
    | ok n =>
      obtain ⟨c', v, hc', hlist', hamong', hhere, hlength⟩ := hamong.find (p := p) hgap
      refine ⟨c', v.map elementOf, hc', ⟨v, hlist', ?_, rfl⟩, ?_, ?_⟩
      · rw [hhere]
        exact hamong'
      · rw [Track.map, hhere]
        rfl
      · rw [Track.map, List.length_map, hlength]
    | error e =>
      obtain ⟨i, _, rfl, -⟩ := hamong
      cases hq : q.key with
      | none =>
        rw [Span.gap, hq] at hgap
        cases hgap
        exact find_of_none hq
      | some k =>
        rw [Span.gap, hq] at hgap
        cases hgap
  element := by
    rintro c _ ⟨u, hlist, hamong, rfl⟩
    exact (walksAmong s t).element hamong
  available := by
    rintro c _ ⟨u, hlist, hamong, rfl⟩
    exact (walksAmong s t).available hamong

theorem pairwise_tuples (s : Span) (t : Tables Value) :
    (tuples s t).Pairwise fun x y => comparePairs x y = .lt :=
  (Tables.pairwise_tuples t .forward).filter _

theorem mem_tuples {x : Value × EntryId} : x ∈ tuples s t ↔
    x ∈ t.byKey ∧ s.within x.1 = true ∧ s.first? (t.keysOf x.2).toList = some x.1 := by
  rw [tuples, List.mem_filter, shows, Bool.and_eq_true, beq_iff_eq]

theorem nodup_ids (s : Span) (t : Tables Value) : ((tuples s t).map Prod.snd).Nodup := by
  refine List.pairwise_map.2 ((pairwise_tuples s t).imp_of_mem fun {x y} hx hy hxy hid => ?_)
  have hkeys : x.1 = y.1 := Option.some.inj <| (mem_tuples.1 hx).2.2.symm.trans <|
    (congrArg (fun id => s.first? (t.keysOf id).toList) hid).trans (mem_tuples.1 hy).2.2
  have heq : x = y := Prod.ext hkeys hid
  subst heq
  have hself : comparePairs x x = .eq := Std.ReflCmp.compare_self
  cases hself.symm.trans hxy

theorem walk_ofTables (p : Partition) (t : Tables Value) (s : Span) :
    ∃ c, (navigation p).walk (ofTables t s) = .ok ((tuples s t).map elementOf) c := by
  have hkeeps (xs : List (Value × EntryId)) :
      Keeps (Test.accept p) (xs.map Candidate.ofTuple) (xs.map elementOf) := by
    induction xs with
    | nil => exact .nil
    | cons x xs ih => exact .keep rfl ih
  have hposition : AtPosition (Test.accept p) (Among s t) ((tuples s t).map elementOf) 0
      (ofTables t s) := ⟨_, _, among_fresh t s, .front (hkeeps _)⟩
  have hlength := (walksAmong s t).length_le hposition
  exact (walksAmong s t).elements_next hposition (by omega)

/-- **Walkers over a span of an index are positions in a list.** -/
theorem ofTables_seeks (p : Partition) (t : Tables Value) (s : Span) :
    ∃ L : List (Value × EntryId),
      (∃ c, (navigation p).walk (ofTables t s) = .ok (L.map elementOf) c) ∧
      (L.Pairwise fun x y => comparePairs x y = .lt) ∧ (L.map Prod.snd).Nodup ∧
      (∀ x, x ∈ L ↔ x ∈ t.byKey ∧ s.within x.1 = true ∧
        s.first? (t.keysOf x.2).toList = some x.1) ∧
      (∀ cs, (navigation p).answers cs (ofTables t s) =
        answersOver (L.map elementOf) (s.gap L) (.gap 0) cs) ∧
      (∀ q k, q.key = some k → s.below k = true → s.gap L q = .ok 0) ∧
      (∀ q k, q.key = some k → s.within k = false → s.below k = false →
        s.gap L q = .ok L.length) ∧
      ∀ cs w, ∃ j ≤ t.byKey.length + 1, Settles (attempt w) j
        ((navigation p).stateAfterAll cs (ofTables t s))
        ((navigation p).advance w ((navigation p).stateAfterAll cs (ofTables t s))) := by
  have hfresh : SeeksIn s t (ofTables t s) ((Track.start (tuples s t)).map elementOf) :=
    ⟨.start (tuples s t), Track.toList_start _, among_fresh t s, rfl⟩
  have hwithin : ∀ x ∈ tuples s t, s.within x.1 = true := fun x hx => (mem_tuples.1 hx).2.1
  refine ⟨tuples s t, walk_ofTables p t s, pairwise_tuples s t, nodup_ids s t,
    fun x => mem_tuples, (seeks p s t).answers_eq hfresh, fun q k => Span.gap_below hwithin,
    fun q k => Span.gap_above hwithin, fun cs w => ?_⟩
  obtain ⟨_, _, _, hamong, _⟩ := (seeks p s t).stateAfterAll hfresh cs
  exact hamong.settles w

end SpanWalker

end Directory
