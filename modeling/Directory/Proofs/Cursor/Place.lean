import Directory.Proofs.Cursor.Way

/-!
# Places and tracks

A place in an ordered list stands for a track: what lies behind it and what lies ahead.

* `Place.At`: the place stands for the track.
* `Place.At.neighbour`: **the first element that is met from the place is the first ahead in the
  track**; `Place.landed_at`: landing there is the step of the track.
* `Place.outset_at`, `Place.before_at`, `Place.after_at`: the ends and the gaps of a list.
-/

namespace Directory

namespace Place

variable {α β : Type} {cmp : α → α → Ordering} {key : β → α} {pl : Place α} {t : Track β} {w : Way}

/-- The place stands for the track. -/
inductive At (cmp : α → α → Ordering) (key : β → α) : Place α → Track β → Prop
  | beforeFirst {xs : List β} : At cmp key .beforeFirst ⟨[], none, xs⟩
  | afterLast {xs : List β} : At cmp key .afterLast ⟨xs, none, []⟩
  | on {x : β} {xs xs' : List β} : At cmp key (.on (key x)) ⟨xs, some x, xs'⟩
  | before {a : α} {xs xs' : List β} (h : ∀ x ∈ xs, cmp a (key x) = .gt)
      (h' : ∀ x ∈ xs', cmp a (key x) ≠ .gt) : At cmp key (.before a) ⟨xs, none, xs'⟩
  | after {a : α} {xs xs' : List β} (h : ∀ x ∈ xs, cmp a (key x) ≠ .lt)
      (h' : ∀ x ∈ xs', cmp a (key x) = .lt) : At cmp key (.after a) ⟨xs, none, xs'⟩

theorem At.of_before {a : α} (h : At cmp key (.before a) t) :
    t.here = none ∧ (∀ x ∈ t.behind, cmp a (key x) = .gt) ∧ ∀ x ∈ t.ahead, cmp a (key x) ≠ .gt := by
  cases h with
  | before h h' => exact ⟨rfl, h, h'⟩

theorem At.of_after {a : α} (h : At cmp key (.after a) t) :
    t.here = none ∧ (∀ x ∈ t.behind, cmp a (key x) ≠ .lt) ∧ ∀ x ∈ t.ahead, cmp a (key x) = .lt := by
  cases h with
  | after h h' => exact ⟨rfl, h, h'⟩

theorem At.before_parted [Std.OrientedCmp cmp] {a : α} (h : At cmp key (.before a) t) :
    t.Parted fun x => cmp (key x) a == .lt := by
  obtain ⟨hhere, hbehind, hahead⟩ := h.of_before
  refine ⟨hhere, fun x hx => ?_, fun x hx => ?_⟩
  · exact beq_iff_eq.2 (Std.OrientedCmp.lt_of_gt (hbehind x hx))
  · exact beq_eq_false_iff_ne.2 fun hlt => hahead x hx (Std.OrientedCmp.gt_of_lt hlt)

theorem At.after_parted [Std.OrientedCmp cmp] {a : α} (h : At cmp key (.after a) t) :
    t.Parted fun x => cmp (key x) a != .gt := by
  obtain ⟨hhere, hbehind, hahead⟩ := h.of_after
  refine ⟨hhere, fun x hx => ?_, fun x hx => ?_⟩
  · exact bne_iff_ne.2 fun hgt => hbehind x hx (Std.OrientedCmp.lt_of_gt hgt)
  · exact Bool.eq_false_iff.2 fun hne =>
      bne_iff_ne.1 hne (Std.OrientedCmp.gt_of_lt (hahead x hx))

theorem start_at (xs : List β) : At cmp key (start w) ((Track.start (w.list xs)).seen w) := by
  cases w with
  | forward => exact .beforeFirst
  | backward => exact .afterLast

theorem outset_at (t : Track β) : At cmp key (start w) (t.outset w) := Track.outset_eq ▸ start_at _

theorem At.isOn (h : pl.At cmp key t) : pl.isOn = t.here.isSome := by cases h <;> rfl

/-- Where a search for a neighbour leads stands for the track one step further. -/
theorem landed_at (t : Track β) :
    At cmp key (landed w key (t.seen w).ahead.head?) (t.stepOn w) := by
  rw [Track.stepOn, Track.step]
  cases (t.seen w).ahead with
  | nil =>
    cases w with
    | forward => exact .afterLast
    | backward => exact .beforeFirst
  | cons x xs =>
    cases w with
    | forward => exact .on
    | backward => exact .on

theorem neighbour?_beforeFirst (xs : List β) :
    beforeFirst.neighbour? w cmp key xs = if w = .forward then (w.list xs).head? else none := by
  rw [neighbour?]
  cases w with
  | forward => cases Way.forward.list xs <;> rfl
  | backward => exact List.find?_eq_none.2 fun _ _ => nofun

theorem neighbour?_afterLast (xs : List β) :
    afterLast.neighbour? w cmp key xs = if w = .backward then (w.list xs).head? else none := by
  rw [neighbour?]
  cases w with
  | forward => exact List.find?_eq_none.2 fun _ _ => nofun
  | backward => cases Way.backward.list xs <;> rfl

theorem meets_on {a b : α} : (on a).meets w cmp b = (w.order cmp a b == .lt) := by
  rw [Place.meets, Way.meets, Bool.false_and, Bool.or_false]

variable [Std.TransCmp cmp]

theorem meets_before {a b : α} :
    (before a).meets w cmp b = if w = .forward then cmp a b != .gt else cmp a b == .gt := by
  cases w with
  | forward =>
    rw [Place.meets, Way.meets_forward]
    cases cmp a b <;> rfl
  | backward =>
    rw [Place.meets, Way.meets_backward]
    cases cmp a b <;> rfl

theorem meets_after {a b : α} :
    (after a).meets w cmp b = if w = .backward then cmp a b != .lt else cmp a b == .lt := by
  cases w with
  | forward =>
    rw [Place.meets, Way.meets_forward]
    cases cmp a b <;> rfl
  | backward =>
    rw [Place.meets, Way.meets_backward]
    cases cmp a b <;> rfl

theorem At.meets (h : pl.At cmp key t)
    (hlist : t.toList.Pairwise fun x y => cmp (key x) (key y) = .lt) :
    (∀ x ∈ (t.seen w).ahead, pl.meets w cmp (key x) = true) ∧
      (∀ x ∈ (t.seen w).behind, pl.meets w cmp (key x) = false) ∧
      ∀ x ∈ t.here, pl.meets w cmp (key x) = false := by
  cases h with
  | beforeFirst => cases w <;> simp [Place.meets, Track.seen, Track.mirror]
  | afterLast => cases w <;> simp [Place.meets, Track.seen, Track.mirror]
  | @on x xs xs' =>
    obtain ⟨hbehind, hahead⟩ := @Track.around β w _ (fun y z => cmp (key y) (key z)) hlist x rfl
    have horder (y z : β) : w.order (fun y z => cmp (key y) (key z)) y z =
        w.order cmp (key y) (key z) := by cases w <;> rfl
    refine ⟨fun y hy => ?_, fun y hy => ?_, fun y hy => ?_⟩
    · rw [meets_on, ← horder, hahead y hy]
      rfl
    · have hgt := Std.OrientedCmp.gt_of_lt (horder .. ▸ hbehind y hy)
      rw [meets_on, hgt]
      rfl
    · cases hy
      rw [meets_on, Way.order_eq_iff.2 Std.ReflCmp.compare_self]
      rfl
  | before hbehind hahead =>
    cases w <;> simp_all [meets_before, Track.seen, Track.mirror]
  | after hbehind hahead =>
    cases w <;> simp_all [meets_after, Track.seen, Track.mirror]

/-- **The first element that is met from a place is the first ahead in the track.** -/
theorem At.neighbour (h : pl.At cmp key t)
    (hlist : t.toList.Pairwise fun x y => cmp (key x) (key y) = .lt) :
    pl.neighbour? w cmp key t.toList = (t.seen w).ahead.head? := by
  obtain ⟨hahead, hbehind, hhere⟩ := h.meets (w := w) hlist
  rw [neighbour?, ← Track.toList_seen, Track.toList, List.find?_append, Track.here_seen]
  have hpassed : ((t.seen w).behind.reverse ++ t.here.toList).find?
      (fun x => pl.meets w cmp (key x)) = none := by
    refine List.find?_eq_none.2 fun x hx => Bool.eq_false_iff.1 ?_
    rcases List.mem_append.1 hx with hx | hx
    · exact hbehind x (List.mem_reverse.1 hx)
    · exact hhere x (Option.mem_toList.1 hx)
  rw [hpassed, Option.none_or]
  cases hseen : (t.seen w).ahead with
  | nil => rfl
  | cons x xs => exact List.find?_cons_of_pos (hahead x (hseen ▸ .head _))

omit [Std.TransCmp cmp] in
/-- A split of an ordered list in front of the first element of a kind that includes all above. -/
theorem split_at {q : β → Bool} (t : Track β)
    (hlist : t.toList.Pairwise fun x y => cmp (key x) (key y) = .lt)
    (hq : ∀ x y, cmp (key x) (key y) = .lt → q x = true → q y = true) :
    (∀ x ∈ (t.seek q).behind, q x = false) ∧ ∀ x ∈ (t.seek q).ahead, q x = true := by
  show (∀ x ∈ (t.toList.takeWhile (!q ·)).reverse, q x = false) ∧
    ∀ x ∈ t.toList.dropWhile (!q ·), q x = true
  generalize t.toList = xs at hlist
  induction xs with
  | nil => exact ⟨nofun, nofun⟩
  | cons x xs ih =>
    obtain ⟨hx, hxs⟩ := List.pairwise_cons.1 hlist
    obtain ⟨hbehind, hahead⟩ := ih hxs
    cases hqx : q x with
    | true =>
      rw [List.takeWhile_cons_of_neg (by simp [hqx]), List.dropWhile_cons_of_neg (by simp [hqx])]
      refine ⟨nofun, fun y hy => ?_⟩
      rcases List.mem_cons.1 hy with rfl | hy
      · exact hqx
      · exact hq x y (hx y hy) hqx
    | false =>
      rw [List.takeWhile_cons_of_pos (by simp [hqx]), List.dropWhile_cons_of_pos (by simp [hqx])]
      refine ⟨fun y hy => ?_, hahead⟩
      rw [List.reverse_cons, List.mem_append, List.mem_singleton] at hy
      exact hy.elim (hbehind y) (· ▸ hqx)

/-- The gap in front of an element, which need not be there. -/
theorem before_at (t : Track β) (hlist : t.toList.Pairwise fun x y => cmp (key x) (key y) = .lt)
    (a : α) : At cmp key (.before a) (t.seek fun x => cmp a (key x) != .gt) := by
  obtain ⟨hbehind, hahead⟩ := split_at (q := fun x => cmp a (key x) != .gt) t hlist
    fun x y hxy hx => bne_iff_ne.2 fun hy => bne_iff_ne.1 hx <|
      Std.OrientedCmp.gt_of_lt (Std.TransCmp.lt_trans hxy (Std.OrientedCmp.lt_of_gt hy))
  exact .before (fun x hx => by simpa using hbehind x hx) fun x hx => bne_iff_ne.1 (hahead x hx)

/-- The gap behind an element, which need not be there. -/
theorem after_at (t : Track β) (hlist : t.toList.Pairwise fun x y => cmp (key x) (key y) = .lt)
    (a : α) : At cmp key (.after a) (t.seek fun x => cmp a (key x) == .lt) := by
  obtain ⟨hbehind, hahead⟩ := split_at (q := fun x => cmp a (key x) == .lt) t hlist
    fun x y hxy hx => beq_iff_eq.2 (Std.TransCmp.lt_trans (beq_iff_eq.1 hx) hxy)
  exact .after (fun x hx => beq_eq_false_iff_ne.1 (hbehind x hx)) fun x hx =>
    beq_iff_eq.1 (hahead x hx)

end Place

end Directory
