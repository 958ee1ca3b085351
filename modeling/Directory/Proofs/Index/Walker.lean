import Directory.Index.Walker
import Directory.Proofs.Cursor.Place
import Directory.Proofs.Steps

/-!
# Walkers over an index walk its tuples

* `pairs`: the tuples of a table in order; `pairwise_pairs`: they increase.
* `edgeTuple_eq`, `seekTuple_eq`: **the searches in a table are searches in the list of its
  tuples**.
* `IndexWalker.neighbour?_eq`: the neighbour of a place among the tuples in their order.
* `IndexWalker.At`: the place stands for a track of the tuples; `IndexWalker.At.advance`,
  `IndexWalker.At.element`: what the operations do there.
-/

namespace Directory

/-! ## Tables as lists of tuples -/

section Tuples

variable {α β : Type}

theorem Way.list_flatMap {w : Way} (f : α → List β) (xs : List α) :
    w.list (xs.flatMap f) = (w.list xs).flatMap fun x => w.list (f x) := by
  cases w with
  | forward => rfl
  | backward => exact List.reverse_flatMap

variable [Ord α] [Ord β]

/-- The tuples of bindings, in order. -/
def pairs (bs : List (α × SortedSet β)) : List (α × β) :=
  bs.flatMap fun b => b.2.toList.map (b.1, ·)

/-- The order of pairs by their first members, then by their second ones. -/
def comparePairs (x y : α × β) : Ordering := (compare x.1 y.1).then (compare x.2 y.2)

instance [Std.TransOrd α] [Std.TransOrd β] : Std.TransCmp (@comparePairs α β _ _) :=
  inferInstanceAs (Std.TransCmp (compareLex (compareOn Prod.fst) (compareOn Prod.snd)))

theorem mem_keys_of_mem_pairs {m : SortedMap α (SortedSet β)} {x : α × β}
    (h : x ∈ pairs m.toList) : x.1 ∈ m.keys := by
  obtain ⟨b, hb, hx⟩ := List.mem_flatMap.1 h
  obtain ⟨_, _, rfl⟩ := List.mem_map.1 hx
  exact List.mem_map_of_mem hb

theorem pairwise_pairs [Std.TransOrd α] (m : SortedMap α (SortedSet β)) :
    (pairs m.toList).Pairwise fun x y => comparePairs x y = .lt := by
  refine List.pairwise_flatMap.2 ⟨fun b _ => ?_, ?_⟩
  · refine List.pairwise_map.2 (b.2.increasing.imp fun {x y} h => ?_)
    rw [comparePairs, Sorted.compare_self]
    exact h
  · refine m.increasing.imp fun {b c} h x hx y hy => ?_
    obtain ⟨_, _, rfl⟩ := List.mem_map.1 hx
    obtain ⟨_, _, rfl⟩ := List.mem_map.1 hy
    rw [comparePairs, h]
    rfl

variable {w : Way}

omit [Ord α] in
theorem list_pairs (bs : List (α × SortedSet β)) :
    w.list (pairs bs) = (w.list bs).flatMap fun b => (w.list b.2.toList).map (b.1, ·) := by
  rw [pairs, Way.list_flatMap]
  exact congrArg (List.flatMap · _) (funext fun b => Way.list_map ..)

omit [Ord α] in
/-- The first tuple that is met. -/
theorem edgeTuple_eq (bs : List (α × SortedSet β)) :
    edgeTuple w (w.list bs) = (w.list (pairs bs)).head? := by
  rw [list_pairs, List.head?_flatMap, edgeTuple]
  simp only [List.head?_map]

omit [Ord α] [Ord β] in
theorem findSome?_of_filter {F G : α → Option β} {q : α → Bool} {xs : List α}
    (h : ∀ x ∈ xs, F x = if q x then G x else none) :
    xs.findSome? F = (xs.filter q).findSome? G := by
  induction xs with
  | nil => rfl
  | cons x xs ih =>
    rw [List.findSome?_cons, h x (.head _), ih fun y hy => h y (.tail _ hy)]
    cases hx : q x with
    | true => rw [List.filter_cons_of_pos hx, List.findSome?_cons, if_pos rfl]
    | false => rw [List.filter_cons_of_neg (by simp [hx]), if_neg nofun]

variable [Std.TransOrd α] [Std.LawfulEqOrd α] {included : Bool}

omit [Std.LawfulEqOrd α] in
/-- In the list of the bindings, those of smaller keys and those of greater keys lie on either side
of a binding. -/
theorem exists_sides {m : SortedMap α (SortedSet β)} {a : α} {s : SortedSet β}
    (h : (a, s) ∈ m.toList) (w : Way) : ∃ before after, w.list m.toList = before ++ (a, s) :: after ∧
      (∀ x ∈ before, w.order compare a x.1 = .gt) ∧ ∀ x ∈ after, w.order compare a x.1 = .lt := by
  obtain ⟨xs, ys, hlist⟩ := List.append_of_mem h
  have hsorted := m.increasing
  rw [hlist, Sorted.Increasing, List.pairwise_append, List.pairwise_cons] at hsorted
  obtain ⟨_, ⟨hys, _⟩, hxs⟩ := hsorted
  have hxs : ∀ x ∈ xs, compare x.1 a = .lt := fun x hx => hxs x hx (a, s) (.head _)
  rw [hlist]
  cases w with
  | forward =>
    have hgt (x) (hx : x ∈ xs) : compare a x.1 = .gt := Std.OrientedCmp.gt_of_lt (hxs x hx)
    exact ⟨xs, ys, rfl, hgt, hys⟩
  | backward =>
    have hgt (x) (hx : x ∈ ys) : compare x.1 a = .gt := Std.OrientedCmp.gt_of_lt (hys x hx)
    exact ⟨ys.reverse, xs.reverse, by simp [Way.list], fun x hx => hgt x (List.mem_reverse.1 hx),
      fun x hx => hxs x (List.mem_reverse.1 hx)⟩

omit [Std.LawfulEqOrd α] in
theorem order_comparePairs {a : α} {b : β} {x : α × β} (h : compare a x.1 ≠ .eq) :
    w.order comparePairs (a, b) x = w.order compare a x.1 := by
  have h' : compare x.1 a ≠ .eq := fun h' => h (Std.OrientedCmp.eq_symm h')
  cases w with
  | forward =>
    show (compare a x.1).then _ = compare a x.1
    cases h : compare a x.1 <;> first | rfl | contradiction
  | backward =>
    show (compare x.1 a).then _ = compare x.1 a
    cases h : compare x.1 a <;> first | rfl | contradiction

omit [Std.LawfulEqOrd α] in
theorem meets_of_key [Std.TransOrd β] {a : α} {b : β} {x : α × β} (h : compare a x.1 ≠ .eq) :
    w.meets included comparePairs (a, b) x = (w.order compare a x.1 == .lt) := by
  have hpairs : w.order comparePairs (a, b) x = w.order compare a x.1 := order_comparePairs h
  have hne : comparePairs (a, b) x ≠ .eq := fun he =>
    h (Way.order_eq_iff.1 (hpairs ▸ Way.order_eq_iff.2 he))
  rw [Way.meets, hpairs, beq_eq_false_iff_ne.2 hne, Bool.and_false, Bool.or_false]

/-- The first tuple of a binding that is met from a tuple. -/
def metUnder (w : Way) (included : Bool) (a : α) (b : β) (x : α × SortedSet β) : Option (α × β) :=
  ((w.list x.2.toList).map (x.1, ·)).find? (w.meets included comparePairs (a, b))

omit [Std.LawfulEqOrd α] in
theorem metUnder_of_key [Std.TransOrd β] {a : α} {b : β} {x : α × SortedSet β}
    (h : compare a x.1 ≠ .eq) : metUnder w included a b x =
      if w.order compare a x.1 == .lt then (w.list x.2.toList).head?.map (x.1, ·) else none := by
  have hmeets : w.meets included comparePairs (a, b) ∘ (x.1, ·) =
      fun _ => w.order compare a x.1 == .lt := funext fun y => meets_of_key h
  rw [metUnder, List.find?_map, hmeets]
  cases w.order compare a x.1 == .lt with
  | true => cases w.list x.2.toList <;> rfl
  | false =>
    have hnone : (w.list x.2.toList).find? (fun _ => false) = none :=
      List.find?_eq_none.2 fun _ _ => Bool.false_ne_true
    rw [hnone]
    rfl

omit [Std.LawfulEqOrd α] in
theorem metUnder_self (a : α) (b : β) (s : SortedSet β) : metUnder w included a b (a, s) =
    ((w.list s.toList).find? (w.meets included compare b)).map (a, ·) := by
  have hcompare (y y' : β) : comparePairs (a, y) (a, y') = compare y y' := by
    rw [comparePairs, Sorted.compare_self]
    rfl
  have hmeets : w.meets included comparePairs (a, b) ∘ (a, ·) = w.meets included compare b := by
    funext y
    cases w <;> simp [Way.meets, Way.order, hcompare]
  rw [metUnder, List.find?_map, hmeets]

omit [Std.LawfulEqOrd α] in
/-- Among bindings of other keys, the first tuple met is that of the first key met. -/
theorem findSome?_metUnder [Std.TransOrd β] {a : α} {b : β} {bs : List (α × SortedSet β)}
    (h : ∀ x ∈ bs, compare a x.1 ≠ .eq) : bs.findSome? (metUnder w included a b) =
      edgeTuple w (bs.filter fun x => w.order compare a x.1 == .lt) :=
  findSome?_of_filter fun x hx => metUnder_of_key (h x hx)

/-- **A search in a table.** It finds the first of its tuples that is met. -/
theorem seekTuple_eq [Std.TransOrd β] (m : SortedMap α (SortedSet β)) (a : α) (b : β) :
    seekTuple w included m a b =
      (w.list (pairs m.toList)).find? (w.meets included comparePairs (a, b)) := by
  rw [list_pairs, List.find?_flatMap, seekTuple]
  show _ = (w.list m.toList).findSome? (metUnder w included a b)
  cases hget : m.get? a with
  | none =>
    refine (findSome?_metUnder fun x hx h => ?_).symm
    have hx : m.get? a = some x.2 := SortedMap.get?_eq_some_iff.2 (by
      rw [Std.LawfulEqCmp.eq_of_compare h]
      exact Way.mem_list.1 hx)
    exact Option.some_ne_none _ (hx.symm.trans hget)
  | some s =>
    obtain ⟨before, after, hlist, hbefore, hafter⟩ :=
      exists_sides (SortedMap.get?_eq_some_iff.1 hget) w
    have hne {x : α × SortedSet β} {o : Ordering} (h : w.order compare a x.1 = o) (ho : o ≠ .eq) :
        compare a x.1 ≠ .eq := fun he => ho (h.symm.trans (Way.order_eq_iff.2 he))
    -- Before the key nothing is met, behind it everything.
    have hskipped : before.filter (w.order compare a ·.1 == .lt) = [] :=
      List.filter_eq_nil_iff.2 fun x hx => by rw [hbefore x hx]; exact nofun
    have hmet : after.filter (w.order compare a ·.1 == .lt) = after :=
      List.filter_eq_self.2 fun x hx => beq_iff_eq.2 (hafter x hx)
    have hself : (w.order compare a a == .lt) = false := by
      rw [Way.order_eq_iff.2 (Sorted.compare_self a)]
      rfl
    rw [hlist, List.filter_append, List.filter_cons_of_neg (by rw [hself]; exact nofun), hskipped,
      hmet, List.nil_append, List.findSome?_append,
      findSome?_metUnder fun x hx => hne (hbefore x hx) nofun, hskipped, List.findSome?_cons,
      findSome?_metUnder fun x hx => hne (hafter x hx) nofun, hmet, metUnder_self, Option.bind_some]
    cases (w.list s.toList).find? (w.meets included compare b) <;> rfl

end Tuples

/-! ## Tuples of an index -/

namespace EntryId

theorem compare_least (id : EntryId) : compare least id ≠ .gt := fun h =>
  Nat.not_lt_zero _ (UInt64.lt_iff_toNat_lt.1 (Std.compare_eq_gt.1 h))

theorem compare_greatest (id : EntryId) : compare greatest id ≠ .lt := fun h => by
  have hlt := UInt64.lt_iff_toNat_lt.1 (Std.compare_eq_lt.1 h)
  have hid := id.toNat_lt
  have hgreatest : greatest.toNat = 2 ^ 64 - 1 := rfl
  omega

end EntryId

section Tables

variable {κ : Type} [Ord κ] {t : Tables κ} {d : Direction} {w : Way} {included : Bool}

theorem comparePairs_least [Std.OrientedOrd κ] {k : κ} {x : κ × EntryId} :
    comparePairs (k, EntryId.least) x = .gt ↔ compare x.1 k = .lt := by
  have hle := EntryId.compare_least x.2
  show (compare k x.1).then _ = .gt ↔ _
  have hswap : compare x.1 k = (compare k x.1).swap := Std.OrientedCmp.eq_swap
  rw [hswap]
  cases compare k x.1 <;> simp_all

theorem comparePairs_greatest {k : κ} {x : κ × EntryId} :
    comparePairs (k, EntryId.greatest) x = .lt ↔ compare k x.1 = .lt := by
  have hle := EntryId.compare_greatest x.2
  show (compare k x.1).then _ = .lt ↔ _
  cases compare k x.1 <;> simp_all

theorem Tables.tuples_reverse : t.tuples .reverse = (pairs t.reverse.toList).map Prod.swap := by
  simp only [tuples, byId, pairs, List.map_flatMap, List.map_map]
  rfl

variable [Std.TransOrd κ]

instance : Std.TransCmp (@Direction.compare κ _ d) :=
  match d with
  | .forward => inferInstanceAs (Std.TransCmp comparePairs)
  | .reverse => inferInstanceAs
      (Std.TransCmp (compareLex (compareOn Prod.snd) (compareOn (Prod.fst : κ × EntryId → κ))))

theorem Tables.pairwise_tuples (t : Tables κ) (d : Direction) :
    (t.tuples d).Pairwise fun x y => d.compare x y = .lt := by
  cases d with
  | forward => exact pairwise_pairs t.forward
  | reverse =>
    rw [tuples_reverse]
    exact List.pairwise_map.2 (pairwise_pairs t.reverse)

omit [Std.TransOrd κ] in
theorem Tables.edge?_eq : t.edge? d w = (w.list (t.tuples d)).head? := by
  cases d with
  | forward => exact edgeTuple_eq _
  | reverse => rw [edge?, edgeTuple_eq, tuples_reverse, Way.list_map, List.head?_map]

variable [Std.LawfulEqOrd κ]

theorem Tables.seek?_eq {u : κ × EntryId} :
    t.seek? d w included u = (w.list (t.tuples d)).find? (w.meets included d.compare u) := by
  cases d with
  | forward => exact seekTuple_eq ..
  | reverse =>
    rw [seek?, seekTuple_eq, tuples_reverse, Way.list_map, List.find?_map]
    rfl

end Tables

/-! ## Walkers -/

namespace IndexWalker

variable {κ : Type} [Ord κ] {c : IndexWalker κ} {t : Track (κ × EntryId)} {w : Way}

/-- The walker is open, and its place stands for the track of the tuples. -/
structure At (c : IndexWalker κ) (t : Track (κ × EntryId)) : Prop where
  isOpen : c.closed = false
  list : t.toList = c.tables.tuples c.direction
  place : c.place.At c.direction.compare id t

theorem At.element (h : c.At t) : IndexWalker.element c =
    t.here.elim (.error (.notPositioned "get()") c) fun u => .ok ⟨u.1, u.2, none⟩ c := by
  obtain ⟨tables, direction, place, closed⟩ := c
  obtain rfl : closed = false := h.isOpen
  cases h.place <;> rfl

theorem At.available (h : c.At t) : navigation.available c = t.here.isSome := by
  show (!c.closed && c.place.isOn) = _
  rw [h.isOpen, h.place.isOn]
  rfl

theorem At.goTo (h : c.At t) {pl : Place (κ × EntryId)} {u : Track (κ × EntryId)}
    (hu : u.toList = t.toList) (hpl : pl.At c.direction.compare id u) :
    ({ c with place := pl } : IndexWalker κ).At u :=
  ⟨h.isOpen, hu.trans h.list, hpl⟩

variable [Std.TransOrd κ] [Std.LawfulEqOrd κ]

/-- **The neighbour of a place** is the one among the tuples in their order. -/
theorem neighbour?_eq : c.neighbour? w =
    c.place.neighbour? w c.direction.compare id (c.tables.tuples c.direction) := by
  obtain ⟨tables, direction, place, closed⟩ := c
  cases place with
  | beforeFirst => rw [Place.neighbour?_beforeFirst, neighbour?, Tables.edge?_eq]
  | afterLast => rw [Place.neighbour?_afterLast, neighbour?, Tables.edge?_eq]
  | on u => exact Tables.seek?_eq
  | before u => exact Tables.seek?_eq
  | after u => exact Tables.seek?_eq

theorem At.advance (h : c.At t) (w : Way) :
    ∃ c', IndexWalker.advance w c = .ok (t.stepOn w).here.isSome c' ∧ c'.At (t.stepOn w) ∧
      c'.tables = c.tables ∧ c'.direction = c.direction := by
  have hsorted := Tables.pairwise_tuples c.tables c.direction
  have hnext := h.place.neighbour (w := w) (h.list ▸ hsorted)
  rw [h.list, ← neighbour?_eq, ← Track.here_stepOn] at hnext
  have hadvance : IndexWalker.advance w c =
      .ok (c.neighbour? w).isSome { c with place := .landed w id (c.neighbour? w) } := by
    obtain ⟨tables, direction, place, closed⟩ := c
    obtain rfl : closed = false := h.isOpen
    rfl
  rw [hnext] at hadvance
  exact ⟨_, hadvance, h.goTo Track.toList_stepOn (Track.here_stepOn ▸ Place.landed_at t), rfl, rfl⟩

end IndexWalker

end Directory
