import Directory.Proofs.Cursor.Spot
import Directory.Proofs.Index.Position
import Directory.Proofs.Index.Tuples

/-!
# Walkers over an index are positions among its tuples

A walker looks its neighbours up in two-level tables, from places that need not be tuples. A caller
cannot tell it from a position in the sorted list of all tuples.

* `Direction.passes`, `Direction.gap`: the gap that is sought in a list of tuples.
* `IndexWalker.At.find`: a search leads to that gap.
* `Index.walker_seeks`: **whatever is asked of a walker, the answers are those of a position among
  the tuples**.
-/

namespace Directory

variable {κ : Type} [Ord κ]

/-- A tuple as an element. -/
def Element.ofTuple (x : κ × EntryId) : Element κ := ⟨x.1, x.2, none⟩

namespace Direction

/-- The tuple lies in front of the gap that is sought. Where no entry is named, the gap is in front
of the tuples of the key, or behind them; if entries lead, it is an end of the list. -/
def passes (d : Direction) (x : κ × EntryId) : Sought κ → Bool
  | .before e => d.compare x (e.key, e.id) == .lt
  | .after e => d.compare x (e.key, e.id) != .gt
  | .beforeValue (some id) k => d.compare x (k, id) == .lt
  | .afterValue (some id) k => d.compare x (k, id) != .gt
  | .beforeValue none k =>
    match d with
    | .forward => Ord.compare x.1 k == .lt
    | .reverse => false
  | .afterValue none k =>
    match d with
    | .forward => Ord.compare x.1 k != .gt
    | .reverse => true

/-- The gap of a list of tuples that is sought. -/
def gap (d : Direction) (xs : List (κ × EntryId)) (q : Sought κ) : Nat :=
  xs.countP fun x => d.passes x q

/-- The place that a walker goes to. -/
def place (d : Direction) : Sought κ → Place (κ × EntryId)
  | .before e => .before (e.key, e.id)
  | .after e => .after (e.key, e.id)
  | .beforeValue (some id) k => .before (k, id)
  | .afterValue (some id) k => .after (k, id)
  | .beforeValue none k =>
    match d with
    | .forward => .before (k, .least)
    | .reverse => .beforeFirst
  | .afterValue none k =>
    match d with
    | .forward => .after (k, .greatest)
    | .reverse => .afterLast

variable [Std.TransOrd κ] {d : Direction} {u : Track (κ × EntryId)}

theorem compare_least (x : κ × EntryId) (k : κ) :
    (forward.compare x (k, .least) == .lt) = (Ord.compare x.1 k == .lt) := by
  rw [Bool.eq_iff_iff, beq_iff_eq, beq_iff_eq, ← comparePairs_least]
  exact ⟨Std.OrientedCmp.gt_of_lt, Std.OrientedCmp.lt_of_gt⟩

theorem compare_greatest (x : κ × EntryId) (k : κ) :
    (forward.compare x (k, .greatest) != .gt) = (Ord.compare x.1 k != .gt) := by
  rw [Bool.eq_iff_iff, bne_iff_ne, bne_iff_ne, not_iff_not, Std.OrientedCmp.gt_iff_lt,
    Std.OrientedCmp.gt_iff_lt, ← comparePairs_greatest]
  rfl

theorem place_at (hsorted : u.toList.Pairwise fun x y => d.compare x y = .lt) (q : Sought κ) :
    ∃ v, (d.place q).At d.compare id v ∧ v.toList = u.toList ∧ v.Parted (d.passes · q) := by
  have hbefore (a : κ × EntryId) : ∃ v : Track (κ × EntryId), Place.At d.compare id (.before a) v ∧
      v.toList = u.toList ∧ v.Parted fun x => d.compare x a == .lt := by
    have hat : Place.At d.compare id (.before a) _ := Place.before_at u hsorted a
    exact ⟨_, hat, Track.toList_seek _ u, hat.before_parted⟩
  have hafter (a : κ × EntryId) : ∃ v : Track (κ × EntryId), Place.At d.compare id (.after a) v ∧
      v.toList = u.toList ∧ v.Parted fun x => d.compare x a != .gt := by
    have hat : Place.At d.compare id (.after a) _ := Place.after_at u hsorted a
    exact ⟨_, hat, Track.toList_seek _ u, hat.after_parted⟩
  cases q with
  | before e => exact hbefore _
  | after e => exact hafter _
  | beforeValue i k =>
    cases i with
    | some i => exact hbefore (k, i)
    | none =>
      cases d with
      | forward =>
        obtain ⟨v, hat, hlist, hparted⟩ := hbefore (k, .least)
        simp only [compare_least] at hparted
        exact ⟨v, hat, hlist, hparted⟩
      | reverse => exact ⟨_, .beforeFirst, Track.toList_start _, rfl, nofun, fun _ _ => rfl⟩
  | afterValue i k =>
    cases i with
    | some i => exact hafter (k, i)
    | none =>
      cases d with
      | forward =>
        obtain ⟨v, hat, hlist, hparted⟩ := hafter (k, .greatest)
        simp only [compare_greatest] at hparted
        exact ⟨v, hat, hlist, hparted⟩
      | reverse => exact ⟨_, .afterLast, Track.toList_wind u, rfl, fun _ _ => rfl, nofun⟩

end Direction

namespace IndexWalker

variable {c : IndexWalker κ} {d : Direction} {u : Track (κ × EntryId)}

theorem find_eq (h : c.closed = false) (q : Sought κ) :
    navigation.find q c = .ok () { c with place := c.direction.place q } := by
  obtain ⟨tables, direction, place, closed⟩ := c
  obtain rfl : closed = false := h
  cases q with
  | before e => rfl
  | after e => rfl
  | beforeValue i k => cases i <;> cases direction <;> rfl
  | afterValue i k => cases i <;> cases direction <;> rfl

variable [Std.TransOrd κ] [Std.LawfulEqOrd κ]

omit [Std.LawfulEqOrd κ] in
/-- A search leads to the gap that is sought. -/
theorem At.find (h : c.At u) (q : Sought κ) : ∃ c' v, navigation.find q c = .ok () c' ∧
    c'.tables = c.tables ∧ c'.direction = c.direction ∧ c'.At v ∧ v.toList = u.toList ∧
    v.Parted (c.direction.passes · q) := by
  have hsorted := h.list ▸ Tables.pairwise_tuples c.tables c.direction
  obtain ⟨v, hplace, hlist, hparted⟩ := Direction.place_at hsorted q
  exact ⟨_, v, find_eq h.isOpen q, rfl, rfl, h.goTo hlist hplace, hlist, hparted⟩

/-- The walker is open, on these tables and in this order, and stands for the place among its
tuples. -/
def SeeksIn (t : Tables κ) (d : Direction) (c : IndexWalker κ) (v : Track (Element κ)) : Prop :=
  ∃ u, c.At u ∧ c.tables = t ∧ c.direction = d ∧ v = u.map Element.ofTuple

/-- **Walkers over an index are positions among its tuples.** -/
theorem seeks (t : Tables κ) (d : Direction) : navigation.Seeks
    ((t.tuples d).map Element.ofTuple) (fun q => .ok (d.gap (t.tuples d) q)) (SeeksIn t d) where
  list := by
    rintro c _ ⟨u, hat, rfl, rfl, rfl⟩
    rw [Track.toList_map, hat.list]
  restart := by
    rintro c _ w ⟨u, hat, rfl, rfl, rfl⟩
    obtain ⟨c', hc', hat', htables, hdirection⟩ := hat.restart w
    exact ⟨c', hc', u.outset w, hat', htables, hdirection, Track.outset_map _⟩
  advance := by
    rintro c _ w ⟨u, hat, rfl, rfl, rfl⟩
    obtain ⟨c', hc', hat', htables, hdirection⟩ := hat.advance w
    refine ⟨c', ?_, u.stepOn w, hat', htables, hdirection, Track.stepOn_map _⟩
    rw [advance_eq, hc', Track.stepOn_map, Track.map, Option.isSome_map]
  find := by
    rintro c _ q ⟨u, hat, rfl, rfl, rfl⟩
    obtain ⟨c', v, hc', htables, hdirection, hat', hlist, hparted⟩ := hat.find q
    refine ⟨c', _, hc', ⟨v, hat', htables, hdirection, rfl⟩, ?_, ?_⟩
    · rw [Track.map, hparted.here]
      rfl
    · rw [Track.map, List.length_map, hparted.length_behind, hlist, hat.list]
      rfl
  element := by
    rintro c _ ⟨u, hat, rfl, rfl, rfl⟩
    rw [show navigation.element c = IndexWalker.element c from rfl, hat.element]
    cases h : u.here <;> rw [Track.map, h] <;> rfl
  available := by
    rintro c _ ⟨u, hat, rfl, rfl, rfl⟩
    rw [hat.available, Track.map, Option.isSome_map]

end IndexWalker

namespace Tables

variable {t : Tables κ} {T : Finset (κ × EntryId)}

theorem Holds.mem_tuples [Std.TransOrd κ] [Std.LawfulEqOrd κ] (h : t.Holds T) (d : Direction)
    (u : κ × EntryId) : u ∈ t.tuples d ↔ u ∈ T := by
  obtain ⟨k, id⟩ := u
  cases d with
  | forward => exact mem_byKey.trans (h.has_iff k id)
  | reverse => exact mem_byId.trans ((h.wellFormed.has_iff k id).symm.trans (h.has_iff k id))

end Tables

namespace Index

variable [Std.TransOrd κ] [Std.LawfulEqOrd κ] [DecidableEq κ]

/-- **Walkers over an index are positions in the sorted list of its tuples.** Whatever operations
have made the index and whatever is asked of a walker in either order, each answer is the one of a
position in this list. -/
theorem walker_seeks (name : String) (ordered : Bool) (ops : List (Operation κ)) :
    ∃ x : Index κ, ops.foldlM run (.empty name ordered) = .ok x ∧ ∀ d : Direction,
      ∃ L : List (κ × EntryId), (L.Pairwise fun u v => d.compare u v = .lt) ∧
        (∀ u, u ∈ L ↔ u ∈ Operation.allOn ops ∅) ∧
        ∀ cs, IndexWalker.navigation.answers cs (x.walker d) =
          answersOver (L.map Element.ofTuple) (fun q => .ok (d.gap L q)) (.gap 0) cs := by
  obtain ⟨x, hx, -, -, hholds⟩ := runAll_holds (holds_empty name ordered) ops
  refine ⟨x, hx, fun d => ⟨x.tables.tuples d, Tables.pairwise_tuples x.tables d,
    hholds.mem_tuples d, fun cs => ?_⟩⟩
  have hfresh : IndexWalker.SeeksIn x.tables d (x.walker d)
      ((Track.start (x.tables.tuples d)).map Element.ofTuple) :=
    ⟨_, ⟨rfl, Track.toList_start _, .beforeFirst⟩, rfl, rfl, rfl⟩
  exact (IndexWalker.seeks x.tables d).answers_eq hfresh cs

/-- A search behind a key that is not there, and the way back from it. -/
theorem walker_seeks_sample :
    let ops : List (Operation Value) := [.add (.text "lee") 4, .add (.text "ann") 7]
    ∃ x : Index Value, ops.foldlM run (.empty "sn" true) = .ok x ∧
      IndexWalker.navigation.answers [.seek (.afterValue none (.text "b")), .get, .move .next, .get,
          .move .next, .move .previous, .available] (x.walker .forward) =
        [.ok .done, .error (.notPositioned "get()"), .ok (.found true),
          .ok (.element ⟨.text "lee", 4, none⟩), .ok (.found false), .ok (.found true),
          .ok (.standing true)] := by
  intro ops
  obtain ⟨x, hx, hlists⟩ := walker_seeks "sn" true ops
  obtain ⟨L, hsorted, hmem, hanswers⟩ := hlists .forward
  have hset : Operation.allOn ops ∅ = {(.text "ann", 7), (.text "lee", 4)} := by decide +kernel
  have hnodup : L.Nodup := hsorted.imp fun {u v} huv he => by
    subst he
    have hself : Direction.forward.compare u u = .eq := Std.ReflCmp.compare_self
    cases hself.symm.trans huv
  have hperm : L.Perm [(.text "ann", 7), (.text "lee", 4)] := by
    refine (List.perm_ext_iff_of_nodup hnodup (by decide)).2 fun u => ?_
    rw [hmem, hset]
    simp
  have hL : L = [(.text "ann", 7), (.text "lee", 4)] := by
    refine hperm.eq_of_pairwise (fun u v _ _ huv hvu => ?_) hsorted (by decide +kernel)
    cases (Std.OrientedCmp.gt_of_lt huv).symm.trans hvu
  refine ⟨x, hx, ?_⟩
  rw [hanswers, hL]
  rfl

end Index

end Directory
