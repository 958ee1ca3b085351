import Mathlib.Data.Finset.Card
import Directory.Proofs.Index.Batch

/-!
# Indices as sets of tuples

An index is a finite set of tuples, kept twice and counted.

* `Change.allOn`, `Change.inversesOn`: what a batch makes of a set, and the inverses of those of its
  changes that alter it.
* `Index.Operation`: the operations that change an index, with what each makes of a set.
* `Index.Represents`, `Index.Answers`: both tables hold a set, and the questions of the index are
  answered from it.
* `Index.run_holds`, `Index.runAll_holds`: what one operation does, and from it what any do.
* `Index.operations_refine`: **an index that starts empty represents, after any operations, the set
  that these make of the empty one**; none of them fails, and every batch can be taken back.
-/

namespace Directory

/-! ## Batches on a set -/

namespace Change

variable {κ : Type} [DecidableEq κ] {T : Finset (κ × EntryId)} {k : κ} {id : EntryId}

/-- What a change makes of a set of tuples. -/
def on (T : Finset (κ × EntryId)) : Change κ → Finset (κ × EntryId)
  | add k id => insert (k, id) T
  | drop k id => T.erase (k, id)

/-- What changes, one after another, make of a set of tuples. -/
def allOn (cs : List (Change κ)) (T : Finset (κ × EntryId)) : Finset (κ × EntryId) := cs.foldl on T

/-- The inverses of the changes that alter the set they come to, in order. -/
def inversesOn : List (Change κ) → Finset (κ × EntryId) → List (Change κ)
  | [], _ => []
  | c :: cs, T =>
    if c.on T = T then inversesOn cs T else c.inverse :: inversesOn cs (c.on T)

theorem mem_on {c : Change κ} :
    (k, id) ∈ c.on T ↔ c.onto (fun k id => (k, id) ∈ T) k id := by
  cases c with
  | add l i => rw [on, Finset.mem_insert, Prod.mk.injEq, onto]
  | drop l i => rw [on, Finset.mem_erase, ne_eq, Prod.mk.injEq, onto, and_comm]

theorem mem_allOn {cs : List (Change κ)} :
    (k, id) ∈ allOn cs T ↔ allOnto cs (fun k id => (k, id) ∈ T) k id := by
  induction cs generalizing T with
  | nil => exact .rfl
  | cons c cs ih =>
    have hon : (fun k id => (k, id) ∈ c.on T) = c.onto fun k id => (k, id) ∈ T :=
      funext fun l => funext fun i => propext mem_on
    rw [allOn, List.foldl_cons, allOnto_cons, ← hon]
    exact ih

/-- A change alters a set exactly if it makes a difference to its tuples. -/
theorem on_ne_iff {c : Change κ} : c.on T ≠ T ↔ c.Effective fun k id => (k, id) ∈ T := by
  cases c with
  | add k id => exact Finset.insert_ne_self
  | drop k id => exact Finset.erase_ne_self

end Change

/-! ## Tables of a set -/

namespace Tables

variable {κ : Type} [Ord κ] {t t' : Tables κ} {T : Finset (κ × EntryId)} {k : κ} {id : EntryId}

/-- The tables are in step and hold these tuples. -/
structure Holds (t : Tables κ) (T : Finset (κ × EntryId)) : Prop where
  wellFormed : t.WellFormed
  has_iff : ∀ k id, t.Has k id ↔ (k, id) ∈ T

variable [Std.TransOrd κ] [Std.LawfulEqOrd κ] [DecidableEq κ]

theorem Holds.eq_toFinset (h : t.Holds T) : T = t.byKey.toFinset := by
  ext ⟨k, id⟩
  rw [List.mem_toFinset, mem_byKey, h.has_iff]

theorem Holds.card_filter (h : t.Holds T) (p : κ × EntryId → Bool) :
    (T.filter fun x => p x).card = (t.byKey.filter p).length := by
  rw [h.eq_toFinset, ← List.toFinset_filter, List.toFinset_card_of_nodup ((nodup_byKey t).filter p)]

theorem Holds.card (h : t.Holds T) : T.card = t.byKey.length := by
  rw [h.eq_toFinset, List.toFinset_card_of_nodup (nodup_byKey t)]

theorem Holds.change? (h : t.Holds T) (c : Change κ) : ∃ t',
    t.change? c = some (t', decide (c.on T ≠ T)) ∧ t'.Holds (c.on T) := by
  have hhas : t.Has = fun k id => (k, id) ∈ T :=
    funext fun k => funext fun id => propext (h.has_iff k id)
  obtain ⟨t', changed, hc, hwf, hmem, heffective, hsame⟩ := h.wellFormed.change? c
  have hholds : t'.Holds (c.on T) := ⟨hwf, fun k id => by rw [hmem, hhas, Change.mem_on]⟩
  refine ⟨t', ?_, hholds⟩
  cases changed with
  | true => rw [hc, decide_eq_true (Change.on_ne_iff.2 (hhas ▸ heffective rfl))]
  | false =>
    have heq : c.on T = T := by
      rw [hholds.eq_toFinset, hsame rfl, ← h.eq_toFinset]
    rw [hc, decide_eq_false (not_not_intro heq)]

/-- **A batch on the tables of a set** gives the inverses of the changes that alter the set. -/
theorem Holds.changeAll? (h : t.Holds T) (cs : List (Change κ)) : ∃ t' redo,
    t.changeAll? cs = some (t', Change.inversesOn cs T) ∧ t'.Holds (Change.allOn cs T) ∧
      t'.changeAll? (Change.inversesOn cs T).reverse = some (t, redo) := by
  have hundo : ∃ t', t.changeAll? cs = some (t', Change.inversesOn cs T) ∧
      t'.Holds (Change.allOn cs T) := by
    induction cs generalizing t T with
    | nil => exact ⟨t, rfl, h⟩
    | cons c cs ih =>
      obtain ⟨t₁, hc, hholds⟩ := h.change? c
      obtain ⟨t', hcs, hholds'⟩ := ih hholds
      refine ⟨t', ?_, hholds'⟩
      simp only [Tables.changeAll?, hc, hcs, Option.bind_eq_bind, Option.bind_some, Option.pure_def,
        Change.inversesOn]
      by_cases heq : c.on T = T
      · rw [if_pos heq, decide_eq_false (not_not_intro heq), heq, if_neg Bool.false_ne_true]
      · rw [if_neg heq, decide_eq_true heq, if_pos rfl]
  obtain ⟨t', ht', hholds⟩ := hundo
  obtain ⟨_, _, hsome, _, _, redo, hredo⟩ := h.wellFormed.changeAll? cs
  rw [ht'] at hsome
  cases hsome
  exact ⟨t', redo, ht', hholds, hredo⟩

omit [Std.TransOrd κ] [Std.LawfulEqOrd κ] [DecidableEq κ] in
theorem countWhere_eq (t : Tables κ) (p : κ → Bool) :
    t.forward.toList.foldr (fun b n => if p b.1 then b.2.size + n else n) 0 =
      (t.byKey.filter fun x => p x.1).length := by
  rw [byKey]
  generalize t.forward.toList = bs
  induction bs with
  | nil => rfl
  | cons b bs ih =>
    rw [List.foldr_cons, List.flatMap_cons, List.filter_append, List.length_append, ← ih,
      List.filter_map, List.length_map]
    cases hp : p b.1 with
    | true =>
      have hall : b.2.toList.filter ((fun x => p x.1) ∘ (b.1, ·)) = b.2.toList :=
        List.filter_eq_self.2 fun _ _ => hp
      rw [if_pos rfl, hall]
      rfl
    | false =>
      have hnone : b.2.toList.filter ((fun x => p x.1) ∘ (b.1, ·)) = [] :=
        List.filter_eq_nil_iff.2 fun _ _ h => absurd (hp.symm.trans h) Bool.false_ne_true
      rw [if_neg Bool.false_ne_true, hnone, List.length_nil, Nat.zero_add]

omit [Std.TransOrd κ] [Std.LawfulEqOrd κ] in
theorem Holds.countOf (h : t.Holds T) (k : κ) :
    t.countOf k = (T.filter fun x => x.1 = k).card := by
  have himage : T.filter (fun x => x.1 = k) = (t.idsOf k).toList.toFinset.image (k, ·) := by
    ext ⟨l, id⟩
    rw [Finset.mem_filter, ← h.has_iff, Finset.mem_image]
    constructor
    · rintro ⟨hhas, rfl⟩
      exact ⟨id, List.mem_toFinset.2 hhas, rfl⟩
    · rintro ⟨i, hi, e⟩
      cases e
      exact ⟨List.mem_toFinset.1 hi, rfl⟩
  have hnodup : (t.idsOf k).toList.Nodup :=
    (t.idsOf k).increasing.imp fun h => Sorted.ne_of_compare_lt h
  rw [himage, Finset.card_image_of_injective _ (Prod.mk_right_injective k),
    List.toFinset_card_of_nodup hnodup, Tables.countOf, SortedSet.size]

theorem Holds.keyCount (h : t.Holds T) : t.keyCount = (T.image Prod.fst).card := by
  have himage : T.image Prod.fst = t.forward.keys.toFinset := by
    ext k
    rw [Finset.mem_image, List.mem_toFinset, SortedMap.keys, List.mem_map]
    constructor
    · rintro ⟨⟨_, id⟩, hT, rfl⟩
      have hget := SortedMap.get?_of_mem_getD ((h.has_iff _ id).2 hT)
      exact ⟨_, SortedMap.get?_eq_some_iff.1 hget, rfl⟩
    · rintro ⟨⟨_, s⟩, hs, rfl⟩
      have hget := SortedMap.get?_eq_some_iff.2 hs
      obtain ⟨id, hid⟩ := h.wellFormed.forward_noEmpty _ s hget
      refine ⟨(_, id), (h.has_iff _ id).1 ?_, rfl⟩
      rwa [Has, idsOf, SortedMap.getD, hget]
  have hnodup : t.forward.keys.Nodup :=
    List.pairwise_map.2 (t.forward.increasing.imp fun h => Sorted.ne_of_compare_lt h)
  rw [himage, List.toFinset_card_of_nodup hnodup, SortedMap.keys, List.length_map, Tables.keyCount,
    SortedMap.size]

end Tables

/-! ## Indices of a set -/

namespace Index

variable {κ : Type} [Ord κ]

/-- The forward table and the reverse table each hold exactly these tuples and bind nothing to an
empty set, and the counter gives their number. -/
structure Represents (x : Index κ) (T : Finset (κ × EntryId)) : Prop where
  forward : ∀ k id, (∃ s, x.tables.forward.get? k = some s ∧ id ∈ s) ↔ (k, id) ∈ T
  reverse : ∀ k id, (∃ s, x.tables.reverse.get? id = some s ∧ k ∈ s) ↔ (k, id) ∈ T
  forward_noEmpty : ∀ k s, x.tables.forward.get? k = some s → s ≠ ∅
  reverse_noEmpty : ∀ id s, x.tables.reverse.get? id = some s → s ≠ ∅
  count : x.count = T.card

/-- The result of a question about a range, which is refused where keys have no order. -/
def ranged {α : Type} (x : Index κ) (operation : String) (a : α) : Except Error α :=
  if x.ordered then .ok a else .error (.unorderedIndex operation x.name)

variable [DecidableEq κ]

/-- The answers of the index are those of the set. -/
structure Answers (x : Index κ) (T : Finset (κ × EntryId)) : Prop where
  ids : ∀ k, Sorted.Increasing id (x.ids k) ∧ ∀ i, i ∈ x.ids k ↔ (k, i) ∈ T
  has : ∀ k i, x.has k i = decide ((k, i) ∈ T)
  /-- The least key. -/
  key : ∀ k i, x.key? i = some k ↔ (k, i) ∈ T ∧ ∀ l, (l, i) ∈ T → (compare k l).isLE = true
  keys : ∀ i, Sorted.Increasing id (x.keys i) ∧ ∀ k, k ∈ x.keys i ↔ (k, i) ∈ T
  countOf : ∀ k, x.countOf k = (T.filter fun t => t.1 = k).card
  keyCount : x.keyCount = (T.image Prod.fst).card
  atLeastCount : ∀ k, x.atLeastCount k =
    x.ranged "greater_than_count" (T.filter fun t => (compare k t.1).isLE).card
  atMostCount : ∀ k, x.atMostCount k =
    x.ranged "less_than_count" (T.filter fun t => (compare t.1 k).isLE).card
  hasAtLeast : ∀ i k, x.hasAtLeast i k =
    x.ranged "reverse_greater_or_eq" (decide (∃ t ∈ T, t.2 = i ∧ (compare k t.1).isLE = true))
  hasAtMost : ∀ i k, x.hasAtMost i k =
    x.ranged "reverse_less_or_eq" (decide (∃ t ∈ T, t.2 = i ∧ (compare t.1 k).isLE = true))

omit [DecidableEq κ] in
theorem checkOrdered_bind {α : Type} (x : Index κ) (operation : String) (a : α) :
    (do x.checkOrdered operation; return a : Except Error α) = x.ranged operation a := by
  unfold checkOrdered ranged
  cases x.ordered <;> rfl

variable [Std.TransOrd κ] [Std.LawfulEqOrd κ] {x : Index κ} {T : Finset (κ × EntryId)}

theorem represents (h : x.tables.Holds T) : x.Represents T where
  forward k id := by
    rw [← h.has_iff]
    constructor
    · rintro ⟨s, hs, hid⟩
      rwa [Tables.Has, Tables.idsOf, SortedMap.getD, hs]
    · exact fun hid => ⟨_, SortedMap.get?_of_mem_getD hid, hid⟩
  reverse k id := by
    rw [← h.has_iff, h.wellFormed.has_iff]
    constructor
    · rintro ⟨s, hs, hk⟩
      rwa [Tables.keysOf, SortedMap.getD, hs]
    · exact fun hk => ⟨_, SortedMap.get?_of_mem_getD hk, hk⟩
  forward_noEmpty k s hs e := by
    obtain ⟨id, hid⟩ := h.wellFormed.forward_noEmpty k s hs
    exact SortedSet.not_mem_empty id (e ▸ hid)
  reverse_noEmpty id s hs e := by
    obtain ⟨k, hk⟩ := h.wellFormed.reverse_noEmpty id s hs
    exact SortedSet.not_mem_empty k (e ▸ hk)
  count := h.wellFormed.count_eq.trans h.card.symm

omit [DecidableEq κ] [Std.TransOrd κ] [Std.LawfulEqOrd κ] in
theorem mem_keys_iff (h : x.tables.Holds T) {k : κ} {id : EntryId} :
    k ∈ x.keys id ↔ (k, id) ∈ T :=
  (mem_keys h.wellFormed).trans (h.has_iff k id)

omit [DecidableEq κ] [Std.LawfulEqOrd κ] in
theorem head?_eq_some_iff {ks : List κ} (h : Sorted.Increasing id ks) {k : κ} :
    ks.head? = some k ↔ k ∈ ks ∧ ∀ l ∈ ks, (compare k l).isLE = true := by
  cases ks with
  | nil => simp
  | cons l ls =>
    rw [List.head?_cons, Option.some.injEq]
    constructor
    · rintro rfl
      refine ⟨.head _, fun m hm => ?_⟩
      obtain rfl | hm := List.mem_cons.1 hm
      · rw [Sorted.compare_self]; rfl
      · rw [show compare l m = .lt from h.head_lt hm]; rfl
    · rintro ⟨hk, hle⟩
      obtain rfl | hk := List.mem_cons.1 hk
      · rfl
      · have hlt : compare l k = .lt := h.head_lt hk
        have hgt := hle l (.head _)
        rw [Std.OrientedCmp.gt_of_lt hlt] at hgt
        exact absurd hgt Bool.false_ne_true

theorem countWhere_eq (h : x.tables.Holds T) (p : κ → Bool) :
    x.countWhere p = (T.filter fun t => p t.1).card := by
  rw [countWhere, Tables.countWhere_eq, ← h.card_filter fun t => p t.1]

omit [DecidableEq κ] [Std.TransOrd κ] [Std.LawfulEqOrd κ] in
theorem any_keys (h : x.tables.Holds T) (id : EntryId) (p : κ → Bool) :
    (x.keys id).any p = decide (∃ t ∈ T, t.2 = id ∧ p t.1 = true) := by
  rw [Bool.eq_iff_iff, List.any_eq_true, decide_eq_true_iff]
  constructor
  · rintro ⟨k, hk, hp⟩
    exact ⟨(k, id), (mem_keys_iff h).1 hk, rfl, hp⟩
  · rintro ⟨⟨k, _⟩, hT, rfl, hp⟩
    exact ⟨k, (mem_keys_iff h).2 hT, hp⟩

theorem answers (h : x.tables.Holds T) : x.Answers T where
  ids k := ⟨(x.tables.idsOf k).increasing, h.has_iff k⟩
  has k i := by rw [Bool.eq_iff_iff, has_iff, decide_eq_true_iff]; exact h.has_iff k i
  key k i := by
    rw [key?, SortedSet.min?, head?_eq_some_iff (x.tables.keysOf i).increasing]
    exact and_congr (mem_keys_iff h) (forall_congr' fun l => imp_congr_left (mem_keys_iff h))
  keys i := ⟨(x.tables.keysOf i).increasing, fun _ => mem_keys_iff h⟩
  countOf := h.countOf
  keyCount := h.keyCount
  atLeastCount k := by rw [atLeastCount, checkOrdered_bind, countWhere_eq h]
  atMostCount k := by rw [atMostCount, checkOrdered_bind, countWhere_eq h]
  hasAtLeast i k := by rw [hasAtLeast, checkOrdered_bind, any_keys h]
  hasAtMost i k := by rw [hasAtMost, checkOrdered_bind, any_keys h]

/-! ## Operations -/

/-- An operation that changes an index. -/
inductive Operation (κ : Type) where
  | add (key : κ) (id : EntryId)
  | drop (key : κ) (id : EntryId)
  | dropId (id : EntryId)
  | apply (changes : List (Change κ))

/-- Carries an operation out. -/
def run (x : Index κ) : Operation κ → Except Error (Index κ)
  | .add k id => x.add k id
  | .drop k id => x.drop k id
  | .dropId id => do return (← x.dropId id).1
  | .apply cs => do return (← x.apply cs).1

namespace Operation

/-- What an operation makes of a set of tuples. -/
def on (T : Finset (κ × EntryId)) : Operation κ → Finset (κ × EntryId)
  | add k id => insert (k, id) T
  | drop k id => T.erase (k, id)
  | dropId id => T.filter fun t => t.2 ≠ id
  | apply cs => Change.allOn cs T

/-- What operations, one after another, make of a set of tuples. -/
def allOn (ops : List (Operation κ)) (T : Finset (κ × EntryId)) : Finset (κ × EntryId) :=
  ops.foldl on T

end Operation

theorem apply_holds (h : x.tables.Holds T) (cs : List (Change κ)) : ∃ y redo,
    x.apply cs = .ok (y, Change.inversesOn cs T) ∧ y.name = x.name ∧ y.ordered = x.ordered ∧
      y.tables.Holds (Change.allOn cs T) ∧
      y.apply (Change.inversesOn cs T).reverse = .ok (x, redo) := by
  obtain ⟨t, redo, ht, hholds, hredo⟩ := h.changeAll? cs
  refine ⟨⟨x.name, x.ordered, t⟩, redo, ?_, rfl, rfl, hholds, ?_⟩
  · rw [apply, ht]
  · rw [apply, hredo]

theorem dropId_holds (h : x.tables.Holds T) (id : EntryId) : ∃ y,
    x.dropId id = .ok (y, x.keys id) ∧ y.name = x.name ∧ y.ordered = x.ordered ∧
      y.tables.Holds (T.filter fun t => t.2 ≠ id) := by
  obtain ⟨y, _, hy, hname, hordered, hholds, _⟩ := apply_holds h ((x.keys id).map (.drop · id))
  have hset : Change.allOn ((x.keys id).map (.drop · id)) T = T.filter fun t => t.2 ≠ id := by
    ext ⟨k, i⟩
    rw [Change.mem_allOn, Change.allOnto_dropAll fun k => mem_keys_iff h, Finset.mem_filter]
  exact ⟨y, by rw [dropId, hy]; rfl, hname, hordered, hset ▸ hholds⟩

/-- **One operation.** It succeeds, and the index then holds what the operation makes of the set. -/
theorem run_holds (h : x.tables.Holds T) (op : Operation κ) : ∃ y,
    x.run op = .ok y ∧ y.name = x.name ∧ y.ordered = x.ordered ∧ y.tables.Holds (op.on T) := by
  have happly : ∀ cs, ∃ y, (do return (← x.apply cs).1 : Except Error (Index κ)) = .ok y ∧
      y.name = x.name ∧ y.ordered = x.ordered ∧ y.tables.Holds (Change.allOn cs T) := fun cs => by
    obtain ⟨y, _, hy, hname, hordered, hholds, _⟩ := apply_holds h cs
    exact ⟨y, by rw [hy]; rfl, hname, hordered, hholds⟩
  cases op with
  | add k id => exact happly [.add k id]
  | drop k id => exact happly [.drop k id]
  | dropId id =>
    obtain ⟨y, hy, hname, hordered, hholds⟩ := dropId_holds h id
    exact ⟨y, by rw [run, hy]; rfl, hname, hordered, hholds⟩
  | apply cs => exact happly cs

/-- **Any operations,** by induction on them. -/
theorem runAll_holds (h : x.tables.Holds T) (ops : List (Operation κ)) : ∃ y,
    ops.foldlM run x = .ok y ∧ y.name = x.name ∧ y.ordered = x.ordered ∧
      y.tables.Holds (Operation.allOn ops T) := by
  induction ops generalizing x T with
  | nil => exact ⟨x, rfl, rfl, rfl, h⟩
  | cons op ops ih =>
    obtain ⟨y, hy, hname, hordered, hholds⟩ := run_holds h op
    obtain ⟨z, hz, hname', hordered', hholds'⟩ := ih hholds
    refine ⟨z, ?_, hname'.trans hname, hordered'.trans hordered, hholds'⟩
    rw [List.foldlM_cons, hy]
    exact hz

omit [DecidableEq κ] [Std.TransOrd κ] [Std.LawfulEqOrd κ] in
theorem holds_empty (name : String) (ordered : Bool) :
    (empty name ordered : Index κ).tables.Holds ∅ :=
  ⟨wellFormed_empty name ordered,
    fun _ _ => ⟨fun h => absurd h not_has_empty, fun h => absurd h (Finset.notMem_empty _)⟩⟩

/-! ## Ranges -/

omit [DecidableEq κ] [Std.TransOrd κ] [Std.LawfulEqOrd κ] in
theorem ranged_eq_error {α : Type} {operation : String} {a : α} {e : Error}
    (h : x.ranged operation a = .error e) :
    x.ordered = false ∧ e.kind = .unsupportedOrdering := by
  unfold ranged at h
  split at h
  · cases h
  · rename_i hordered
    cases h
    exact ⟨Bool.eq_false_iff.2 hordered, rfl⟩

/-- Every tuple is on one side of a key, and the tuples of the key are on both. -/
theorem card_atLeast_add_card_atMost (T : Finset (κ × EntryId)) (k : κ) :
    (T.filter fun t => (compare k t.1).isLE).card + (T.filter fun t => (compare t.1 k).isLE).card =
      T.card + (T.filter fun t => t.1 = k).card := by
  have hunion : T.filter (fun t => (compare k t.1).isLE) ∪ T.filter (fun t => (compare t.1 k).isLE)
      = T := by
    rw [← Finset.filter_or]
    refine Finset.filter_true_of_mem fun t _ => ?_
    cases hc : compare k t.1 with
    | lt => exact .inl rfl
    | eq => exact .inl rfl
    | gt => exact .inr (by rw [Std.OrientedCmp.lt_of_gt hc]; rfl)
  have hinter : T.filter (fun t => (compare k t.1).isLE) ∩ T.filter (fun t => (compare t.1 k).isLE)
      = T.filter fun t => t.1 = k := by
    rw [← Finset.filter_and]
    refine Finset.filter_congr fun t _ => ⟨fun ⟨hle, hge⟩ => ?_, ?_⟩
    · exact Std.LawfulEqCmp.eq_of_compare (Std.OrientedCmp.isLE_antisymm hge hle)
    · rintro rfl
      rw [Sorted.compare_self]
      exact ⟨rfl, rfl⟩
  rw [← Finset.card_union_add_card_inter, hunion, hinter]

/-- **An index is a set of tuples.** After any operations on an index that was empty, none of which
fails, both tables hold the set that the operations make of the empty one, and all questions are
answered from that set, those about ranges being refused exactly where keys have no order. A
further batch gives the inverses of its changes that alter the set, which take it back. -/
theorem operations_refine (name : String) (ordered : Bool) (ops : List (Operation κ)) :
    let T := Operation.allOn ops ∅
    ∃ x : Index κ, ops.foldlM run (.empty name ordered) = .ok x ∧ x.name = name ∧
      x.ordered = ordered ∧ x.Represents T ∧ x.Answers T ∧
      (∀ cs, ∃ y redo, x.apply cs = .ok (y, Change.inversesOn cs T) ∧
        y.Represents (Change.allOn cs T) ∧
        y.apply (Change.inversesOn cs T).reverse = .ok (x, redo)) ∧
      (∀ id, ∃ y, x.dropId id = .ok (y, x.keys id) ∧ y.Represents ((Operation.dropId id).on T)) ∧
      (∀ k id e, x.atLeastCount k = .error e ∨ x.atMostCount k = .error e ∨
        x.hasAtLeast id k = .error e ∨ x.hasAtMost id k = .error e →
          ordered = false ∧ e.kind = .unsupportedOrdering) ∧
      (ordered = true → ∀ k, ∃ m n, x.atLeastCount k = .ok m ∧ x.atMostCount k = .ok n ∧
        m + n = x.count + x.countOf k) := by
  intro T
  obtain ⟨x, hx, rfl, rfl, hholds⟩ := runAll_holds (holds_empty name ordered) ops
  have hanswers := answers hholds
  refine ⟨x, hx, rfl, rfl, represents hholds, hanswers, fun cs => ?_, fun id => ?_, ?_, ?_⟩
  · obtain ⟨y, redo, hy, _, _, hholds', hredo⟩ := apply_holds hholds cs
    exact ⟨y, redo, hy, represents hholds', hredo⟩
  · obtain ⟨y, hy, _, _, hholds'⟩ := dropId_holds hholds id
    exact ⟨y, hy, represents hholds'⟩
  · rintro k id e (h | h | h | h)
    · exact ranged_eq_error ((hanswers.atLeastCount k).symm.trans h)
    · exact ranged_eq_error ((hanswers.atMostCount k).symm.trans h)
    · exact ranged_eq_error ((hanswers.hasAtLeast id k).symm.trans h)
    · exact ranged_eq_error ((hanswers.hasAtMost id k).symm.trans h)
  · intro hordered k
    refine ⟨_, _, (hanswers.atLeastCount k).trans (if_pos hordered),
      (hanswers.atMostCount k).trans (if_pos hordered), ?_⟩
    rw [card_atLeast_add_card_atMost, hanswers.countOf, (represents hholds).count]

/-- A tuple that is added twice, and a batch that takes one key of an entry away. -/
theorem operations_refine_sample :
    let ops : List (Operation Value) := [.add (.text "lee") 4, .add (.text "ann") 4,
      .add (.text "lee") 4, .add (.text "x") 2, .dropId 2,
      .apply [.drop (.text "ann") 4, .add (.text "lee") 7, .add (.text "ann") 3]]
    ∃ x : Index Value, ops.foldlM run (.empty "sn" true) = .ok x ∧
      x.Represents {(.text "lee", 4), (.text "lee", 7), (.text "ann", 3)} ∧ x.count = 3 ∧
      x.atLeastCount (.text "b") = .ok 2 := by
  intro ops
  have hset : Operation.allOn ops ∅ =
      {(.text "lee", 4), (.text "lee", 7), (.text "ann", 3)} := by decide +kernel
  obtain ⟨x, hx, _, hordered, hrepresents, hanswers, _⟩ := operations_refine "sn" true ops
  rw [hset] at hrepresents hanswers
  refine ⟨x, hx, hrepresents, hrepresents.count.trans (by decide +kernel), ?_⟩
  rw [hanswers.atLeastCount, ranged, if_pos hordered]
  exact congrArg Except.ok (by decide +kernel)

end Index

end Directory
