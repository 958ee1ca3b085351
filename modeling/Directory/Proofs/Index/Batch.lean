import Directory.Index.Cursor
import Directory.Proofs.Index.WellFormed

/-!
# Batches of changes

* `Change.allOnto_iff`: the effect of a batch on a tuple that it does not both add and drop.
* `Change.allOnto_drop_add`, `Change.allOnto_blocks`: the effect of a batch that drops tuples and
  then adds others, at once or entry by entry.
* `Index.Has`, `Index.WellFormed`: the relation of an index, and its tables in step.
* `Index.apply_spec`: **a batch on an index in step**; `ids`, `keys` and the other questions of an
  index in terms of its relation.
-/

namespace Directory

/-! ## Effects -/

namespace Change

variable {κ : Type} {r : κ → EntryId → Prop} {l : κ} {i : EntryId}

theorem allOnto_nil : allOnto [] r = r := rfl

theorem allOnto_cons (c : Change κ) (cs : List (Change κ)) :
    allOnto (c :: cs) r = allOnto cs (c.onto r) := rfl

theorem allOnto_append (cs ds : List (Change κ)) :
    allOnto (cs ++ ds) r = allOnto ds (allOnto cs r) :=
  List.foldl_append

/-- **A batch that does not both add and drop the tuple.** -/
theorem allOnto_iff {cs : List (Change κ)} (h : add l i ∈ cs → drop l i ∉ cs) :
    allOnto cs r l i ↔ add l i ∈ cs ∨ (r l i ∧ drop l i ∉ cs) := by
  induction cs generalizing r with
  | nil => simp [allOnto_nil]
  | cons c cs ih =>
    have h' : add l i ∈ cs → drop l i ∉ cs := fun ha hd => h (.tail _ ha) (.tail _ hd)
    rw [allOnto_cons, ih h']
    cases c with
    | add k j =>
      by_cases e : l = k ∧ i = j
      · obtain ⟨rfl, rfl⟩ := e
        have hd : drop l i ∉ cs := fun hd => h (.head _) (.tail _ hd)
        exact ⟨fun _ => .inl (.head _), fun _ => .inr ⟨.inl ⟨rfl, rfl⟩, hd⟩⟩
      · have hne : add l i ≠ add k j := fun h => e (by cases h; exact ⟨rfl, rfl⟩)
        simp only [onto, List.mem_cons, e, hne, false_or, reduceCtorEq]
    | drop k j =>
      by_cases e : l = k ∧ i = j
      · obtain ⟨rfl, rfl⟩ := e
        have ha : add l i ∉ cs := fun ha => h (.tail _ ha) (.head _)
        simp [onto, ha]
      · have hne : drop l i ≠ drop k j := fun h => e (by cases h; exact ⟨rfl, rfl⟩)
        simp only [onto, List.mem_cons, e, hne, false_or, reduceCtorEq, not_false_eq_true, and_true]

theorem allOnto_adds {xs : List (κ × EntryId)} :
    allOnto (xs.map fun x => add x.1 x.2) r l i ↔ (l, i) ∈ xs ∨ r l i := by
  have hd : drop l i ∉ xs.map fun x => add x.1 x.2 := by simp
  rw [allOnto_iff fun _ => hd]
  simp

theorem allOnto_drops {xs : List (κ × EntryId)} :
    allOnto (xs.map fun x => drop x.1 x.2) r l i ↔ r l i ∧ (l, i) ∉ xs := by
  have ha : add l i ∉ xs.map fun x => drop x.1 x.2 := by simp
  rw [allOnto_iff fun h => absurd h ha]
  simp

/-- A batch that drops tuples before it adds others. -/
theorem allOnto_drop_add {xs ys : List (κ × EntryId)} :
    allOnto (xs.map (fun x => drop x.1 x.2) ++ ys.map fun x => add x.1 x.2) r l i ↔
      (l, i) ∈ ys ∨ (r l i ∧ (l, i) ∉ xs) := by
  rw [allOnto_append, allOnto_adds, allOnto_drops]

theorem allOnto_keys {old new : List κ} {id : EntryId} :
    allOnto (old.map (drop · id) ++ new.map (add · id)) r l i ↔
      (i = id ∧ l ∈ new) ∨ (r l i ∧ ¬(i = id ∧ l ∈ old)) := by
  have hold : old.map (drop · id) = (old.map (·, id)).map fun x => drop x.1 x.2 := by simp
  have hnew : new.map (add · id) = (new.map (·, id)).map fun x => add x.1 x.2 := by simp
  have hmem : ∀ ks : List κ, (l, i) ∈ ks.map (·, id) ↔ i = id ∧ l ∈ ks := fun ks => by
    rw [List.mem_map]
    exact ⟨fun ⟨_, hk, e⟩ => by cases e; exact ⟨rfl, hk⟩, fun ⟨e, hl⟩ => ⟨l, hl, by rw [e]⟩⟩
  rw [hold, hnew, allOnto_drop_add, hmem, hmem]

theorem allOnto_addKeys {keys : List κ} {id : EntryId} :
    allOnto (keys.map (add · id)) r l i ↔ (i = id ∧ l ∈ keys) ∨ r l i := by
  have := @allOnto_keys κ r l i [] keys id
  simpa only [List.map_nil, List.nil_append, List.not_mem_nil, and_false, not_false_eq_true,
    and_true] using this

theorem allOnto_dropKeys {keys : List κ} {id : EntryId} :
    allOnto (keys.map (drop · id)) r l i ↔ r l i ∧ ¬(i = id ∧ l ∈ keys) := by
  have := @allOnto_keys κ r l i keys [] id
  simpa only [List.map_nil, List.append_nil, List.not_mem_nil, and_false, false_or] using this

theorem allOnto_add {k : κ} {id : EntryId} :
    allOnto [add k id] r l i ↔ (i = id ∧ l = k) ∨ r l i := by
  show (l = k ∧ i = id) ∨ r l i ↔ _
  rw [and_comm]

theorem allOnto_drop {k : κ} {id : EntryId} :
    allOnto [drop k id] r l i ↔ r l i ∧ ¬(i = id ∧ l = k) := by
  show r l i ∧ ¬(l = k ∧ i = id) ↔ _
  rw [@and_comm (l = k)]

theorem allOnto_dropAll {keys : List κ} {id : EntryId} (h : ∀ k, k ∈ keys ↔ r k id) :
    allOnto (keys.map (drop · id)) r l i ↔ r l i ∧ i ≠ id := by
  rw [allOnto_dropKeys, h]
  exact and_congr_right fun hr => not_congr ⟨And.left, fun e => ⟨e, e ▸ hr⟩⟩

/-- A batch that does so for one entry after another. -/
theorem allOnto_blocks {old new : List κ} {members : List EntryId} :
    allOnto (members.flatMap fun m => old.map (drop · m) ++ new.map (add · m)) r l i ↔
      (i ∈ members ∧ l ∈ new) ∨ (r l i ∧ ¬(i ∈ members ∧ l ∈ old)) := by
  induction members generalizing r with
  | nil => simp [allOnto_nil]
  | cons m ms ih =>
    rw [List.flatMap_cons, allOnto_append, ih, allOnto_keys, List.mem_cons]
    by_cases hm : i = m <;> by_cases hms : i ∈ ms <;> by_cases hn : l ∈ new <;>
      by_cases ho : l ∈ old <;> simp_all

end Change

/-! ## Indices -/

namespace Index

variable {κ : Type} [Ord κ]

/-- The index relates the key and the entry. -/
def Has (x : Index κ) (k : κ) (id : EntryId) : Prop := x.tables.Has k id

/-- The tables of the index are in step. -/
def WellFormed (x : Index κ) : Prop := x.tables.WellFormed

theorem wellFormed_empty (name : String) (ordered : Bool) :
    (empty name ordered : Index κ).WellFormed :=
  Tables.wellFormed_empty

theorem not_has_empty {name : String} {ordered : Bool} {k : κ} {id : EntryId} :
    ¬(empty name ordered).Has k id := SortedSet.not_mem_empty _

variable [Std.TransOrd κ] [Std.LawfulEqOrd κ] {x y : Index κ} {k : κ} {id : EntryId}

omit [Std.TransOrd κ] [Std.LawfulEqOrd κ] in
theorem has_iff : x.has k id = true ↔ x.Has k id := Tables.hasForward_iff

omit [Std.TransOrd κ] [Std.LawfulEqOrd κ] in
theorem mem_ids : id ∈ x.ids k ↔ x.Has k id := .rfl

omit [Std.TransOrd κ] [Std.LawfulEqOrd κ] in
theorem mem_keys (h : x.WellFormed) : k ∈ x.keys id ↔ x.Has k id := (h.has_iff k id).symm

theorem mem_tuples (h : x.WellFormed) {d : Direction} :
    (k, id) ∈ x.tables.tuples d ↔ x.Has k id := by
  cases d with
  | forward => exact Tables.mem_byKey
  | reverse => exact Tables.mem_byId.trans (h.has_iff k id).symm

omit [Std.TransOrd κ] [Std.LawfulEqOrd κ] in
theorem nodup_ids : (x.ids k).Nodup :=
  (x.tables.idsOf k).increasing.imp fun h => Sorted.ne_of_compare_lt h

omit [Std.TransOrd κ] [Std.LawfulEqOrd κ] in
theorem countOf_eq_zero : x.countOf k = 0 ↔ ∀ id, ¬x.Has k id := by
  show (x.tables.idsOf k).toList.length = 0 ↔ _
  rw [List.length_eq_zero_iff, List.eq_nil_iff_forall_not_mem]
  rfl

theorem WellFormed.ext (h : x.WellFormed) (h' : y.WellFormed) (hname : x.name = y.name)
    (hordered : x.ordered = y.ordered) (e : ∀ k id, x.Has k id ↔ y.Has k id) : x = y := by
  have ht : x.tables = y.tables := Tables.WellFormed.ext h h' e
  cases x
  cases y
  cases hname
  cases hordered
  cases ht
  rfl

/-- **A batch on an index in step.** It is carried out, and the inverses of its effects take it
back. -/
theorem apply_spec (h : x.WellFormed) (cs : List (Change κ)) :
    ∃ y undo, x.apply cs = .ok (y, undo) ∧ y.WellFormed ∧ y.name = x.name ∧
      y.ordered = x.ordered ∧ (∀ l i, y.Has l i ↔ Change.allOnto cs x.Has l i) ∧
      ∃ redo, y.apply undo.reverse = .ok (x, redo) := by
  obtain ⟨t, undo, ht, hwf, hhas, redo, hredo⟩ := Tables.WellFormed.changeAll? h cs
  refine ⟨⟨x.name, x.ordered, t⟩, undo, ?_, hwf, rfl, rfl, hhas, redo, ?_⟩
  · rw [apply, ht]
  · rw [apply, hredo]

theorem apply_eq_ok (h : x.WellFormed) {cs undo : List (Change κ)}
    (hy : x.apply cs = .ok (y, undo)) :
    y.WellFormed ∧ y.name = x.name ∧ y.ordered = x.ordered ∧
      (∀ l i, y.Has l i ↔ Change.allOnto cs x.Has l i) ∧
      ∃ redo, y.apply undo.reverse = .ok (x, redo) := by
  obtain ⟨y', undo', hy', hspec⟩ := apply_spec h cs
  rw [hy] at hy'
  cases hy'
  exact hspec

end Index

end Directory
