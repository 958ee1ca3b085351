import Directory.Sorted.List

/-!
# Finite maps

A finite map over an ordered type of keys is the list of its bindings with strictly increasing
keys, so that two maps with the same bindings are equal and listing a map is listing it by key.

* `SortedMap`: the type; `get?`, `getD`, `insert`, `erase`, `ofList`, `keys`, `values`.
* `SortedMap.ext`: a map is determined by its look-ups.
* `get?_insert`, `get?_erase`: what an update does to look-ups.
-/

namespace Directory

open Sorted

/-- A finite map, held as the list of its bindings by increasing key. -/
structure SortedMap (α β : Type) [Ord α] where
  toList : List (α × β)
  increasing : Increasing Prod.fst toList

namespace SortedMap

variable {α β : Type} [Ord α]

/-- The map without bindings. -/
def empty : SortedMap α β := ⟨[], .nil⟩

instance : EmptyCollection (SortedMap α β) := ⟨empty⟩

instance : Inhabited (SortedMap α β) := ⟨empty⟩

instance [DecidableEq α] [DecidableEq β] : DecidableEq (SortedMap α β) := fun m n =>
  decidable_of_iff (m.toList = n.toList)
    ⟨fun h => by cases m; cases n; cases h; rfl, fun h => h ▸ rfl⟩

/-- The number of bindings. -/
def size (m : SortedMap α β) : Nat := m.toList.length

def keys (m : SortedMap α β) : List α := m.toList.map Prod.fst

def values (m : SortedMap α β) : List β := m.toList.map Prod.snd

def get? (m : SortedMap α β) (k : α) : Option β := (findBy? Prod.fst k m.toList).map Prod.snd

/-- The value at `k`, or `d` where the map has none. -/
def getD (m : SortedMap α β) (k : α) (d : β) : β := (m.get? k).getD d

def contains (m : SortedMap α β) (k : α) : Bool := (m.get? k).isSome

def erase (m : SortedMap α β) (k : α) : SortedMap α β :=
  ⟨eraseBy Prod.fst k m.toList, increasing_eraseBy m.increasing⟩

@[simp] theorem get?_empty (k : α) : (∅ : SortedMap α β).get? k = none := rfl

variable [Std.TransOrd α] [Std.LawfulEqOrd α]

/-- The map with `k` bound to `v`, whatever it was bound to. -/
def insert (m : SortedMap α β) (k : α) (v : β) : SortedMap α β :=
  ⟨insertBy Prod.fst (k, v) m.toList, increasing_insertBy m.increasing⟩

/-- The map with `k` bound to `v?`, or unbound if that is `none`. -/
def set (m : SortedMap α β) (k : α) : Option β → SortedMap α β
  | some v => m.insert k v
  | none => m.erase k

/-- The map of a list of bindings; of two bindings of one key the later holds. -/
def ofList (xs : List (α × β)) : SortedMap α β := xs.foldl (fun m p => m.insert p.1 p.2) ∅

theorem get?_eq_some_iff {m : SortedMap α β} {k : α} {v : β} :
    m.get? k = some v ↔ (k, v) ∈ m.toList := by
  rw [get?, Option.map_eq_some_iff]
  constructor
  · rintro ⟨⟨k', v'⟩, h, rfl⟩
    obtain ⟨hm, rfl⟩ := (findBy?_eq_some_iff m.increasing).1 h
    exact hm
  · exact fun h => ⟨(k, v), (findBy?_eq_some_iff m.increasing).2 ⟨h, rfl⟩, rfl⟩

@[ext] theorem ext {m n : SortedMap α β} (h : ∀ k, m.get? k = n.get? k) : m = n := by
  have hm : ∀ p, p ∈ m.toList ↔ p ∈ n.toList := fun (k, v) => by
    rw [← get?_eq_some_iff, ← get?_eq_some_iff, h]
  cases m with
  | mk xs hx =>
    cases n with
    | mk ys hy =>
      obtain rfl : xs = ys := hx.ext hy hm
      rfl

theorem get?_insert_self (m : SortedMap α β) (k : α) (v : β) : (m.insert k v).get? k = some v :=
  get?_eq_some_iff.2 ((mem_insertBy m.increasing).2 (.inl rfl))

theorem get?_insert_of_ne {m : SortedMap α β} {k k' : α} (v : β) (h : k' ≠ k) :
    (m.insert k v).get? k' = m.get? k' :=
  Option.ext fun w => by
    rw [get?_eq_some_iff, get?_eq_some_iff]
    refine (mem_insertBy m.increasing).trans ⟨?_, fun hm => .inr ⟨hm, h⟩⟩
    rintro (e | ⟨hm, _⟩)
    · cases e
      exact absurd rfl h
    · exact hm

theorem get?_insert [DecidableEq α] (m : SortedMap α β) (k k' : α) (v : β) :
    (m.insert k v).get? k' = if k' = k then some v else m.get? k' := by
  split
  · rename_i h
    exact h ▸ get?_insert_self m k v
  · rename_i h
    exact get?_insert_of_ne v h

theorem get?_erase_self (m : SortedMap α β) (k : α) : (m.erase k).get? k = none :=
  Option.eq_none_iff_forall_ne_some.2 fun _ h =>
    (mem_eraseBy.1 (get?_eq_some_iff.1 h)).2 rfl

theorem get?_erase_of_ne {m : SortedMap α β} {k k' : α} (h : k' ≠ k) :
    (m.erase k).get? k' = m.get? k' :=
  Option.ext fun w => by
    rw [get?_eq_some_iff, get?_eq_some_iff]
    exact mem_eraseBy.trans ⟨And.left, fun hm => ⟨hm, h⟩⟩

theorem get?_erase [DecidableEq α] (m : SortedMap α β) (k k' : α) :
    (m.erase k).get? k' = if k' = k then none else m.get? k' := by
  split
  · rename_i h
    exact h ▸ get?_erase_self m k
  · rename_i h
    exact get?_erase_of_ne h

end SortedMap

end Directory
