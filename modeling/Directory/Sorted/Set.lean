import Directory.Sorted.List

/-!
# Finite sets

A finite set over an ordered type is the strictly increasing list of its members, so that two
sets with the same members are equal and listing a set is listing it in order.

* `SortedSet`: the type; `insert`, `erase`, `contains`, `ofList`, `filter`, `diff`, `min?`.
* `SortedSet.ext`: a set is determined by its members.
-/

namespace Directory

open Sorted

/-- A finite set, held as the increasing list of its members. -/
structure SortedSet (α : Type) [Ord α] where
  toList : List α
  increasing : Increasing id toList

namespace SortedSet

variable {α : Type} [Ord α]

instance : Membership α (SortedSet α) where
  mem s a := a ∈ s.toList

/-- The set without members. -/
def empty : SortedSet α := ⟨[], .nil⟩

instance : EmptyCollection (SortedSet α) := ⟨empty⟩

instance : Inhabited (SortedSet α) := ⟨empty⟩

instance [DecidableEq α] : DecidableEq (SortedSet α) := fun s t =>
  decidable_of_iff (s.toList = t.toList)
    ⟨fun h => by cases s; cases t; cases h; rfl, fun h => h ▸ rfl⟩

/-- The number of members. -/
def size (s : SortedSet α) : Nat := s.toList.length

def isEmpty (s : SortedSet α) : Bool := s.toList.isEmpty

/-- The least member. -/
def min? (s : SortedSet α) : Option α := s.toList.head?

def contains (s : SortedSet α) (a : α) : Bool := (findBy? id a s.toList).isSome

def erase (s : SortedSet α) (a : α) : SortedSet α :=
  ⟨eraseBy id a s.toList, increasing_eraseBy s.increasing⟩

/-- The members that satisfy `p`. -/
def filter (p : α → Bool) (s : SortedSet α) : SortedSet α :=
  ⟨s.toList.filter p, s.increasing.filter p⟩

/-- The members of `s` that are not in `t`. -/
def diff (s t : SortedSet α) : SortedSet α := s.filter fun a => !t.contains a

@[simp] theorem mem_toList {s : SortedSet α} {a : α} : a ∈ s.toList ↔ a ∈ s := .rfl

@[simp] theorem not_mem_empty (a : α) : a ∉ (∅ : SortedSet α) := List.not_mem_nil

@[simp] theorem mem_filter {p : α → Bool} {s : SortedSet α} {a : α} :
    a ∈ s.filter p ↔ a ∈ s ∧ p a := List.mem_filter

variable [Std.TransOrd α] [Std.LawfulEqOrd α]

def insert (s : SortedSet α) (a : α) : SortedSet α :=
  ⟨insertBy id a s.toList, increasing_insertBy s.increasing⟩

/-- The set of the members of a list. -/
def ofList (xs : List α) : SortedSet α := xs.foldl insert ∅

omit [Std.LawfulEqOrd α] in
@[ext] theorem ext {s t : SortedSet α} (h : ∀ a, a ∈ s ↔ a ∈ t) : s = t := by
  cases s with
  | mk xs hx =>
    cases t with
    | mk ys hy =>
      obtain rfl : xs = ys := hx.ext hy h
      rfl

@[simp] theorem contains_iff {s : SortedSet α} {a : α} : s.contains a = true ↔ a ∈ s := by
  rw [contains, Option.isSome_iff_exists]
  constructor
  · rintro ⟨b, hb⟩
    obtain ⟨hm, rfl⟩ := (findBy?_eq_some_iff s.increasing).1 hb
    exact hm
  · exact fun h => ⟨a, (findBy?_eq_some_iff s.increasing).2 ⟨h, rfl⟩⟩

@[simp] theorem mem_insert {s : SortedSet α} {a b : α} : b ∈ s.insert a ↔ b = a ∨ b ∈ s := by
  refine (mem_insertBy s.increasing).trans ⟨Or.imp_right And.left, fun h => ?_⟩
  by_cases e : compare b a = .eq
  · exact .inl (Std.LawfulEqCmp.eq_of_compare e)
  · exact h.imp_right fun m => ⟨m, fun h' => e (by rw [show b = a from h']; exact compare_self _)⟩

omit [Std.TransOrd α] in
@[simp] theorem mem_erase {s : SortedSet α} {a b : α} : b ∈ s.erase a ↔ b ∈ s ∧ b ≠ a := mem_eraseBy

@[simp] theorem mem_diff {s t : SortedSet α} {a : α} : a ∈ s.diff t ↔ a ∈ s ∧ a ∉ t := by
  rw [diff, mem_filter, Bool.not_eq_true', ← Bool.not_eq_true, contains_iff]

@[simp] theorem mem_ofList {xs : List α} {a : α} : a ∈ ofList xs ↔ a ∈ xs := by
  suffices h : ∀ s : SortedSet α, a ∈ xs.foldl insert s ↔ a ∈ s ∨ a ∈ xs by
    simpa [ofList] using h ∅
  induction xs with
  | nil => simp
  | cons x xs ih =>
    intro s
    rw [List.foldl_cons, ih, mem_insert, List.mem_cons]
    exact ⟨fun | .inl (.inl e) => .inr (.inl e) | .inl (.inr h) => .inl h | .inr h => .inr (.inr h),
      fun | .inl h => .inl (.inr h) | .inr (.inl e) => .inl (.inl e) | .inr (.inr h) => .inr h⟩

end SortedSet

end Directory
