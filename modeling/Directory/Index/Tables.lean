import Directory.Ident
import Directory.Sorted.Map
import Directory.Sorted.Set

/-!
# Tables of tuples

An index relates keys and entries. Its tuples are kept twice, by key and by entry.

* `Tables`: the two tables and the number of tuples; `Change`: a tuple to add or to drop.
* `Tables.change?`: carries one change out, and says whether it had an effect.
* `Tables.changeAll?`: carries a batch out, and gives the inverses of the changes that had one.
* `Tables.byKey`, `Tables.byId`: all tuples in the order of either table.
-/

namespace Directory

/-- A tuple to add to an index or to drop from it. -/
inductive Change (κ : Type) where
  | add (key : κ) (id : EntryId)
  | drop (key : κ) (id : EntryId)
deriving DecidableEq, Inhabited

/-- The change that takes a change back. -/
def Change.inverse {κ : Type} : Change κ → Change κ
  | add k id => drop k id
  | drop k id => add k id

/-- The tuples of an index by key and by entry, and their number. -/
structure Tables (κ : Type) [Ord κ] where
  forward : SortedMap κ (SortedSet EntryId)
  reverse : SortedMap EntryId (SortedSet κ)
  count : Nat
deriving Inhabited

instance {κ : Type} [Ord κ] [DecidableEq κ] : DecidableEq (Tables κ) := fun s t =>
  decidable_of_iff (s.forward = t.forward ∧ s.reverse = t.reverse ∧ s.count = t.count)
    ⟨fun ⟨h, h', h''⟩ => by cases s; cases t; cases h; cases h'; cases h''; rfl,
      fun h => h ▸ ⟨rfl, rfl, rfl⟩⟩

/-- The map with `k` bound to the set, or unbound if the set is empty. -/
def SortedMap.putSet {α β : Type} [Ord α] [Std.TransOrd α] [Std.LawfulEqOrd α] [Ord β]
    (m : SortedMap α (SortedSet β)) (k : α) (s : SortedSet β) : SortedMap α (SortedSet β) :=
  if s.isEmpty then m.erase k else m.insert k s

namespace Tables

variable {κ : Type} [Ord κ]

/-- No tuples. -/
def empty : Tables κ := ⟨∅, ∅, 0⟩

/-- The entries of a key. -/
def idsOf (t : Tables κ) (k : κ) : SortedSet EntryId := t.forward.getD k ∅

/-- The keys of an entry. -/
def keysOf (t : Tables κ) (id : EntryId) : SortedSet κ := t.reverse.getD id ∅

/-- The table of keys has the tuple. -/
def hasForward (t : Tables κ) (k : κ) (id : EntryId) : Bool := (t.idsOf k).contains id

/-- The table of entries has the tuple. -/
def hasReverse (t : Tables κ) (k : κ) (id : EntryId) : Bool := (t.keysOf id).contains k

/-- The number of tuples of a key. -/
def countOf (t : Tables κ) (k : κ) : Nat := (t.idsOf k).size

/-- The number of keys. -/
def keyCount (t : Tables κ) : Nat := t.forward.size

/-- All tuples by key, then by entry. -/
def byKey (t : Tables κ) : List (κ × EntryId) :=
  t.forward.toList.flatMap fun p => p.2.toList.map (p.1, ·)

/-- All tuples by entry, then by key. -/
def byId (t : Tables κ) : List (κ × EntryId) :=
  t.reverse.toList.flatMap fun p => p.2.toList.map (·, p.1)

variable [Std.TransOrd κ] [Std.LawfulEqOrd κ]

/-- Adds a tuple and says whether it was missing; none if only one table has it. -/
def add? (t : Tables κ) (k : κ) (id : EntryId) : Option (Tables κ × Bool) :=
  match t.hasForward k id, t.hasReverse k id with
  | true, true => some (t, false)
  | false, false =>
    some (⟨t.forward.insert k ((t.idsOf k).insert id), t.reverse.insert id ((t.keysOf id).insert k),
      t.count + 1⟩, true)
  | _, _ => none

/-- Drops a tuple and says whether it was there; none if only one table has it. -/
def drop? (t : Tables κ) (k : κ) (id : EntryId) : Option (Tables κ × Bool) :=
  match t.hasForward k id, t.hasReverse k id with
  | false, false => some (t, false)
  | true, true =>
    some (⟨t.forward.putSet k ((t.idsOf k).erase id), t.reverse.putSet id ((t.keysOf id).erase k),
      t.count - 1⟩, true)
  | _, _ => none

/-- Carries a change out and says whether it had an effect. -/
def change? (t : Tables κ) : Change κ → Option (Tables κ × Bool)
  | .add k id => t.add? k id
  | .drop k id => t.drop? k id

/-- Carries changes out one after another; gives the inverses of those that had an effect. -/
def changeAll? (t : Tables κ) : List (Change κ) → Option (Tables κ × List (Change κ))
  | [] => some (t, [])
  | c :: cs => do
    let (t, changed) ← t.change? c
    let (t, undo) ← t.changeAll? cs
    return (t, if changed then c.inverse :: undo else undo)

end Tables

end Directory
