import Directory.Error
import Directory.Index.Tables

/-!
# Indices

An index is a named relation between keys and entries. Where the keys are ordered it also answers
questions about ranges of keys.

* `Index`: the type; `apply` carries a batch of changes out, `dropId` drops an entry.
* `ids`, `has`, `key?`, `keys`: the relation in both directions.
* `atLeastCount`, `atMostCount`, `hasAtLeast`, `hasAtMost`: ranges, which include their bound.
-/

namespace Directory

/-- A named relation between keys and entries. -/
structure Index (κ : Type) [Ord κ] where
  name : String
  ordered : Bool
  tables : Tables κ
deriving Inhabited

instance {κ : Type} [Ord κ] [DecidableEq κ] : DecidableEq (Index κ) := fun s t =>
  decidable_of_iff (s.name = t.name ∧ s.ordered = t.ordered ∧ s.tables = t.tables)
    ⟨fun ⟨h, h', h''⟩ => by cases s; cases t; cases h; cases h'; cases h''; rfl,
      fun h => h ▸ ⟨rfl, rfl, rfl⟩⟩

namespace Index

variable {κ : Type} [Ord κ]

/-- An index without tuples. -/
def empty (name : String) (ordered : Bool) : Index κ := ⟨name, ordered, .empty⟩

/-! ## The relation -/

/-- The entries of a key. -/
def ids (x : Index κ) (k : κ) : List EntryId := (x.tables.idsOf k).toList

def has (x : Index κ) (k : κ) (id : EntryId) : Bool := x.tables.hasForward k id

/-- The keys of an entry. -/
def keys (x : Index κ) (id : EntryId) : List κ := (x.tables.keysOf id).toList

/-- The least key of an entry. -/
def key? (x : Index κ) (id : EntryId) : Option κ := (x.tables.keysOf id).min?

/-- The number of tuples. -/
def count (x : Index κ) : Nat := x.tables.count

/-- The number of tuples of a key. -/
def countOf (x : Index κ) (k : κ) : Nat := x.tables.countOf k

/-- The number of keys. -/
def keyCount (x : Index κ) : Nat := x.tables.keyCount

/-! ## Ranges -/

/-- Refuses an operation that needs an order. -/
def checkOrdered (x : Index κ) (operation : String) : Except Error Unit :=
  if x.ordered then .ok () else .error (.unorderedIndex operation x.name)

/-- The number of tuples whose key satisfies `p`. -/
def countWhere (x : Index κ) (p : κ → Bool) : Nat :=
  x.tables.forward.toList.foldr (fun b n => if p b.1 then b.2.size + n else n) 0

/-- The number of tuples whose key is `k` or above. -/
def atLeastCount (x : Index κ) (k : κ) : Except Error Nat := do
  x.checkOrdered "greater_than_count"
  return x.countWhere fun l => (compare k l).isLE

/-- The number of tuples whose key is `k` or below. -/
def atMostCount (x : Index κ) (k : κ) : Except Error Nat := do
  x.checkOrdered "less_than_count"
  return x.countWhere fun l => (compare l k).isLE

/-- The entry has a key that is `k` or above. -/
def hasAtLeast (x : Index κ) (id : EntryId) (k : κ) : Except Error Bool := do
  x.checkOrdered "reverse_greater_or_eq"
  return (x.keys id).any fun l => (compare k l).isLE

/-- The entry has a key that is `k` or below. -/
def hasAtMost (x : Index κ) (id : EntryId) (k : κ) : Except Error Bool := do
  x.checkOrdered "reverse_less_or_eq"
  return (x.keys id).any fun l => (compare l k).isLE

/-! ## Changes -/

variable [Std.TransOrd κ] [Std.LawfulEqOrd κ]

/-- Carries a batch of changes out; gives the inverses of those that had an effect. -/
def apply (x : Index κ) (changes : List (Change κ)) : Except Error (Index κ × List (Change κ)) :=
  match x.tables.changeAll? changes with
  | some (t, undo) => .ok (⟨x.name, x.ordered, t⟩, undo)
  | none => .error (.tablesDisagree x.name)

/-- Adds a tuple. -/
def add (x : Index κ) (k : κ) (id : EntryId) : Except Error (Index κ) := do
  return (← x.apply [.add k id]).1

/-- Drops a tuple. -/
def drop (x : Index κ) (k : κ) (id : EntryId) : Except Error (Index κ) := do
  return (← x.apply [.drop k id]).1

/-- Drops all tuples of an entry and gives their keys. -/
def dropId (x : Index κ) (id : EntryId) : Except Error (Index κ × List κ) := do
  let keys := x.keys id
  let (x, _) ← x.apply (keys.map (.drop · id))
  return (x, keys)

end Index

end Directory
