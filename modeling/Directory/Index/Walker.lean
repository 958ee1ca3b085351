import Directory.Cursor.Place
import Directory.Index.Cursor

/-!
# Walkers over an index

A walker holds the two tables of an index and a place among the tuples, and looks each neighbour up
in the table of its direction: first among the tuples under the same key, then at the edge of the
nearest key that has tuples.

* `edgeTuple`, `seekTuple`: the searches in a table.
* `IndexWalker`: the state; `IndexWalker.navigation`: its operations.
* `Index.walker`, `Index.rangeWalker`: walkers over an index as it is now.
-/

namespace Directory

/-! ## Searches in a table -/

section Tuples

variable {α β : Type} [Ord α] [Ord β]

/-- The first tuple of bindings, which are met in this order. -/
def edgeTuple (w : Way) (bs : List (α × SortedSet β)) : Option (α × β) :=
  bs.findSome? fun b => (w.list b.2.toList).head?.map (b.1, ·)

/-- The first tuple of a table that is met from `(a, b)`, which may be that tuple itself. -/
def seekTuple (w : Way) (included : Bool) (m : SortedMap α (SortedSet β)) (a : α) (b : β) :
    Option (α × β) :=
  let here := (m.get? a).bind fun s => (w.list s.toList).find? (w.meets included compare b)
  match here with
  | some y => some (a, y)
  | none => edgeTuple w ((w.list m.toList).filter fun x => w.order compare a x.1 == .lt)

end Tuples

namespace Tables

variable {κ : Type} [Ord κ]

/-- The first tuple that is met on a way. -/
def edge? (t : Tables κ) (d : Direction) (w : Way) : Option (κ × EntryId) :=
  match d with
  | .forward => edgeTuple w (w.list t.forward.toList)
  | .reverse => (edgeTuple w (w.list t.reverse.toList)).map Prod.swap

/-- The first tuple that is met from a tuple, which need not be there. -/
def seek? (t : Tables κ) (d : Direction) (w : Way) (included : Bool) (u : κ × EntryId) :
    Option (κ × EntryId) :=
  match d with
  | .forward => seekTuple w included t.forward u.1 u.2
  | .reverse => (seekTuple w included t.reverse u.2 u.1).map Prod.swap

end Tables

/-! ## Walkers -/

/-- A walker over the tuples of an index. -/
structure IndexWalker (κ : Type) [Ord κ] where
  tables : Tables κ
  direction : Direction
  place : Place (κ × EntryId)
  closed : Bool
deriving Inhabited

namespace IndexWalker

variable {κ : Type} [Ord κ]

/-- A walker before the first tuple. -/
def ofTables (t : Tables κ) (d : Direction) : IndexWalker κ := ⟨t, d, .beforeFirst, false⟩

/-- The first tuple that is met from the place. -/
def neighbour? (c : IndexWalker κ) (w : Way) : Option (κ × EntryId) :=
  match c.place with
  | .beforeFirst => if w = .forward then c.tables.edge? c.direction w else none
  | .afterLast => if w = .backward then c.tables.edge? c.direction w else none
  | .on u => c.tables.seek? c.direction w false u
  | .before u => c.tables.seek? c.direction w (w = .forward) u
  | .after u => c.tables.seek? c.direction w (w = .backward) u

def goTo (pl : Place (κ × EntryId)) : EStateM Error (IndexWalker κ) Unit :=
  modify fun c => { c with place := pl }

/-- Goes to where a way starts. -/
def restart (w : Way) : EStateM Error (IndexWalker κ) Unit := do
  ensureOpen (← get).closed w.startName
  goTo (.start w)

/-- Moves to the next tuple on a way, and says whether there is one. -/
def advance (w : Way) : EStateM Error (IndexWalker κ) Bool := do
  ensureOpen (← get).closed w.name
  let found := (← get).neighbour? w
  goTo (.landed w id found)
  return found.isSome

def before (e : Element κ) : EStateM Error (IndexWalker κ) Unit := do
  ensureOpen (← get).closed "before()"
  goTo (.before (e.key, e.id))

def after (e : Element κ) : EStateM Error (IndexWalker κ) Unit := do
  ensureOpen (← get).closed "after()"
  goTo (.after (e.key, e.id))

/-- Goes in front of the first tuple of the key, or in front of everything if entries lead. -/
def beforeValue (id : Option EntryId) (k : κ) : EStateM Error (IndexWalker κ) Unit := do
  ensureOpen (← get).closed "before_value()"
  match id, (← get).direction with
  | some id, _ => goTo (.before (k, id))
  | none, .forward => goTo (.before (k, .least))
  | none, .reverse => goTo .beforeFirst

/-- Goes behind the last tuple of the key, or behind everything if entries lead. -/
def afterValue (id : Option EntryId) (k : κ) : EStateM Error (IndexWalker κ) Unit := do
  ensureOpen (← get).closed "after_value()"
  match id, (← get).direction with
  | some id, _ => goTo (.after (k, id))
  | none, .forward => goTo (.after (k, .greatest))
  | none, .reverse => goTo .afterLast

/-- The tuple at the place. -/
def element : EStateM Error (IndexWalker κ) (Element κ) := do
  ensureOpen (← get).closed "get()"
  match (← get).place with
  | .on u => return ⟨u.1, u.2, none⟩
  | _ => throw (.notPositioned "get()")

/-- The operations of walkers over an index. -/
def navigation : Navigation (IndexWalker κ) κ where
  before := before
  after := after
  beforeValue := beforeValue
  afterValue := afterValue
  beforeFirst := restart .forward
  afterLast := restart .backward
  next := advance .forward
  previous := advance .backward
  element := element
  available c := !c.closed && c.place.isOn
  close c := { c with closed := true }
  closed c := c.closed
  size c := (c.tables.tuples c.direction).length

end IndexWalker

namespace Index

variable {κ : Type} [Ord κ]

/-- A walker over the tuples in an order. -/
def walker (x : Index κ) (d : Direction) : IndexWalker κ := .ofTables x.tables d

/-- A walker by key; the index has to be ordered. -/
def rangeWalker (x : Index κ) : Except Error (IndexWalker κ) := do
  x.checkOrdered "range_cursor"
  return x.walker .forward

end Index

end Directory
