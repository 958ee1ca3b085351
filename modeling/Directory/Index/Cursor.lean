import Directory.Cursor.Basic
import Directory.Index.Basic

/-!
# Cursors over an index

* `Direction`: the two orders of tuples, by key or by entry first.
* `IndexCursor`: a cursor over all tuples that the index had when it was opened.
* `IndexCursor.navigation`: its operations. Seeking a tuple that is not there leads into the gap
  where it would be.
* `Index.rangeCursor`: a cursor by key, for an index with an order.
-/

namespace Directory

/-- The order in which tuples are walked. -/
inductive Direction where
  /-- By key, then by entry. -/
  | forward
  /-- By entry, then by key. -/
  | reverse
deriving DecidableEq, Inhabited

/-- The order of two tuples. -/
def Direction.compare {κ : Type} [Ord κ] (d : Direction) (s t : κ × EntryId) : Ordering :=
  match d with
  | forward => (Ord.compare s.1 t.1).then (Ord.compare s.2 t.2)
  | reverse => (Ord.compare s.2 t.2).then (Ord.compare s.1 t.1)

/-- The tuples of an index in an order. -/
def Tables.tuples {κ : Type} [Ord κ] (t : Tables κ) : Direction → List (κ × EntryId)
  | .forward => t.byKey
  | .reverse => t.byId

/-- A cursor over the tuples of an index. -/
structure IndexCursor (κ : Type) where
  direction : Direction
  cursor : Cursor κ Unit
deriving DecidableEq, Inhabited

namespace IndexCursor

variable {κ : Type}

/-- A tuple as a candidate, which passes always. -/
def candidate (t : κ × EntryId) : Element κ × Unit := (⟨t.1, t.2, none⟩, ())

/-- Every candidate is kept. -/
def accept (c : Element κ × Unit) : Except Error (Option (Element κ)) := .ok (some c.1)

/-- The number of tuples. -/
def size (c : IndexCursor κ) : Nat := c.cursor.track.length

/-- An operation of the cursor inside. -/
def lift {α : Type} (m : EStateM Error (Cursor κ Unit) α) : EStateM Error (IndexCursor κ) α :=
  onPart cursor (fun c k => { c with cursor := k }) m

variable [Ord κ]

/-- A cursor over tables in an order. -/
def ofTables (t : Tables κ) (d : Direction) : IndexCursor κ :=
  ⟨d, .ofList ((t.tuples d).map candidate)⟩

/-- Goes in front of the tuple, or of its gap. -/
def seekBefore (k : κ) (id : EntryId) : EStateM Error (IndexCursor κ) Unit := do
  let d := (← get).direction
  lift (Cursor.seek fun e => d.compare (e.key, e.id) (k, id) != .lt)

/-- Goes behind the tuple, or to its gap. -/
def seekAfter (k : κ) (id : EntryId) : EStateM Error (IndexCursor κ) Unit := do
  let d := (← get).direction
  lift (Cursor.seek fun e => d.compare (e.key, e.id) (k, id) == .gt)

def before (e : Element κ) : EStateM Error (IndexCursor κ) Unit := do
  lift (Cursor.checkOpen "before()")
  seekBefore e.key e.id

def after (e : Element κ) : EStateM Error (IndexCursor κ) Unit := do
  lift (Cursor.checkOpen "after()")
  seekAfter e.key e.id

/-- Goes in front of the first tuple of the key, or in front of everything if entries lead. -/
def beforeValue (id : Option EntryId) (k : κ) : EStateM Error (IndexCursor κ) Unit := do
  lift (Cursor.checkOpen "before_value()")
  match id, (← get).direction with
  | some id, _ => seekBefore k id
  | none, .forward => seekBefore k .least
  | none, .reverse => lift (Cursor.place Track.rewind)

/-- Goes behind the last tuple of the key, or behind everything if entries lead. -/
def afterValue (id : Option EntryId) (k : κ) : EStateM Error (IndexCursor κ) Unit := do
  lift (Cursor.checkOpen "after_value()")
  match id, (← get).direction with
  | some id, _ => seekAfter k id
  | none, .forward => seekAfter k .greatest
  | none, .reverse => lift (Cursor.place Track.wind)

/-- The operations of cursors over an index. -/
def navigation : Navigation (IndexCursor κ) κ where
  before := before
  after := after
  beforeValue := beforeValue
  afterValue := afterValue
  beforeFirst := lift Cursor.beforeFirst
  afterLast := lift Cursor.afterLast
  next := lift (Cursor.next accept)
  previous := lift (Cursor.previous accept)
  element := lift Cursor.element
  available c := c.cursor.available
  close c := { c with cursor := c.cursor.close }
  closed c := c.cursor.closed
  size := size

end IndexCursor

namespace Index

variable {κ : Type} [Ord κ]

/-- A cursor over the tuples in an order. -/
def cursor (x : Index κ) (d : Direction) : IndexCursor κ := .ofTables x.tables d

/-- A cursor by key; the index has to be ordered. -/
def rangeCursor (x : Index κ) : Except Error (IndexCursor κ) := do
  x.checkOrdered "range_cursor"
  return x.cursor .forward

end Index

end Directory
