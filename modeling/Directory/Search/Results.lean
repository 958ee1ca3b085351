import Directory.Search.Cursor

/-!
# Results

The results of a search are a search cursor whose elements hold the record that is stored when they
are reached; entries that are gone by then are passed over.

* `SearchResults`: the cursor, the greatest number of entries to give, and the number given since
  the cursor was last put before or after everything. Only forward movements count.
* `SearchResults.navigation`: its operations on a partition.
* `SearchResults.step`, `SearchResults.drain`: the entries one by one, up to the first error.
-/

namespace Directory

/-- The results of a search. -/
structure SearchResults where
  search : SearchCursor
  limit : Option Nat
  returned : Nat
  limitReached : Bool
  failed : Bool
deriving Inhabited

namespace SearchResults

/-- Results before the first, none of which is given yet. -/
def ofCursor (c : SearchCursor) (limit : Option Nat) : SearchResults := ⟨c, limit, 0, false, false⟩

/-- A candidate that passes its tests and is stored, with the stored record. -/
def accept (p : Partition) (c : Candidate) : Except Error (Option (Element SearchKey)) := do
  match ← Test.accept p c with
  | none => return none
  | some e => return (p.get? e.id).map fun entry => { e with entry := some entry }

/-- An operation of the cursor inside. -/
def lift {α : Type} (m : EStateM Error SearchCursor α) : EStateM Error SearchResults α :=
  onPart search (fun r c => { r with search := c }) m

/-- An operation of the walk inside. -/
def liftWalk {α : Type} (m : EStateM Error (Cursor SearchKey (List Test)) α) :
    EStateM Error SearchResults α :=
  lift (SearchCursor.lift m)

/-- Leaves the current element; the place stays. -/
def leave : EStateM Error SearchResults Unit := liftWalk (Cursor.place id)

/-- Seeks as the cursor inside does. The current element is left even if that is refused. -/
def seek (s : Seek) (id : Option EntryId) (key : SearchKey) : EStateM Error SearchResults Unit := do
  liftWalk (Cursor.checkOpen s.name)
  leave
  lift (SearchCursor.seek s id key)

/-- Goes to an end of the results and counts anew from there. -/
def restart (m : EStateM Error (Cursor SearchKey (List Test)) Unit) :
    EStateM Error SearchResults Unit := do
  liftWalk m
  modify fun r => { r with returned := 0, limitReached := false }

/-- No more entries may be given. -/
def isFull (r : SearchResults) : Bool := r.limit.any (· ≤ r.returned)

/-- Moves to the next entry, unless the limit is reached. -/
def next (p : Partition) : EStateM Error SearchResults Bool := do
  liftWalk (Cursor.checkOpen "next()")
  if (← get).isFull then
    leave
    modify fun r => { r with limitReached := true }
    return false
  let found ← liftWalk (Cursor.next (accept p))
  if found then modify fun r => { r with returned := r.returned + 1 }
  return found

/-- Moves to the previous entry. -/
def previous (p : Partition) : EStateM Error SearchResults Bool :=
  liftWalk (Cursor.previous (accept p))

/-- The operations of results on a partition. -/
def navigation (p : Partition) : Navigation SearchResults SearchKey where
  before e := seek .before (some e.id) e.key
  after e := seek .after (some e.id) e.key
  beforeValue := seek .beforeValue
  afterValue := seek .afterValue
  beforeFirst := restart Cursor.beforeFirst
  afterLast := restart Cursor.afterLast
  next := next p
  previous := previous p
  element := liftWalk Cursor.element
  available r := r.search.cursor.available
  close r := { r with search := { r.search with cursor := r.search.cursor.close } }
  closed r := r.search.cursor.closed
  size r := r.search.size

/-- The record at the place. -/
def entry (r : SearchResults) : Except Error Entry :=
  match r.search.cursor.current.bind Element.entry with
  | some e => .ok e
  | none => .error (.notPositioned "entry()")

/-- Moves on, and gives the entry there. After an error there are no more. -/
def step (p : Partition) (r : SearchResults) : Option (Except Error Entry) × SearchResults :=
  if r.failed then (none, r)
  else
    match next p r with
    | .ok true r =>
      match r.entry with
      | .ok e => (some (.ok e), r)
      | .error e => (some (.error e), { r with failed := true })
    | .ok false r => (none, r)
    | .error e r => (some (.error e), { r with failed := true })

/-- What at most `n` steps give. -/
def drainWithin (p : Partition) : (n : Nat) → SearchResults →
    List (Except Error Entry) × SearchResults
  | 0, r => ([], r)
  | n + 1, r =>
    match r.step p with
    | (none, r) => ([], r)
    | (some x, r) =>
      let (xs, r) := drainWithin p n r
      (x :: xs, r)

/-- All entries from the place on, up to the first error. -/
def drain (p : Partition) (r : SearchResults) : List (Except Error Entry) × SearchResults :=
  drainWithin p (r.search.size + 2) r

end SearchResults

end Directory
