import Directory.Search.Evaluator

/-!
# Search cursors

A search cursor walks a list of candidates that was drawn up when it was built. Each candidate comes
with tests, which are made when the cursor reaches it.

* `Test`, `accept`: an evaluator with the result that keeps a candidate, and all tests of one.
* `Seeking`: how a cursor looks for a tuple, and which tuples it refuses to look for.
* `SearchCursor`: the candidates, the place and the way of seeking.
* `SearchCursor.navigation`: its operations on a partition.
-/

namespace Directory

/-! ## Tests of a candidate -/

/-- An evaluator, and the result for which a candidate is kept. -/
structure Test where
  evaluator : Evaluator
  expected : Bool
deriving Inhabited

/-- An element with the tests that it has still to pass. -/
abbrev Candidate := Element SearchKey × List Test

/-- The candidate with more tests, which come last. -/
def Candidate.withTests (c : Candidate) (ts : List Test) : Candidate := (c.1, c.2 ++ ts)

namespace Test

/-- All tests have the expected results; those after the first that has not are left out. -/
def passAll (p : Partition) : List Test → EStateM Error (Element SearchKey) Bool
  | [] => return true
  | t :: ts => do
    if (← t.evaluator.evaluate p) == t.expected then passAll p ts else return false

/-- The element of a candidate that passes its tests, with the record that they read last. -/
def accept (p : Partition) (c : Candidate) : Except Error (Option (Element SearchKey)) :=
  match passAll p c.2 c.1 with
  | .ok true e => .ok (some e)
  | .ok false _ => .ok none
  | .error e _ => .error e

end Test

/-! ## Seeking -/

/-- The ways to name a place: in front of an element or behind it, and in front of all elements of a
key or behind them. -/
inductive Seek where
  | before
  | after
  | beforeValue
  | afterValue
deriving DecidableEq, Inhabited

namespace Seek

def name : Seek → String
  | before => "before()"
  | after => "after()"
  | beforeValue => "before_value()"
  | afterValue => "after_value()"

/-- The place is named by a key. -/
def isByValue : Seek → Bool
  | before | after => false
  | beforeValue | afterValue => true

/-- The place is behind what is named. -/
def isBehind : Seek → Bool
  | before | beforeValue => false
  | after | afterValue => true

/-- The entry that is meant where none is named. -/
def standIn (s : Seek) : EntryId := if s.isBehind then .greatest else .least

end Seek

/-- How a cursor looks for a tuple. -/
inductive Seeking where
  /-- By entry alone. -/
  | byEntry
  /-- By entry alone; a key is refused where the place is named by it. -/
  | scan
  /-- By key where there is one, then by entry. -/
  | byKey
  /-- By key, which is needed, then by entry: in a range of keys. -/
  | inRange
  /-- By key, which is needed, then by entry: among keys with given pieces. -/
  | amongPieces
  /-- Not at all; the word names the kind of cursor. -/
  | refused (kind : String)
deriving DecidableEq, Inhabited

namespace Seeking

/-- Refuses a place that the cursor cannot look for. -/
def check (s : Seeking) (place : Seek) (key : SearchKey) : Except Error Unit :=
  match s, key with
  | scan, some _ =>
    if place.isByValue then .error (.notSupported s!"FilteredCursor::{place.name} by value")
    else .ok ()
  | inRange, none => .error (.seekNeedsValue place.name)
  | amongPieces, none => .error .pieceSeekNeedsValue
  | refused kind, _ => .error (.notSupported s!"{kind}::{place.name}")
  | _, _ => .ok ()

/-- The order of an element and the tuple that is looked for. -/
def compare (s : Seeking) (e : Element SearchKey) (key : SearchKey) (id : EntryId) : Ordering :=
  match s, e.key, key with
  | byEntry, _, _ | scan, _, _ => Ord.compare e.id id
  | _, some k, some l => (Ord.compare k l).then (Ord.compare e.id id)
  | _, _, _ => Ord.compare e.id id

end Seeking

/-! ## The cursor -/

/-- A walk over candidates. -/
structure SearchCursor where
  seeking : Seeking
  cursor : Cursor SearchKey (List Test)
deriving Inhabited

namespace SearchCursor

/-- A cursor before the first of its candidates. -/
def ofList (s : Seeking) (candidates : List Candidate) : SearchCursor := ⟨s, .ofList candidates⟩

/-- The candidates, wherever the cursor stands. -/
def candidates (c : SearchCursor) : List Candidate := c.cursor.candidates

/-- The number of candidates. -/
def size (c : SearchCursor) : Nat := c.cursor.track.length

/-- An operation of the cursor inside. -/
def lift {α : Type} (m : EStateM Error (Cursor SearchKey (List Test)) α) :
    EStateM Error SearchCursor α :=
  onPart cursor (fun c k => { c with cursor := k }) m

/-- Goes to the place in front of a tuple or behind it, or to the gap where it would be. -/
def seek (s : Seek) (id : Option EntryId) (key : SearchKey) : EStateM Error SearchCursor Unit := do
  lift (Cursor.checkOpen s.name)
  let seeking := (← get).seeking
  seeking.check s key
  let passed (e : Element SearchKey) : Bool :=
    match seeking.compare e key (id.getD s.standIn) with
    | .lt => true
    | .eq => s.isBehind
    | .gt => false
  lift (Cursor.seek fun e => !passed e)

/-- The operations of search cursors on a partition. -/
def navigation (p : Partition) : Navigation SearchCursor SearchKey where
  before e := seek .before (some e.id) e.key
  after e := seek .after (some e.id) e.key
  beforeValue := seek .beforeValue
  afterValue := seek .afterValue
  beforeFirst := lift Cursor.beforeFirst
  afterLast := lift Cursor.afterLast
  next := lift (Cursor.next (Test.accept p))
  previous := lift (Cursor.previous (Test.accept p))
  element := lift Cursor.element
  available c := c.cursor.available
  close c := { c with cursor := c.cursor.close }
  closed c := c.cursor.closed
  size := size

end SearchCursor

end Directory
