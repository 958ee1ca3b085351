import Directory.Cursor.Track
import Directory.Entry
import Directory.Error

/-!
# Cursors

A cursor stands at a place in a list of candidates. It moves to the candidates that pass their
tests, both ways, until it is closed.

* `Element`: what a cursor stands on, a key, an entry number and perhaps the record read for it.
* `Cursor`: the place, the element found there, and whether the cursor is closed. The functions that
  move it take `accept`, which tests a candidate and gives its element.
* `Navigation`: the operations of one kind of cursor, with `first`, `last`, `collect` and `walk`
  built from them.
-/

namespace Directory

/-- What a cursor stands on. The record is a copy, which later writes do not reach. -/
structure Element (κ : Type) where
  key : κ
  id : EntryId
  entry : Option Entry
deriving DecidableEq, Inhabited

/-- A place in a list of candidates, each with tests of type `τ`. -/
structure Cursor (κ τ : Type) where
  track : Track (Element κ × τ)
  current : Option (Element κ)
  closed : Bool
deriving DecidableEq, Inhabited

namespace Cursor

variable {κ τ : Type}

/-- A cursor before the first of its candidates. -/
def ofList (candidates : List (Element κ × τ)) : Cursor κ τ := ⟨.start candidates, none, false⟩

/-- The candidates. -/
def candidates (c : Cursor κ τ) : List (Element κ × τ) := c.track.toList

/-- Refuses an operation on a closed cursor. -/
def checkOpen (operation : String) : EStateM Error (Cursor κ τ) Unit := do
  if (← get).closed then throw (.cursorClosed operation)

/-- Puts the cursor at another place of its track, on no element. -/
def place (f : Track (Element κ × τ) → Track (Element κ × τ)) : EStateM Error (Cursor κ τ) Unit :=
  modify fun c => { c with track := f c.track, current := none }

/-- Puts the cursor in front of the first candidate whose element satisfies `p`. -/
def seek (p : Element κ → Bool) : EStateM Error (Cursor κ τ) Unit := place (·.seek (p ·.1))

def beforeFirst : EStateM Error (Cursor κ τ) Unit := do
  checkOpen "before_first()"
  place Track.rewind

def afterLast : EStateM Error (Cursor κ τ) Unit := do
  checkOpen "after_last()"
  place Track.wind

/-- Takes over where a movement led, and what was found there. -/
def land (moved : Except Error (Option (Element κ)) × Track (Element κ × τ)) :
    EStateM Error (Cursor κ τ) Bool := do
  match moved with
  | (.ok found, t) =>
    modify fun c => { c with track := t, current := found }
    return found.isSome
  | (.error e, t) =>
    modify fun c => { c with track := t, current := none }
    throw e

/-- Moves to the next candidate that passes its tests, and says whether there is one. -/
def next (accept : Element κ × τ → Except Error (Option (Element κ))) :
    EStateM Error (Cursor κ τ) Bool := do
  checkOpen "next()"
  land ((← get).track.next accept)

/-- Moves to the candidate before the place that passes its tests, and says whether there is one. -/
def previous (accept : Element κ × τ → Except Error (Option (Element κ))) :
    EStateM Error (Cursor κ τ) Bool := do
  checkOpen "previous()"
  land ((← get).track.previous accept)

/-- The element at the place. -/
def element : EStateM Error (Cursor κ τ) (Element κ) := do
  checkOpen "get()"
  match (← get).current with
  | some e => return e
  | none => throw (.notPositioned "get()")

/-- The cursor stands on an element. -/
def available (c : Cursor κ τ) : Bool := !c.closed && c.current.isSome

/-- The cursor after it is closed. -/
def close (c : Cursor κ τ) : Cursor κ τ := { c with current := none, closed := true }

end Cursor

/-- An operation on a part of a state, as one on the whole. -/
def onPart {σ ρ α : Type} (part : σ → ρ) (put : σ → ρ → σ) (m : EStateM Error ρ α) :
    EStateM Error σ α := fun s =>
  match m (part s) with
  | .ok a r => .ok a (put s r)
  | .error e r => .error e (put s r)

/-- The operations of a kind of cursor with states `σ` and keys `κ`. -/
structure Navigation (σ κ : Type) where
  before : Element κ → EStateM Error σ Unit
  after : Element κ → EStateM Error σ Unit
  beforeValue : Option EntryId → κ → EStateM Error σ Unit
  afterValue : Option EntryId → κ → EStateM Error σ Unit
  beforeFirst : EStateM Error σ Unit
  afterLast : EStateM Error σ Unit
  next : EStateM Error σ Bool
  previous : EStateM Error σ Bool
  element : EStateM Error σ (Element κ)
  available : σ → Bool
  close : σ → σ
  closed : σ → Bool
  /-- A number that no walk exceeds. -/
  size : σ → Nat

namespace Navigation

variable {σ κ : Type}

/-- Moves to the first element. -/
def first (n : Navigation σ κ) : EStateM Error σ Bool := do
  n.beforeFirst
  n.next

/-- Moves to the last element. -/
def last (n : Navigation σ κ) : EStateM Error σ Bool := do
  n.afterLast
  n.previous

/-- The elements of at most `m` successful moves. -/
def elements (n : Navigation σ κ) (move : EStateM Error σ Bool) :
    (m : Nat) → EStateM Error σ (List (Element κ))
  | 0 => return []
  | m + 1 => do
    if ← move then
      let e ← n.element
      let es ← n.elements move m
      return e :: es
    else return []

/-- The elements from the place to the end. -/
def walk (n : Navigation σ κ) : EStateM Error σ (List (Element κ)) := do
  n.elements n.next (n.size (← get) + 1)

/-- The elements from the place back to the start. -/
def walkBack (n : Navigation σ κ) : EStateM Error σ (List (Element κ)) := do
  n.elements n.previous (n.size (← get) + 1)

/-- The entries of all elements, in order. -/
def collect (n : Navigation σ κ) : EStateM Error σ (List EntryId) := do
  n.beforeFirst
  return (← n.walk).map Element.id

/-- The entries of all elements, last first. -/
def collectReverse (n : Navigation σ κ) : EStateM Error σ (List EntryId) := do
  n.afterLast
  return (← n.walkBack).map Element.id

end Navigation

end Directory
