import Directory.Cursor.Basic

/-!
# Places in ordered lists

A cursor that does not hold the list it walks remembers an end, an element or a gap, and looks its
neighbour up when it is moved.

* `Way`: the two ways to walk. What is done both ways alike is defined once for both.
* `Place`: where such a cursor stands; `Place.meets`, `Place.neighbour?`: the elements that are met
  from there, and the first of these in a list.
* `inside`: the result of an operation on a state inside another; `rounds`: attempts up to the first
  that has an answer; `ensureOpen`: the refusal of a closed cursor.
-/

namespace Directory

/-! ## Ways -/

/-- The two ways to walk. -/
inductive Way where
  | forward
  | backward
deriving DecidableEq, Inhabited

namespace Way

variable {α : Type}

def opposite : Way → Way
  | forward => backward
  | backward => forward

/-- The name of a movement. -/
def name : Way → String
  | forward => "next()"
  | backward => "previous()"

/-- The name of the operation that goes to where the way starts. -/
def startName : Way → String
  | forward => "before_first()"
  | backward => "after_last()"

/-- A list in the order in which its elements are met. -/
def list (w : Way) (xs : List α) : List α :=
  match w with
  | forward => xs
  | backward => xs.reverse

/-- The order in which elements are met. -/
def order (w : Way) (cmp : α → α → Ordering) (a b : α) : Ordering :=
  match w with
  | forward => cmp a b
  | backward => cmp b a

/-- The second is met from the first, or is the first where this counts. -/
def meets (w : Way) (included : Bool) (cmp : α → α → Ordering) (a b : α) : Bool :=
  w.order cmp a b == .lt || (included && cmp a b == .eq)

/-- The number after or before `i` of those below `n`. -/
def neighbour? (w : Way) (i n : Nat) : Option Nat :=
  match w, i with
  | forward, i => if i + 1 < n then some (i + 1) else none
  | backward, 0 => none
  | backward, i + 1 => some i

end Way

/-! ## Places -/

/-- Where a cursor stands: at an end, on an element, or in the gap in front of an element or behind
it. A gap is what a search leads to; the element need not exist. -/
inductive Place (α : Type) where
  | beforeFirst
  | afterLast
  | on (a : α)
  | before (a : α)
  | after (a : α)
deriving DecidableEq, Inhabited

namespace Place

variable {α β : Type}

/-- Where a way starts. -/
def start : Way → Place α
  | .forward => beforeFirst
  | .backward => afterLast

/-- The gap in front of an element or behind it. -/
def gap (behind : Bool) (a : α) : Place α := if behind then after a else before a

/-- The place is an element. -/
def isOn : Place α → Bool
  | on _ => true
  | _ => false

/-- An element is met from the place. -/
def meets (w : Way) (cmp : α → α → Ordering) : Place α → α → Bool
  | beforeFirst, _ => w = .forward
  | afterLast, _ => w = .backward
  | on a, b => w.meets false cmp a b
  | before a, b => w.meets (w = .forward) cmp a b
  | after a, b => w.meets (w = .backward) cmp a b

/-- The first element of an ordered list that is met from the place. -/
def neighbour? (w : Way) (cmp : α → α → Ordering) (key : β → α) (xs : List β) (pl : Place α) :
    Option β :=
  (w.list xs).find? fun x => pl.meets w cmp (key x)

/-- Where a search for the neighbour leads: on what was found, or to where the other way starts. -/
def landed (w : Way) (key : β → α) : Option β → Place α
  | some x => on (key x)
  | none => start w.opposite

end Place

/-! ## Operations -/

/-- A result with a state inside another. -/
def inside {σ ρ α : Type} (wrap : σ → ρ) :
    EStateM.Result Error σ α → EStateM.Result Error ρ α
  | .ok a s => .ok a (wrap s)
  | .error e s => .error e (wrap s)

/-- Makes attempts until one has an answer, at most `n`. -/
def rounds {σ : Type} (attempt : EStateM Error σ (Option Bool)) : (n : Nat) → EStateM Error σ Bool
  | 0 => return false
  | n + 1 => do
    match ← attempt with
    | some found => return found
    | none => rounds attempt n

/-- Refuses an operation on a closed cursor. -/
def ensureOpen {σ : Type} (closed : Bool) (operation : String) : EStateM Error σ Unit :=
  if closed then throw (.cursorClosed operation) else return ()

end Directory
