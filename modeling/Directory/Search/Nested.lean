import Directory.Search.Leaves

/-!
# Walkers around walkers

Each takes the operations of the walkers inside as an argument.

* `TestedWalker`: the elements of one walker that pass tests. A scan tests all entries, a
  conjunction what one of its conditions gives.
* `EitherWalker`: the elements of several walkers in turn, each entry with the first that has it.
-/

namespace Directory

/-! ## Tests -/

/-- A walker over those elements of another that pass tests. -/
structure TestedWalker (σ : Type) where
  inner : σ
  tests : List Test
  current : Option (Element SearchKey)
  closed : Bool
deriving Inhabited

namespace TestedWalker

variable {σ : Type}

/-- A walker that stands on no element. -/
def of (inner : σ) (tests : List Test) : TestedWalker σ := ⟨inner, tests, none, false⟩

/-- An operation of the walker inside. -/
def onInner {α : Type} (m : EStateM Error σ α) : EStateM Error (TestedWalker σ) α :=
  onPart inner (fun c s => { c with inner := s }) m

def leave : EStateM Error (TestedWalker σ) Unit := modify fun c => { c with current := none }

variable (p : Partition) (n : Navigation σ SearchKey)

/-- Moves the walker inside, and tests the element there. -/
def attempt (w : Way) : EStateM Error (TestedWalker σ) (Option Bool) := do
  if !(← onInner (n.advance w)) then return some false
  let e ← onInner n.element
  match ← Test.accept p (e, (← get).tests) with
  | some e =>
    modify fun c => { c with current := some e }
    return some true
  | none => return none

/-- Moves to the next element that passes. -/
def advance (w : Way) : EStateM Error (TestedWalker σ) Bool := do
  ensureOpen (← get).closed w.name
  leave
  rounds (attempt p n w) (n.size (← get).inner + 1)

/-- Seeks with the walker inside, unless that is refused. -/
def seek (seeking : Seeking) (s : Seek) (id : Option EntryId) (key : SearchKey) :
    EStateM Error (TestedWalker σ) Unit := do
  ensureOpen (← get).closed s.name
  seeking.check s key
  leave
  onInner (n.seek s id key)

/-- The operations, of which some ways of seeking are refused. -/
def navigation (seeking : Seeking) : Navigation (TestedWalker σ) SearchKey :=
  .ofWays (seek n seeking)
    (fun w => do
      ensureOpen (← get).closed w.startName
      leave
      onInner (n.restart w))
    (advance p n)
    (do
      ensureOpen (← get).closed "get()"
      match (← get).current with
      | some e => return e
      | none => throw (.notPositioned "get()"))
    (fun c => !c.closed && c.current.isSome)
    (fun c => { c with inner := n.close c.inner, current := none, closed := true })
    TestedWalker.closed fun c => n.size c.inner

end TestedWalker

/-! ## Several in turn -/

/-- A walker over the elements of several, one after another. An element that the evaluator of an
earlier one accepts is passed over. -/
structure EitherWalker (σ : Type) where
  children : List σ
  evaluators : List Evaluator
  index : Nat
  current : Option (Element SearchKey)
  closed : Bool
deriving Inhabited

namespace EitherWalker

variable {σ : Type}

/-- A walker in front of everything. -/
def of (children : List σ) (evaluators : List Evaluator) : EitherWalker σ :=
  ⟨children, evaluators, 0, none, false⟩

/-- An operation of the walker whose turn it is, if there is one. -/
def onChild {α : Type} (m : EStateM Error σ α) : EStateM Error (EitherWalker σ) (Option α) :=
  fun c =>
    match c.children[c.index]? with
    | none => .ok none c
    | some s => inside (fun s => { c with children := c.children.set c.index s }) ((some <$> m) s)

/-- The tests that the elements of a walker have to pass: no earlier evaluator accepts them. -/
def tests (c : EitherWalker σ) : List Test := (c.evaluators.take c.index).map (⟨·, false⟩)

variable (p : Partition) (n : Navigation σ SearchKey)

/-- Gives another walker its turn, from where the way starts. -/
def enter (w : Way) (index : Nat) : EStateM Error (EitherWalker σ) Unit := do
  modify fun c => { c with index }
  let _ ← onChild (n.restart w)

/-- Moves the walker whose turn it is, or gives the turn to its neighbour. -/
def attempt (w : Way) : EStateM Error (EitherWalker σ) (Option Bool) := do
  match ← onChild (n.advance w) with
  | none => return some false
  | some true =>
    match ← onChild n.element with
    | none => return some false
    | some e =>
      match ← Test.accept p (e, (← get).tests) with
      | some e =>
        modify fun c => { c with current := some e }
        return some true
      | none => return none
  | some false =>
    match w.neighbour? (← get).index (← get).children.length with
    | some i =>
      enter n w i
      return none
    | none => return some false

/-- A number that the elements of all walkers and the turns do not exceed. -/
def size (c : EitherWalker σ) : Nat := c.children.foldr (fun s m => n.size s + 1 + m) 0

/-- Moves to the next element that no earlier evaluator accepts. -/
def advance (w : Way) : EStateM Error (EitherWalker σ) Bool := do
  ensureOpen (← get).closed w.name
  modify fun c => { c with current := none }
  rounds (attempt p n w) (size n (← get) + 1)

/-- Gives the turn to the walker with which the way starts. -/
def restart (w : Way) : EStateM Error (EitherWalker σ) Unit := do
  ensureOpen (← get).closed w.startName
  modify fun c => { c with current := none }
  match w with
  | .forward => enter n w 0
  | .backward => enter n w ((← get).children.length - 1)

/-- The operations of walkers in turn, which do not seek. -/
def navigation : Navigation (EitherWalker σ) SearchKey :=
  .ofWays
    (fun s _ key => do
      ensureOpen (← get).closed s.name
      (Seeking.refused "OrCursor").check s key)
    (restart n) (advance p n)
    (do
      ensureOpen (← get).closed "get()"
      match (← get).current with
      | some e => return e
      | none => throw (.notPositioned "get()"))
    (fun c => !c.closed && c.current.isSome)
    (fun c => { c with children := c.children.map n.close, current := none, closed := true })
    EitherWalker.closed (size n)

end EitherWalker

end Directory
