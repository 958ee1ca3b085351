import Directory.Index.Walker
import Directory.Search.Cursor

/-!
# Walkers over entries

The search cursors that have no cursor inside. Each remembers a place and looks its neighbour up.

* `Navigation.advance`, `Navigation.restart`, `Navigation.seek`: the operations of a cursor by way
  and by kind of place; `Navigation.ofWays`: a cursor given by them.
* `EmptyWalker`, `SingleWalker`: no element, and one.
* `MasterWalker`: all entries; `KeyWalker`: the entries of a key of an index.
* `ScopeWalker`: the entries of a scope, in two parts.
-/

namespace Directory

/-! ## Operations by way -/

namespace Navigation

variable {σ κ : Type}

/-- Moves on a way. -/
def advance (n : Navigation σ κ) : Way → EStateM Error σ Bool
  | .forward => n.next
  | .backward => n.previous

/-- Goes to where a way starts. -/
def restart (n : Navigation σ κ) : Way → EStateM Error σ Unit
  | .forward => n.beforeFirst
  | .backward => n.afterLast

/-- Goes to a place that is named by an entry, a key or both. -/
def seek (n : Navigation σ κ) (s : Seek) (id : Option EntryId) (key : κ) : EStateM Error σ Unit :=
  match s with
  | .before => n.before ⟨key, id.getD .least, none⟩
  | .after => n.after ⟨key, id.getD .greatest, none⟩
  | .beforeValue => n.beforeValue id key
  | .afterValue => n.afterValue id key

/-- A cursor given by what it does on either way. -/
def ofWays (seek : Seek → Option EntryId → κ → EStateM Error σ Unit)
    (restart : Way → EStateM Error σ Unit) (advance : Way → EStateM Error σ Bool)
    (element : EStateM Error σ (Element κ)) (available : σ → Bool) (close : σ → σ)
    (closed : σ → Bool) (size : σ → Nat) : Navigation σ κ where
  before e := seek .before (some e.id) e.key
  after e := seek .after (some e.id) e.key
  beforeValue := seek .beforeValue
  afterValue := seek .afterValue
  beforeFirst := restart .forward
  afterLast := restart .backward
  next := advance .forward
  previous := advance .backward
  element := element
  available := available
  close := close
  closed := closed
  size := size

end Navigation

/-! ## No element -/

/-- A walker over nothing. -/
structure EmptyWalker where
  closed : Bool
deriving Inhabited

/-- Its operations. -/
def EmptyWalker.navigation : Navigation EmptyWalker SearchKey :=
  .ofWays (fun s _ _ => do ensureOpen (← get).closed s.name)
    (fun w => do ensureOpen (← get).closed w.startName)
    (fun w => do
      ensureOpen (← get).closed w.name
      return false)
    (do
      ensureOpen (← get).closed "get()"
      throw (.notPositioned "get()"))
    (fun _ => false) (fun _ => ⟨true⟩) EmptyWalker.closed (fun _ => 0)

/-! ## One element -/

/-- A walker over one element. Its place is an end or the element. -/
structure SingleWalker where
  only : Element SearchKey
  place : Place Unit
  closed : Bool
deriving Inhabited

namespace SingleWalker

def goTo (pl : Place Unit) : EStateM Error SingleWalker Unit :=
  modify fun c => { c with place := pl }

/-- Goes to an end, by entry. -/
def seek (s : Seek) (id : Option EntryId) : EStateM Error SingleWalker Unit := do
  ensureOpen (← get).closed s.name
  match compare (id.getD s.standIn) (← get).only.id with
  | .lt => goTo .beforeFirst
  | .eq => goTo (if s.isBehind then .afterLast else .beforeFirst)
  | .gt => goTo .afterLast

/-- Moves onto the element from where the way starts, else to where the other way starts. -/
def advance (w : Way) : EStateM Error SingleWalker Bool := do
  ensureOpen (← get).closed w.name
  if (← get).place = .start w then
    goTo (.on ())
    return true
  else
    goTo (.start w.opposite)
    return false

def element : EStateM Error SingleWalker (Element SearchKey) := do
  ensureOpen (← get).closed "get()"
  if (← get).place.isOn then return (← get).only else throw (.notPositioned "get()")

/-- The operations of walkers over one element. -/
def navigation : Navigation SingleWalker SearchKey :=
  .ofWays (fun s id _ => seek s id)
    (fun w => do
      ensureOpen (← get).closed w.startName
      goTo (.start w))
    advance element (fun c => !c.closed && c.place.isOn) ({ · with closed := true })
    SingleWalker.closed fun _ => 1

end SingleWalker

/-! ## All entries -/

/-- A walker over all entries. It keeps the record that it stands on. -/
structure MasterWalker where
  table : SortedMap EntryId Entry
  place : Place EntryId
  current : Option Entry
  closed : Bool
deriving Inhabited

namespace MasterWalker

/-- Leaves the record for another place. -/
def goTo (pl : Place EntryId) : EStateM Error MasterWalker Unit :=
  modify fun c => { c with place := pl, current := none }

/-- Moves to the next entry on a way. -/
def advance (w : Way) : EStateM Error MasterWalker Bool := do
  ensureOpen (← get).closed w.name
  let c ← get
  let found := c.place.neighbour? w compare Prod.fst c.table.toList
  set { c with place := .landed w Prod.fst found, current := found.map Prod.snd }
  return found.isSome

def element : EStateM Error MasterWalker (Element SearchKey) := do
  ensureOpen (← get).closed "get()"
  match (← get).place, (← get).current with
  | .on id, some e => return ⟨none, id, some e⟩
  | _, _ => throw (.notPositioned "get()")

/-- The operations of walkers over all entries. They seek by entry. -/
def navigation : Navigation MasterWalker SearchKey :=
  .ofWays
    (fun s id _ => do
      ensureOpen (← get).closed s.name
      goTo (.gap s.isBehind (id.getD s.standIn)))
    (fun w => do
      ensureOpen (← get).closed w.startName
      goTo (.start w))
    advance element (fun c => !c.closed && c.place.isOn)
    ({ · with current := none, closed := true }) MasterWalker.closed fun c => c.table.size

end MasterWalker

/-! ## The entries of a key -/

/-- A walker over the entries of one key. Its elements carry the label. -/
structure KeyWalker where
  ids : SortedSet EntryId
  label : SearchKey
  place : Place EntryId
  closed : Bool
deriving Inhabited

namespace KeyWalker

/-- A walker before the first entry that an index has under a key. -/
def ofTables {κ : Type} [Ord κ] (t : Tables κ) (key : κ) (label : SearchKey) : KeyWalker :=
  ⟨t.idsOf key, label, .beforeFirst, false⟩

def goTo (pl : Place EntryId) : EStateM Error KeyWalker Unit :=
  modify fun c => { c with place := pl }

/-- Goes to a place by entry; a key beside the label leads to an end. -/
def seek (s : Seek) (id : Option EntryId) (key : SearchKey) : EStateM Error KeyWalker Unit := do
  ensureOpen (← get).closed s.name
  let here := Place.gap s.isBehind (id.getD s.standIn)
  match (← get).label, key with
  | some label, some key =>
    match compare key label with
    | .lt => goTo .beforeFirst
    | .eq => goTo here
    | .gt => goTo .afterLast
  | _, _ => goTo here

/-- Goes to where a way starts. -/
def restart (w : Way) : EStateM Error KeyWalker Unit := do
  ensureOpen (← get).closed w.startName
  goTo (.start w)

/-- Moves to the next entry on a way. -/
def advance (w : Way) : EStateM Error KeyWalker Bool := do
  ensureOpen (← get).closed w.name
  let c ← get
  let found := c.place.neighbour? w compare id c.ids.toList
  goTo (.landed w id found)
  return found.isSome

def element : EStateM Error KeyWalker (Element SearchKey) := do
  ensureOpen (← get).closed "get()"
  match (← get).place with
  | .on id => return ⟨(← get).label, id, none⟩
  | _ => throw (.notPositioned "get()")

def available (c : KeyWalker) : Bool := !c.closed && c.place.isOn

def close (c : KeyWalker) : KeyWalker := { c with closed := true }

/-- The operations of walkers over the entries of a key. -/
def navigation : Navigation KeyWalker SearchKey :=
  .ofWays seek restart advance element available close KeyWalker.closed fun c => c.ids.size

end KeyWalker

/-! ## The entries of a scope -/

/-- The parts of a scope. -/
inductive ScopePart where
  /-- The entries below the base. -/
  | structural
  /-- The targets of aliases. -/
  | aliased
deriving DecidableEq, Inhabited

/-- A walker over the entries below a base, then over the targets of aliases if these are followed;
the aliases themselves are left out then. -/
structure ScopeWalker where
  structural : KeyWalker
  aliased : Option KeyWalker
  hidden : Option (Tables String)
  part : ScopePart
  closed : Bool
deriving Inhabited

namespace ScopeWalker

/-- The entry is an alias that is left out. -/
def hides (c : ScopeWalker) (id : EntryId) : Bool := c.hidden.any (·.reverse.contains id)

/-- The walker of the part. -/
def current? (c : ScopeWalker) : Option KeyWalker :=
  match c.part with
  | .structural => some c.structural
  | .aliased => c.aliased

/-- The walker of the part, replaced. -/
def setCurrent (c : ScopeWalker) (k : KeyWalker) : ScopeWalker :=
  match c.part with
  | .structural => { c with structural := k }
  | .aliased => { c with aliased := some k }

/-- An operation of the walker of the part, if there is one. -/
def onCurrent {α : Type} (m : EStateM Error KeyWalker α) : EStateM Error ScopeWalker (Option α) :=
  fun c =>
    match c.current? with
    | none => .ok none c
    | some k => inside c.setCurrent ((some <$> m) k)

/-- An operation of the walker of a part, which becomes the current one. -/
def enter (part : ScopePart) (m : EStateM Error KeyWalker Unit) :
    EStateM Error ScopeWalker Unit := do
  modify fun c => { c with part }
  let _ ← onCurrent m

/-- Goes to where a way starts. -/
def restart (w : Way) : EStateM Error ScopeWalker Unit := do
  ensureOpen (← get).closed w.startName
  match w with
  | .forward =>
    if (← get).aliased.isSome then enter .aliased (KeyWalker.restart w)
    enter .structural (KeyWalker.restart w)
  | .backward =>
    enter .structural (KeyWalker.restart w)
    if (← get).aliased.isSome then enter .aliased (KeyWalker.restart w)

/-- The part that comes next on a way. -/
def turn? (w : Way) (c : ScopeWalker) : Option ScopePart :=
  match w, c.part with
  | .forward, .structural => c.aliased.map fun _ => .aliased
  | .backward, .aliased => some .structural
  | _, _ => none

/-- Moves by one entry within the part, or into the next part. -/
def attempt (w : Way) : EStateM Error ScopeWalker (Option Bool) := do
  match ← onCurrent (KeyWalker.advance w) with
  | none => return some false
  | some true =>
    match ← onCurrent KeyWalker.element with
    | some e => return if (← get).hides e.id then none else some true
    | none => return some false
  | some false =>
    match (← get).turn? w with
    | some part =>
      enter part (KeyWalker.restart w)
      return none
    | none => return some false

/-- The number of entries, hidden ones included. -/
def size (c : ScopeWalker) : Nat := c.structural.ids.size + (c.aliased.elim 0 (·.ids.size))

/-- The operations of walkers over a scope, which do not seek. -/
def navigation : Navigation ScopeWalker SearchKey :=
  .ofWays
    (fun s _ key => do
      ensureOpen (← get).closed s.name
      (Seeking.refused "ScopeCursor").check s key)
    restart
    (fun w => do
      ensureOpen (← get).closed w.name
      rounds (attempt w) ((← get).size + 2))
    (do
      ensureOpen (← get).closed "get()"
      match ← onCurrent KeyWalker.element with
      | some e => return e
      | none => throw (.notPositioned "get()"))
    (fun c => !c.closed && c.current?.any (·.available))
    (fun c => { c with
      structural := c.structural.close, aliased := c.aliased.map (·.close), closed := true })
    ScopeWalker.closed size

end ScopeWalker

end Directory
