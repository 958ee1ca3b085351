import Directory.Partition.Basic

/-!
# Transactions

A transaction changes a partition step by step and keeps a journal of how to take each step back.

* `Undo`: how to take a step back; `Transaction`: the partition so far and the journal.
* `TransactionM`: a sequence of steps. A step that is refused changes nothing.
* `Transaction.rollback`: takes all steps back, the latest first; `Transaction.dropped`: so does a
  transaction that nobody ends.
* `Partition.transact`: carries steps out; if one is refused, none of them remains.
-/

namespace Directory

/-- How to take back a step: the inverse changes of an index, in the order in which they were found,
or the entry that a number had. -/
inductive Undo where
  | user (attr : AttributeId) (changes : List (Change Value))
  | presence (changes : List (Change AttributeId))
  | names (index : NameIndex) (changes : List (Change String))
  | tree (index : TreeIndex) (changes : List (Change EntryId))
  | entry (id : EntryId) (previous : Option Entry)
deriving DecidableEq, Inhabited

/-- A partition in the course of changes, and the journal of its steps, latest first. -/
structure Transaction where
  partition : Partition
  journal : List Undo
deriving DecidableEq, Inhabited

/-- Steps of a transaction. -/
abbrev TransactionM (α : Type) := EStateM Error Transaction α

namespace Partition

/-- Changes the index of an attribute. -/
def applyUser (p : Partition) (a : AttributeId) (changes : List (Change Value)) :
    Except Error (Partition × List (Change Value)) := do
  let (x, undo) ← (← p.userIndex a).apply changes
  return ({ p with user := p.user.insert a x }, undo)

/-- Changes the index of present attributes. -/
def applyPresence (p : Partition) (changes : List (Change AttributeId)) :
    Except Error (Partition × List (Change AttributeId)) := do
  let (x, undo) ← p.presence.apply changes
  return ({ p with presence := x }, undo)

/-- Changes an index by names. -/
def applyNames (p : Partition) (i : NameIndex) (changes : List (Change String)) :
    Except Error (Partition × List (Change String)) := do
  let (x, undo) ← (p.system.names i).apply changes
  return ({ p with system := p.system.setNames i x }, undo)

/-- Changes an index by entries. -/
def applyTree (p : Partition) (i : TreeIndex) (changes : List (Change EntryId)) :
    Except Error (Partition × List (Change EntryId)) := do
  let (x, undo) ← (p.system.tree i).apply changes
  return ({ p with system := p.system.setTree i x }, undo)

/-- Stores an entry under a number, or none. -/
def setEntry (p : Partition) (id : EntryId) (e : Option Entry) : Partition :=
  { p with master := p.master.set id e }

end Partition

/-- Takes a step back. -/
def Undo.revert (p : Partition) : Undo → Except Error Partition
  | user a changes => return (← p.applyUser a changes.reverse).1
  | presence changes => return (← p.applyPresence changes.reverse).1
  | names i changes => return (← p.applyNames i changes.reverse).1
  | tree i changes => return (← p.applyTree i changes.reverse).1
  | entry id previous => .ok (p.setEntry id previous)

namespace Transaction

/-- A transaction without steps. -/
def start (p : Partition) : Transaction := ⟨p, []⟩

/-- The partition with all steps. -/
def commit (t : Transaction) : Partition := t.partition

/-- Takes steps back one after another; one that cannot be taken back is passed over, and the first
such complaint is kept. -/
def revertAll (p : Partition) (complaint : Option Error) : List Undo → Option Error × Partition
  | [] => (complaint, p)
  | u :: us =>
    match u.revert p with
    | .ok p => revertAll p complaint us
    | .error e => revertAll p (complaint <|> some e) us

/-- The partition without any of the steps. -/
def rollback (t : Transaction) : Except Error Unit × Partition :=
  match revertAll t.partition none t.journal with
  | (none, p) => (.ok (), p)
  | (some e, p) => (.error (.rollbackIncomplete e), p)

/-- What a transaction leaves that is dropped: its steps are taken back, and no complaint is heard. -/
def dropped (t : Transaction) : Partition := t.rollback.2

/-! ## Steps -/

/-- Takes over a changed partition and how to change it back. -/
def record (p : Partition) (u : Undo) : TransactionM Unit :=
  modify fun t => ⟨p, u :: t.journal⟩

def changeUser (a : AttributeId) (changes : List (Change Value)) : TransactionM Unit := do
  let (p, undo) ← (← get).partition.applyUser a changes
  record p (.user a undo)

def changePresence (changes : List (Change AttributeId)) : TransactionM Unit := do
  let (p, undo) ← (← get).partition.applyPresence changes
  record p (.presence undo)

def changeNames (i : NameIndex) (changes : List (Change String)) : TransactionM Unit := do
  let (p, undo) ← (← get).partition.applyNames i changes
  record p (.names i undo)

def changeTree (i : TreeIndex) (changes : List (Change EntryId)) : TransactionM Unit := do
  let (p, undo) ← (← get).partition.applyTree i changes
  record p (.tree i undo)

/-- Stores an entry under its number. -/
def putEntry (e : Entry) : TransactionM Unit := do
  let p := (← get).partition
  record (p.setEntry e.id (some e)) (.entry e.id (p.get? e.id))

/-- Removes the entry of a number. -/
def removeEntry (id : EntryId) : TransactionM Unit := do
  let p := (← get).partition
  record (p.setEntry id none) (.entry id (p.get? id))

end Transaction

/-- Carries steps out, all of them or none. -/
def Partition.transact {α : Type} (steps : TransactionM α) : EStateM Error Partition α := fun p =>
  match steps (.start p) with
  | .ok a t => .ok a t.commit
  | .error e t => .error e t.dropped

end Directory
