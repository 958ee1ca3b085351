import Directory.Partition.Alias

/-!
# Writing to a partition

Each write either succeeds with all indices in step or is refused and leaves the entries and indices
as they were.

* `Transaction.reindex`: brings the indices of attributes from one state of an entry to another.
* `Climbing.enter`, `amend`, `remove`, `relocate`: the steps of writes on entries, over any kind of
  steps that can ask for ways up.
* `Partition.add`, `modify`, `delete`, `moveAndRename`: the writes on entries; `rename` and `move`
  are cases of the last.
* `Partition.addIndex`: a new index of an attribute, filled from the entries.
* `Partition.ofConfig`: a partition without entries.
-/

namespace Directory

/-- Steps that change a partition. -/
abbrev PartitionM (α : Type) := EStateM Error Partition α

namespace Entry

/-- An entry that carries its own name: the value of its relative name is among its values. -/
def withNameValue (p : Partition) (e : Entry) : Except Error Entry := do
  match e.name.rdn? with
  | none => return e
  | some r =>
    let value := Value.text r.value
    let wanted ← p.schema.normalize r.type value
    let held ← p.normalizeAll r.type (e.valuesOf r.type)
    if held.contains wanted then return e else return e.addValue r.type value

/-- Values with their normal forms, each form once: those held and then the new ones. -/
def mergeValues (p : Partition) (a : AttributeId) (held : List (Value × Value)) :
    (values : List Value) → Except Error (List (Value × Value))
  | [] => .ok held
  | v :: vs => do
    let n ← p.schema.normalize a v
    mergeValues p a (if held.any (·.1 == n) then held else held ++ [(n, v)]) vs

/-- The values with their normal forms after a modification of those held. -/
def keptValues (p : Partition) (m : Modification) (held : List (Value × Value)) :
    Except Error (List (Value × Value)) :=
  match m.kind with
  | .add => mergeValues p m.attr held m.values
  | .replace => mergeValues p m.attr [] m.values
  | .remove =>
    if m.values.isEmpty then .ok []
    else do
      let removed ← p.normalizeAll m.attr m.values
      return held.filter fun v => !removed.contains v.1

/-- The entry after a modification; an attribute left without values is removed. -/
def modified (p : Partition) (e : Entry) (m : Modification) : Except Error Entry := do
  let held ← (e.valuesOf m.attr).mapM fun v => do return (← p.schema.normalize m.attr v, v)
  let kept ← keptValues p m held
  let values := if kept.isEmpty then none else some (kept.map Prod.snd)
  return { e with attributes := e.attributes.set m.attr values }

/-- The entry after modifications, one after another. -/
def modifiedBy (p : Partition) (e : Entry) (ms : List Modification) : Except Error Entry :=
  ms.foldlM (modified p) e

end Entry

namespace Transaction

/-- The changes of an index that lead from one set of keys to another for an entry. -/
def changesBetween {κ : Type} [Ord κ] (before after : SortedSet κ) (id : EntryId) :
    List (Change κ) :=
  (before.diff after).toList.map (.drop · id) ++ (after.diff before).toList.map (.add · id)

/-- The change of presence that goes with a change of the values of an attribute. -/
def presenceChange (before after : SortedSet Value) (a : AttributeId) (id : EntryId) :
    List (Change AttributeId) :=
  match before.isEmpty, after.isEmpty with
  | true, false => [.add a id]
  | false, true => [.drop a id]
  | _, _ => []

/-- Changes the index of an attribute, if there is anything to change. -/
def updateUser (a : AttributeId) (changes : List (Change Value)) : TransactionM Unit := do
  if !changes.isEmpty then changeUser a changes

/-- Brings the index of an attribute from the values of `old` to those of `new`; gives the change of
presence that this makes. -/
def reindexAttribute (id : EntryId) (old new : Entry) (a : AttributeId) :
    TransactionM (List (Change AttributeId)) := do
  let p := (← get).partition
  if !p.hasUserIndex a then return []
  let before ← p.normalizeAll a (old.valuesOf a)
  let after ← p.normalizeAll a (new.valuesOf a)
  updateUser a (changesBetween before after id)
  return presenceChange before after a id

/-- Brings the indices of attributes from the values of `old` to those of `new`. -/
def reindex (id : EntryId) (old new : Entry) : TransactionM Unit := do
  let attributes := SortedSet.ofList (old.attributes.keys ++ new.attributes.keys)
  let changes ← attributes.toList.mapM (reindexAttribute id old new)
  if !changes.flatten.isEmpty then changePresence changes.flatten

/-- Drops an entry from the index of an attribute. -/
def dropValues (id : EntryId) (a : AttributeId) : TransactionM Unit := do
  updateUser a (((← (← get).partition.userIndex a).keys id).map (.drop · id))

/-- Takes an entry out of the tree and all indices but those of aliases. -/
def takeOut (id : EntryId) (e : Entry) : TransactionM Unit := do
  (← get).partition.indexedAttributes.forM (dropValues id)
  changePresence (((← get).partition.presence.keys id).map (.drop · id))
  changeNames .entry [.drop e.name.normalized id]
  e.parent.forM fun parent => changeTree .oneLevel [.drop parent id]
  changeTree .subLevel (((← get).partition.system.subLevel.keys id).map (.drop · id))
  removeEntry id

end Transaction

namespace Partition

/-- The link of an entry that is to be an alias, if it is to be one. -/
def linkFor (p : Partition) (e : Entry) : Except Error (Option AliasLink) :=
  if e.isAlias then some <$> p.aliasLink e else .ok none

/-- The link of an entry as the index has it, if the entry is an alias. -/
def linkOf (p : Partition) (e : Entry) : Except Error (Option AliasLink) :=
  if e.isAlias then some <$> p.indexedLink e else .ok none

/-! ## Adding -/

/-- The parent of a new entry; the suffix has none. -/
def parentFor (p : Partition) (name : Dn) : Except Error (Option EntryId) := do
  if name.normalized = p.suffix.normalized then return none
  if !name.isBelow p.suffix then throw (.outsidePartition name p.suffix)
  let parentName := name.parent?.getD .root
  let some parent := p.idOf? parentName | throw (.noParent parentName)
  if (← p.lookup parent).isAlias then throw (.addBelowAlias name)
  return some parent

/-- A new entry with its parent, and with the value of its relative name. -/
def newEntry (p : Partition) (e : Entry) : Except Error Entry := do
  if (p.idOf? e.name).isSome then throw (.entryExists e.name)
  let parent ← p.parentFor e.name
  let e ← e.withNameValue p
  p.checkValues e
  return { e with parent }

/-- The next free number, which is used up. -/
def takeId : PartitionM EntryId := do
  let id := (← get).nextId
  modify fun p => { p with nextId := p.nextId + 1 }
  return id

/-! ## Deleting -/

/-- The entry of a number with its link; it has to have no children and to be no target of an
alias. -/
def removable (p : Partition) (id : EntryId) : Except Error (Entry × Option AliasLink) := do
  let e ← p.lookup id
  if p.childCount id > 0 then throw (.hasChildren e.name)
  if p.system.aliasTarget.countOf e.name.normalized > 0 then throw (.aliasTarget e.name)
  return (e, ← p.linkOf e)

/-! ## Moving and renaming -/

/-- The new parent of an entry: the old one, or the entry of the given name. -/
def newParentFor (p : Partition) (e : Entry) (oldParent : EntryId) :
    Option Dn → Except Error EntryId
  | none => .ok oldParent
  | some name => do
    let some parent := p.idOf? name | throw (.noNewParent name)
    if p.system.subLevel.has e.id parent then throw (.moveBelowSelf e.name)
    if (← p.lookup parent).isAlias then throw (.moveBelowAlias e.name)
    return parent

/-- The links of the aliases among the members of a subtree, none of which may be a target. -/
def linksToMove (p : Partition) : (members : List EntryId) → Except Error (List AliasLink)
  | [] => .ok []
  | m :: ms => do
    let e ← p.lookup m
    if p.system.aliasTarget.countOf e.name.normalized > 0 then throw (.movedAliasTarget e.name)
    let link ← p.linkOf e
    let links ← p.linksToMove ms
    return link.toList ++ links

/-- What a move is going to do: the entry with the number, its old and its new parent, its new name,
everything below it with itself, the alias links there, and the ancestors before and after. -/
structure Move where
  top : Entry
  id : EntryId
  oldParent : EntryId
  parent : EntryId
  name : Dn
  members : List EntryId
  links : List AliasLink
  oldAncestors : List EntryId
  ancestors : List EntryId
deriving DecidableEq, Inhabited

end Partition

namespace Transaction

open Directory.Partition (Move)

/-- The record of a member after the move; the top itself also gets its new parent and its new name
as a value. -/
def movedEntry (p : Partition) (mv : Move) (m : EntryId) (current : Entry) :
    Except Error Entry := do
  let some name := current.name.rebase? mv.top.name mv.name
    | throw (.misplaced current.name mv.top.name)
  if m = mv.top.id then
    let moved ← { current with name, parent := some mv.parent }.withNameValue p
    p.checkValues moved
    return moved
  else return { current with name }

/-- Renames a member. Gives its number, and the old and the new normalized name. -/
def moveMember (mv : Move) (m : EntryId) : TransactionM (EntryId × String × String) := do
  let p := (← get).partition
  let current ← p.lookup m
  let moved ← movedEntry p mv m current
  if m = mv.top.id then reindex m current moved
  putEntry moved
  return (m, current.name.normalized, moved.name.normalized)

/-- Puts all members under other ancestors, if the parent changes. -/
def reparent (mv : Move) : TransactionM Unit := do
  if mv.parent ≠ mv.oldParent then
    changeTree .oneLevel [.drop mv.oldParent mv.id, .add mv.parent mv.id]
    changeTree .subLevel (mv.members.flatMap fun m =>
      mv.oldAncestors.map (.drop · m) ++ mv.ancestors.map (.add · m))

end Transaction

/-! ## Writes over any kind of steps -/

namespace Climbing

open Transaction Transacting
open Directory.Partition (Move takeId)

section Questions

variable {m : Type → Type} [Monad m] [MonadExcept Error m] [MonadLiftT (Except Error) m]
  [Climbing m]

/-- The move of an entry under another parent, to another relative name, or both. -/
def planMove (p : Partition) (id : EntryId) (newParent : Option Dn) (newRdn : Option Rdn) :
    m Move := do
  let e ← p.lookup id
  let some oldParent := e.parent | throw .suffixFixed
  let parent ← p.newParentFor e oldParent newParent
  let some rdn := newRdn <|> e.name.rdn? | throw (.emptyName id)
  let name := (← p.lookup parent).name.child rdn
  if name.normalized ≠ e.name.normalized ∧ (p.idOf? name).isSome then throw (.entryExists name)
  let members := p.system.subLevel.ids id
  let links ← p.linksToMove members
  let oldAncestors ← climb p (some oldParent)
  let ancestors ← climb p (some parent)
  return ⟨e, id, oldParent, parent, name, members, links, oldAncestors, ancestors⟩

end Questions

variable {m n : Type → Type} [Monad m] [MonadState Transaction m] [MonadLiftT (Except Error) m]
  [MonadLiftT (EStateM Error Transaction) m] [Climbing m]

/-- Enters a new entry into the tree and the indices. -/
def enter (e : Entry) (link : Option AliasLink) : m Unit := do
  putEntry e
  changeNames .entry [.add e.name.normalized e.id]
  e.parent.forM fun parent => changeTree .oneLevel [.add parent e.id]
  let above ← climb (← get).partition e.parent
  changeTree .subLevel ((e.id :: above).map (.add · e.id))
  reindex e.id (.ofName .root) e
  link.forM addLink

/-- Puts `new` in the place of `old`, with alias links to drop before and to add after. -/
def amend (id : EntryId) (old new : Entry) (dropped added : Option AliasLink) : m Unit := do
  dropped.forM dropLink
  reindex id old new
  putEntry new
  added.forM addLink

/-- Takes an entry out of the tree and the indices. -/
def remove (id : EntryId) (e : Entry) (link : Option AliasLink) : m Unit := do
  link.forM dropLink
  takeOut id e

/-- Enters the link of an alias again, as it is now. -/
def relink (l : AliasLink) : m Unit := do
  let p := (← get).partition
  addLink (← p.aliasLink (← p.lookup l.source))

/-- Carries a move out. -/
def relocate (mv : Move) : m Unit := do
  mv.links.forM dropLink
  let renamed ← (mv.members.mapM (moveMember mv) : TransactionM _)
  changeNames .entry
    (renamed.map (fun r => .drop r.2.1 r.1) ++ renamed.map (fun r => .add r.2.2 r.1))
  reparent mv
  mv.links.forM relink

variable [Monad n] [MonadExcept Error n] [MonadState Partition n] [MonadLiftT (Except Error) n]
  [MonadLiftT (EStateM Error Partition) n] [Climbing n] [Transacting m n]

/-- Stores a new entry. Its number and parent are those that the partition gives it. -/
def add (e : Entry) : n EntryId := do
  let e ← (← get).newEntry e
  let id ← takeId
  let e := { e with id }
  let link ← (← get).linkFor e
  transact (enter e link)
  return id

/-- Changes the attributes of an entry. -/
def modify (id : EntryId) (modifications : List Modification) : n Unit := do
  let p ← get
  let old ← p.lookup id
  let new ← old.modifiedBy p modifications
  p.checkValues new
  let oldLink ← p.linkOf old
  let newLink ← p.linkFor new
  if oldLink.map AliasLink.target = newLink.map AliasLink.target then
    transact (amend id old new none none)
  else transact (amend id old new oldLink newLink)

/-- Removes an entry that has no children and is no target of an alias. -/
def delete (id : EntryId) : n Unit := do
  let (e, link) ← (← get).removable id
  transact (remove id e link)

/-- Moves an entry with everything below it under another parent, gives it another relative name, or
both. The value of a new relative name is added to the entry; that of the old one stays. -/
def moveAndRename (id : EntryId) (newParent : Option Dn) (newRdn : Option Rdn) : n Unit := do
  transact (relocate (← planMove (← get) id newParent newRdn))

end Climbing

/-! ## Writes as they are carried out -/

namespace Transaction

abbrev enter (e : Entry) (link : Option AliasLink) : TransactionM Unit := Climbing.enter e link

abbrev amend (id : EntryId) (old new : Entry) (dropped added : Option AliasLink) :
    TransactionM Unit :=
  Climbing.amend id old new dropped added

abbrev remove (id : EntryId) (e : Entry) (link : Option AliasLink) : TransactionM Unit :=
  Climbing.remove id e link

abbrev relink (l : AliasLink) : TransactionM Unit := Climbing.relink l

abbrev relocate (mv : Partition.Move) : TransactionM Unit := Climbing.relocate mv

end Transaction

namespace Partition

abbrev planMove (p : Partition) (id : EntryId) (newParent : Option Dn) (newRdn : Option Rdn) :
    Except Error Move :=
  Climbing.planMove p id newParent newRdn

abbrev add (e : Entry) : PartitionM EntryId := Climbing.add e

abbrev modify (id : EntryId) (modifications : List Modification) : PartitionM Unit :=
  Climbing.modify id modifications

abbrev delete (id : EntryId) : PartitionM Unit := Climbing.delete id

abbrev moveAndRename (id : EntryId) (newParent : Option Dn) (newRdn : Option Rdn) :
    PartitionM Unit :=
  Climbing.moveAndRename id newParent newRdn

theorem planMove_eq {σ : Type} (p : Partition) (id : EntryId) (newParent : Option Dn)
    (newRdn : Option Rdn) : (Climbing.planMove p id newParent newRdn : EStateM Error σ Move) =
      liftM (p.planMove id newParent newRdn) := by
  unfold planMove Climbing.planMove
  simp only [liftM_bind, liftM_self]
  refine bind_congr fun e => ?_
  cases e.parent with
  | none => rfl
  | some oldParent =>
    dsimp only
    rw [liftM_bind]
    refine bind_congr fun parent => ?_
    cases newRdn <|> e.name.rdn? with
    | none => rfl
    | some rdn =>
      dsimp only
      rw [liftM_bind]
      refine bind_congr fun f => ?_
      split
      · rfl
      · simp only [liftM_bind]
        rfl

/-- Gives an entry another relative name. -/
def rename (id : EntryId) (newRdn : Rdn) : PartitionM Unit := moveAndRename id none (some newRdn)

/-- Moves an entry with everything below it under another parent. -/
def move (id : EntryId) (newParent : Dn) : PartitionM Unit := moveAndRename id (some newParent) none

/-! ## Indices -/

/-- The tuples of an attribute over all entries, by values and by presence. -/
def tuplesOf (p : Partition) (a : AttributeId) :
    List Entry → Except Error (List (Change Value) × List (Change AttributeId))
  | [] => .ok ([], [])
  | e :: es => do
    let values ← p.normalizeAll a (e.valuesOf a)
    let (tuples, present) ← p.tuplesOf a es
    return (values.toList.map (.add · e.id) ++ tuples,
      if e.has a then .add a e.id :: present else present)

/-- The index of an attribute, created and filled if there is none yet. -/
def addIndex (attr : String) : PartitionM (Index Value) := do
  let a := AttributeId.ofName attr
  let p ← get
  match p.userIndex? a with
  | some x => return x
  | none =>
    let (tuples, present) ← p.tuplesOf a p.master.values
    let (x, _) ← (Index.empty a.name (p.schema.isOrdered a)).apply tuples
    let (presence, _) ← p.presence.apply present
    set { p with presence, user := p.user.insert a x }
    return x

/-! ## New partitions -/

/-- A partition without entries and without indices of attributes. -/
def bare (c : Config) (suffix : Dn) : Partition where
  config := c
  schema := .ofDeclarations c.declarations
  suffix := suffix
  master := ∅
  nextId := 1
  system := .empty
  presence := .empty "presence" true
  user := ∅

/-- A partition without entries. -/
def ofConfig (c : Config) : Except Error Partition := do
  let suffix ← Dn.parse c.suffix
  if suffix.isRoot then throw .emptySuffix
  match (c.indexed.forM fun a => discard (addIndex a)) (bare c suffix) with
  | .ok _ p => return p
  | .error e _ => throw e

end Partition

end Directory
