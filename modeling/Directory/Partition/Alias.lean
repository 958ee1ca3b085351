import Directory.Name.Reader
import Directory.Partition.Climbing

/-!
# Aliases

* `AliasLink`: an alias entry and the entry it stands for.
* `Partition.aliasLink`: the link of an entry that is to be an alias; refuses targets that do not
  exist, that are aliases themselves, or that the alias lies below, and aliases that are targets.
* `Partition.indexedLink`: the link of an alias as the index has it.
* `Climbing.addLink`, `Climbing.dropLink`: enter a link into the alias indices, and take it out except
  for the tuples that other aliases of the same target need. `Transaction.addLink`,
  `Transaction.dropLink`: the same as steps of a transaction.
-/

namespace Directory

/-- An alias and its target. -/
structure AliasLink where
  source : EntryId
  parent : Option EntryId
  targetNormalized : String
  target : EntryId
  targetName : Dn
deriving DecidableEq, Inhabited

namespace Partition

/-- The link of an entry that is to be an alias. -/
def aliasLink (p : Partition) (e : Entry) : Except Error AliasLink := do
  let some written := e.aliasTarget? | throw (.aliasWithoutTarget e.name)
  let targetName ← Dn.parse written
  let targetNormalized := targetName.normalized
  let aliasNormalized := e.name.normalized
  if targetNormalized = aliasNormalized then throw (.aliasToItself e.name)
  if e.name.isBelow targetName then throw (.aliasToAncestor e.name targetName)
  if p.system.aliasTarget.countOf aliasNormalized > 0 then throw (.targetBecomesAlias e.name)
  let some target := p.idOfNormalized? targetNormalized | throw (.noAliasTarget targetName)
  let targetEntry ← p.lookup target
  if targetEntry.isAlias then throw (.aliasToAlias e.name targetName)
  return ⟨e.id, e.parent, targetNormalized, target, targetEntry.name⟩

/-- The link of an alias as the index has it. -/
def indexedLink (p : Partition) (e : Entry) : Except Error AliasLink := do
  let some targetNormalized := p.system.aliasTarget.key? e.id
    | throw (.aliasNotIndexed e.id "target")
  let some target := p.idOfNormalized? targetNormalized
    | throw (.aliasNotIndexed e.id "target entry")
  let targetEntry ← p.lookup target
  return ⟨e.id, e.parent, targetNormalized, target, targetEntry.name⟩

/-- The other aliases of the same target. -/
def otherAliases (p : Partition) (l : AliasLink) : Except Error (List Entry) :=
  ((p.system.aliasTarget.ids l.targetNormalized).filter (· != l.source)).mapM p.lookup

end Partition

namespace Climbing

open Transaction

variable {m : Type → Type} [Monad m] [MonadLiftT (Except Error) m] [Climbing m]

/-- The ancestors of an alias that its target does not lie below. -/
def outsideAncestors (p : Partition) (parent : EntryId) (targetName : Dn) : m (List EntryId) := do
  let above ← climb p (some parent)
  (above.filterM fun a => do return !targetName.isBelow (← p.lookup a).name :
    Except Error (List EntryId))

variable [MonadState Transaction m] [MonadLiftT (EStateM Error Transaction) m]

/-- Enters a link into the alias indices. -/
def addLink (l : AliasLink) : m Unit := do
  changeNames .aliasTarget [.add l.targetNormalized l.source]
  match l.parent with
  | none => return
  | some parent =>
    let p := (← get).partition
    let parentName := (← p.lookup parent).name.normalized
    if l.targetName.parent?.map Dn.normalized ≠ some parentName then
      changeTree .oneAlias [.add parent l.target]
    let above ← outsideAncestors (← get).partition parent l.targetName
    changeTree .subAlias (above.map (.add · l.target))

/-- Takes a link out of the alias indices. -/
def dropLink (l : AliasLink) : m Unit := do
  let others ← (← get).partition.otherAliases l
  match l.parent with
  | none => pure ()
  | some parent =>
    if !others.any (·.parent == some parent) then
      changeTree .oneAlias [.drop parent l.target]
    let p := (← get).partition
    let above ← climb p (some parent)
    let free := above.filter fun a => !others.any fun o => p.system.subLevel.has a o.id
    changeTree .subAlias (free.map (.drop · l.target))
  changeNames .aliasTarget [.drop l.targetNormalized l.source]

end Climbing

/-! ### Steps as they are carried out -/

abbrev Partition.outsideAncestors (p : Partition) (parent : EntryId) (targetName : Dn) :
    Except Error (List EntryId) :=
  Climbing.outsideAncestors p parent targetName

theorem outsideAncestors_eq {σ : Type} (p : Partition) (parent : EntryId) (targetName : Dn) :
    (Climbing.outsideAncestors p parent targetName : EStateM Error σ (List EntryId)) =
      liftM (p.outsideAncestors parent targetName) :=
  (liftM_bind _ _).symm

namespace Transaction

abbrev addLink (l : AliasLink) : TransactionM Unit := Climbing.addLink l

abbrev dropLink (l : AliasLink) : TransactionM Unit := Climbing.dropLink l

end Transaction

end Directory
