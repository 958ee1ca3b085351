import Directory.Config
import Directory.Index.Basic
import Directory.Partition.Stats

/-!
# Partitions

A partition is one tree of entries below its suffix, with indices that find them.

* `Partition`: the entries by number, and the indices.
* `NameIndex`, `TreeIndex`: the indices that every partition has, by normalized names and by
  numbers.
* `lookup`, `idOf?`, `lookupName`: entries by number and by name.
* `ancestors`: the way up from an entry.
* `stats`: the sizes of everything.
-/

namespace Directory

/-- The indices keyed by normalized names. -/
inductive NameIndex where
  /-- The entry of a name. -/
  | entry
  /-- The aliases whose target has the name. -/
  | aliasTarget
deriving DecidableEq, Inhabited

/-- The indices keyed by entries. -/
inductive TreeIndex where
  /-- The children of an entry. -/
  | oneLevel
  /-- An entry and everything below it. -/
  | subLevel
  /-- The targets of the aliases among the children of an entry, unless they are children too. -/
  | oneAlias
  /-- The targets of the aliases below an entry, unless they lie below it too. -/
  | subAlias
deriving DecidableEq, Inhabited

/-- The indices that every partition has. -/
structure SystemIndices where
  entryName : Index String
  aliasTarget : Index String
  oneLevel : Index EntryId
  subLevel : Index EntryId
  oneAlias : Index EntryId
  subAlias : Index EntryId
deriving DecidableEq, Inhabited

namespace SystemIndices

/-- The indices of a partition without entries. -/
def empty : SystemIndices where
  entryName := .empty "ndn" true
  oneLevel := .empty "onelevel" true
  subLevel := .empty "sublevel" true
  aliasTarget := .empty "alias" true
  oneAlias := .empty "onealias" true
  subAlias := .empty "subalias" true

def names (s : SystemIndices) : NameIndex → Index String
  | .entry => s.entryName
  | .aliasTarget => s.aliasTarget

def tree (s : SystemIndices) : TreeIndex → Index EntryId
  | .oneLevel => s.oneLevel
  | .subLevel => s.subLevel
  | .oneAlias => s.oneAlias
  | .subAlias => s.subAlias

def setNames (s : SystemIndices) (i : NameIndex) (x : Index String) : SystemIndices :=
  match i with
  | .entry => { s with entryName := x }
  | .aliasTarget => { s with aliasTarget := x }

def setTree (s : SystemIndices) (i : TreeIndex) (x : Index EntryId) : SystemIndices :=
  match i with
  | .oneLevel => { s with oneLevel := x }
  | .subLevel => { s with subLevel := x }
  | .oneAlias => { s with oneAlias := x }
  | .subAlias => { s with subAlias := x }

end SystemIndices

/-- A tree of entries with its indices. -/
structure Partition where
  config : Config
  schema : Schema
  suffix : Dn
  master : SortedMap EntryId Entry
  nextId : EntryId
  system : SystemIndices
  presence : Index AttributeId
  user : SortedMap AttributeId (Index Value)
deriving DecidableEq, Inhabited

namespace Partition

/-! ## Entries -/

/-- The entry of a number, if it is stored. -/
def get? (p : Partition) (id : EntryId) : Option Entry := p.master.get? id

/-- The entry of a number. -/
def lookup (p : Partition) (id : EntryId) : Except Error Entry :=
  match p.get? id with
  | some e => .ok e
  | none => .error (.noEntry id)

/-- The entry of a normalized name. -/
def idOfNormalized? (p : Partition) (name : String) : Option EntryId :=
  (p.system.entryName.ids name).head?

/-- The number of the entry of a name. -/
def idOf? (p : Partition) (name : Dn) : Option EntryId := p.idOfNormalized? name.normalized

/-- The entry of a name. -/
def lookupName (p : Partition) (name : Dn) : Except Error Entry :=
  match p.idOf? name with
  | some id => p.lookup id
  | none => .error (.noEntryNamed name)

/-- The number of entries. -/
def count (p : Partition) : Nat := p.master.size

/-- The number of children of an entry. -/
def childCount (p : Partition) (id : EntryId) : Nat := p.system.oneLevel.countOf id

/-- The way up from `parent`, nearest first, over at most `n` entries. -/
def ancestorsWithin (p : Partition) : (n : Nat) → (parent : Option EntryId) →
    Except Error (List EntryId)
  | _, none => .ok []
  | 0, some id => .error (.parentCycle id)
  | n + 1, some id => do
    let e ← p.lookup id
    let rest ← p.ancestorsWithin n e.parent
    return id :: rest

/-- An entry's parent, its parent, and so on up to the root, nearest first. -/
def ancestors (p : Partition) (parent : Option EntryId) : Except Error (List EntryId) :=
  p.ancestorsWithin (p.count + 1) parent

/-! ## Indices -/

/-- The index of an attribute, if it has one. -/
def userIndex? (p : Partition) (a : AttributeId) : Option (Index Value) := p.user.get? a

/-- The index of an attribute. -/
def userIndex (p : Partition) (a : AttributeId) : Except Error (Index Value) :=
  match p.userIndex? a with
  | some x => .ok x
  | none => .error (.noUserIndex a)

def hasUserIndex (p : Partition) (a : AttributeId) : Bool := (p.userIndex? a).isSome

/-- The attributes that have an index. -/
def indexedAttributes (p : Partition) : List AttributeId := p.user.keys

/-- An index that every partition has, by its name. -/
inductive SystemIndex where
  | names (i : NameIndex)
  | tree (i : TreeIndex)
deriving DecidableEq, Inhabited

/-- The index of a name. -/
def SystemIndex.ofName : String → Except Error SystemIndex
  | "ndn" => .ok (names .entry)
  | "onelevel" => .ok (tree .oneLevel)
  | "sublevel" => .ok (tree .subLevel)
  | "alias" => .ok (names .aliasTarget)
  | "onealias" => .ok (tree .oneAlias)
  | "subalias" => .ok (tree .subAlias)
  | name => .error (.noSystemIndex name)

/-- The number of tuples in the index of a name. -/
def systemCount (p : Partition) (name : String) : Except Error Nat := do
  match ← SystemIndex.ofName name with
  | .names i => return (p.system.names i).count
  | .tree i => return (p.system.tree i).count

/-! ## Statistics -/

/-- The size of an index. -/
def statsOf {κ : Type} [Ord κ] (x : Index κ) : IndexStats := ⟨x.name, x.count, x.keyCount⟩

/-- The sizes of everything. -/
def stats (p : Partition) : PartitionStats where
  suffix := p.suffix.display
  entries := p.count
  nextId := p.nextId.toNat
  system := [statsOf p.system.entryName, statsOf p.system.oneLevel, statsOf p.system.subLevel,
    statsOf p.system.aliasTarget, statsOf p.system.oneAlias, statsOf p.system.subAlias]
  presence := statsOf p.presence
  user := p.user.values.map statsOf

/-! ## Values -/

/-- The set of the normal forms of values. -/
def normalizeAll (p : Partition) (a : AttributeId) (values : List Value) :
    Except Error (SortedSet Value) := do
  return .ofList (← values.mapM (p.schema.normalize a))

/-- Refuses an entry with a value that has no normal form. -/
def checkValues (p : Partition) (e : Entry) : Except Error Unit :=
  e.attributes.toList.forM fun b => do
    discard (p.normalizeAll b.1 b.2)

end Partition

end Directory
