import Directory.Name.Basic
import Directory.Value
import Directory.Sorted.Map

/-!
# Entries

* `Entry`: a record with its number, its name, the number of its parent and its attributes.
* `Entry.get?`: the values of an attribute that has any.
* `Entry.isAlias`: an entry of class `alias` that names a target stands for that target.
* `Modification`: a change of the values of one attribute.
-/

namespace Directory

/-- A record of the directory. -/
structure Entry where
  id : EntryId
  name : Dn
  parent : Option EntryId
  attributes : SortedMap AttributeId (List Value)
deriving DecidableEq, Inhabited

namespace Entry

/-- An entry outside any partition, without attributes. -/
def ofName (name : Dn) : Entry := ⟨.least, name, none, ∅⟩

/-- Adds a value to an attribute unless the attribute holds it already. -/
def addValue (e : Entry) (a : AttributeId) (v : Value) : Entry :=
  let held := e.attributes.getD a []
  { e with attributes := e.attributes.insert a (if held.contains v then held else held ++ [v]) }

/-- Adds values to the attribute of a written name. -/
def addValues (e : Entry) (attr : String) (values : List Value) : Entry :=
  values.foldl (fun e v => e.addValue (.ofName attr) v) e

/-- Gives the attribute of a written name exactly these values, as they stand. -/
def putValues (e : Entry) (attr : String) (values : List Value) : Entry :=
  { e with attributes := e.attributes.insert (.ofName attr) values }

/-- The values of an attribute; an attribute without values counts as absent. -/
def get? (e : Entry) (a : AttributeId) : Option (List Value) :=
  match e.attributes.get? a with
  | some (v :: vs) => some (v :: vs)
  | _ => none

/-- The values of an attribute, none if it is absent. -/
def valuesOf (e : Entry) (a : AttributeId) : List Value := e.attributes.getD a []

def has (e : Entry) (a : AttributeId) : Bool := (e.get? a).isSome

/-- The written name of the entry an alias stands for: the first value, if that is a text. -/
def aliasTarget? (e : Entry) : Option String :=
  (e.valuesOf .aliasedObjectName).head?.bind Value.text?

/-- The entry is of class `alias`, in any case of letters. -/
def hasAliasClass (e : Entry) : Bool :=
  (e.valuesOf .objectClass).any fun v =>
    match v with
    | .text s => Text.lowerAscii s == "alias"
    | _ => false

/-- The entry stands for another one. -/
def isAlias (e : Entry) : Bool := e.hasAliasClass && e.aliasTarget?.isSome

end Entry

/-- What a modification does with its values. -/
inductive ModificationKind where
  | add
  | remove
  | replace
deriving DecidableEq, Inhabited

/-- A change of the values of one attribute. -/
structure Modification where
  kind : ModificationKind
  attr : AttributeId
  values : List Value
deriving DecidableEq, Inhabited

end Directory
