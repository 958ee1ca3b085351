import Directory.Cursor.Basic
import Directory.Partition.Basic
import Directory.Search.Pattern

/-!
# Evaluators

An evaluator tests whether an entry satisfies a filter. Where an attribute had an index when the
evaluator was made, it asks the index; for the rest it reads the record that is stored at the time.

* `Evaluator.ofFilter`: the evaluator of a filter in normal form.
* `evaluateId`, `evaluateEntry`, `evaluate`: the test by the number of an entry, on a record, and on
  an element of a cursor, which then holds the record that was read.
* `inScope`: the test of a scope, where aliases are hidden in favour of their targets if they are
  followed.
-/

namespace Directory

/-- What search cursors are ordered by, if by anything. -/
abbrev SearchKey := Option Value

/-- A test of entries. -/
inductive Evaluator where
  | scope (base : EntryId) (scope : SearchScope) (follow : Bool)
  | presence (attr : AttributeId) (indexed : Bool)
  | comparison (op : Comparison) (attr : AttributeId) (value : Value) (indexed : Bool)
  | substring (attr : AttributeId) (pieces : Pieces) (indexed : Bool)
  | extensible (attr : Option AttributeId) (rule : Option String) (value : Value) (inName : Bool)
  | and (children : List Evaluator)
  | or (children : List Evaluator)
  | not (child : Evaluator)
deriving Inhabited

/-- A value compares so with the asserted one. -/
def Comparison.holds (op : Comparison) (asserted v : Value) : Bool :=
  match op with
  | equality | approximate => v == asserted
  | atLeast => (compare asserted v).isLE
  | atMost => (compare v asserted).isLE

/-- Whether an index can answer a comparison of an attribute. A range needs an attribute with an
order. -/
def Partition.indexesComparison (p : Partition) (op : Comparison) (a : AttributeId) :
    Except Error Bool :=
  match op with
  | .equality | .approximate => .ok (p.hasUserIndex a)
  | .atLeast | .atMost =>
    if p.schema.isOrdered a then .ok ((p.userIndex? a).any Index.ordered)
    else .error (.noRangeOrdering a)

/-- An entry lies in a scope. If aliases are followed, their targets count in their place. -/
def Partition.inScope (p : Partition) (base : EntryId) (scope : SearchScope) (follow : Bool)
    (id : EntryId) : Bool :=
  let below (structural aliased : Index EntryId) : Bool :=
    !(follow && (p.system.aliasTarget.key? id).isSome) &&
      (structural.has base id || (follow && aliased.has base id))
  match scope with
  | .base => id == base
  | .oneLevel => below p.system.oneLevel p.system.oneAlias
  | .subtree => below p.system.subLevel p.system.subAlias

namespace Evaluator

mutual

/-- The evaluator of a filter in normal form. -/
def ofFilter (p : Partition) : Filter → Except Error Evaluator
  | .scope b s m _ => .ok (scope b s m.followsBelow)
  | .presence a _ => .ok (presence a (p.hasUserIndex a))
  | .comparison op a v _ => do return comparison op a v (← p.indexesComparison op a)
  | .substring a pieces _ => .ok (substring a pieces (p.hasUserIndex a))
  | .extensible a none v d _ => .ok (extensible a none v d)
  | .extensible a (some r) v d _ =>
    if p.schema.supportsRule r then .ok (extensible a (some r) v d)
    else .error (.unsupportedRule r)
  | .and fs _ => do return and (← ofFilters p fs)
  | .or fs _ => do return or (← ofFilters p fs)
  | .not f _ => do return not (← ofFilter p f)

/-- The evaluators of filters. -/
def ofFilters (p : Partition) : List Filter → Except Error (List Evaluator)
  | [] => .ok []
  | f :: fs => do
    let e ← ofFilter p f
    let es ← ofFilters p fs
    return e :: es

end

mutual

/-- The test never reads a record. -/
def indexOnly : Evaluator → Bool
  | scope .. => true
  | presence _ indexed | comparison _ _ _ indexed | substring _ _ indexed => indexed
  | extensible .. => false
  | and es | or es => indexOnlyAll es
  | not e => e.indexOnly

/-- None of the tests ever reads a record. -/
def indexOnlyAll : List Evaluator → Bool
  | [] => true
  | e :: es => e.indexOnly && indexOnlyAll es

end

/-! ## On a record -/

/-- Some value of an attribute, in normal form, satisfies `test`. -/
def anyValue (p : Partition) (e : Entry) (a : AttributeId) (test : Value → Bool) :
    Except Error Bool := do
  return (← (e.valuesOf a).mapM (p.schema.normalize a)).any test

/-- The values that an extensible assertion looks at: those of the attribute, or of all attributes,
and on demand those in the name of the entry. -/
def extensibleValues (e : Entry) (a : Option AttributeId) (inName : Bool) :
    List (AttributeId × Value) :=
  let wanted (b : AttributeId) : Bool := a.all (· == b)
  let held := (e.attributes.toList.filter (wanted ·.1)).flatMap fun b => b.2.map (b.1, ·)
  let named := (e.name.rdns.filter (wanted ·.type)).map fun r => (r.type, Value.text r.value)
  if inName then held ++ named else held

/-- Some of the values matches under the rule; values after the first match are not looked at. -/
def anyExtensible (p : Partition) (rule : Option String) (asserted : Value) :
    List (AttributeId × Value) → Except Error Bool
  | [] => .ok false
  | (a, v) :: vs => do
    if ← p.schema.extensibleMatch a rule asserted v then return true
    anyExtensible p rule asserted vs

mutual

/-- The test on a record. -/
def evaluateEntry (p : Partition) (e : Entry) : Evaluator → Except Error Bool
  | scope b s follow => .ok (p.inScope b s follow e.id)
  | presence a _ => .ok (e.has a)
  | comparison op a v _ => anyValue p e a (op.holds v)
  | substring a pieces _ => anyValue p e a pieces.fits
  | extensible a rule v inName => anyExtensible p rule v (extensibleValues e a inName)
  | and xs => evaluateEntryAll p e xs
  | or xs => evaluateEntryAny p e xs
  | not x => do return !(← x.evaluateEntry p e)

/-- All tests hold; those after the first that does not are left out. -/
def evaluateEntryAll (p : Partition) (e : Entry) : List Evaluator → Except Error Bool
  | [] => .ok true
  | x :: xs => do if ← x.evaluateEntry p e then evaluateEntryAll p e xs else return false

/-- Some test holds; those after it are left out. -/
def evaluateEntryAny (p : Partition) (e : Entry) : List Evaluator → Except Error Bool
  | [] => .ok false
  | x :: xs => do if ← x.evaluateEntry p e then return true else evaluateEntryAny p e xs

end

/-! ## By number -/

/-- What an index answers about an entry. -/
def askIndex (x : Index Value) (op : Comparison) (v : Value) (id : EntryId) : Except Error Bool :=
  match op with
  | .equality | .approximate => .ok (x.has v id)
  | .atLeast => x.hasAtLeast id v
  | .atMost => x.hasAtMost id v

/-- The test on the record that is stored under the number; it fails if there is none. -/
def evaluateStored (p : Partition) (id : EntryId) (x : Evaluator) : Except Error Bool :=
  match p.get? id with
  | some e => x.evaluateEntry p e
  | none => .ok false

/-- The index of an attribute, if the test is to use it. -/
def indexFor? (p : Partition) (a : AttributeId) (indexed : Bool) : Option (Index Value) :=
  if indexed then p.userIndex? a else none

mutual

/-- The test by the number of an entry. -/
def evaluateId (p : Partition) (id : EntryId) : Evaluator → Except Error Bool
  | scope b s follow => .ok (p.inScope b s follow id)
  | presence a true => .ok (p.presence.has a id)
  | presence a false => evaluateStored p id (presence a false)
  | comparison op a v indexed =>
    match indexFor? p a indexed with
    | some x => askIndex x op v id
    | none => evaluateStored p id (comparison op a v indexed)
  | substring a pieces indexed =>
    match indexFor? p a indexed with
    | some x => .ok ((x.keys id).any pieces.fits)
    | none => evaluateStored p id (substring a pieces indexed)
  | extensible a rule v inName => evaluateStored p id (extensible a rule v inName)
  | and xs => evaluateIdAll p id xs
  | or xs => evaluateIdAny p id xs
  | not x => do return !(← x.evaluateId p id)

/-- All tests hold; those after the first that does not are left out. -/
def evaluateIdAll (p : Partition) (id : EntryId) : List Evaluator → Except Error Bool
  | [] => .ok true
  | x :: xs => do if ← x.evaluateId p id then evaluateIdAll p id xs else return false

/-- Some test holds; those after it are left out. -/
def evaluateIdAny (p : Partition) (id : EntryId) : List Evaluator → Except Error Bool
  | [] => .ok false
  | x :: xs => do if ← x.evaluateId p id then return true else evaluateIdAny p id xs

end

/-! ## On an element -/

/-- The test on the record that is stored now, which the element then holds. -/
def refresh (p : Partition) (x : Evaluator) : EStateM Error (Element SearchKey) Bool := do
  let entry := p.get? (← get).id
  modify fun el => { el with entry }
  match entry with
  | some e => x.evaluateEntry p e
  | none => return false

mutual

/-- The test on an element. Where records have to be read, the element then holds the last one. -/
def evaluate (p : Partition) : Evaluator → EStateM Error (Element SearchKey) Bool
  | and xs => do
    if indexOnlyAll xs then evaluateIdAll p (← get).id xs else evaluateAll p xs
  | or xs => do
    if indexOnlyAll xs then evaluateIdAny p (← get).id xs else evaluateAny p xs
  | not x => do return !(← x.evaluate p)
  | x => do
    if x.indexOnly then x.evaluateId p (← get).id else x.refresh p

/-- All tests hold; those after the first that does not are left out. -/
def evaluateAll (p : Partition) : List Evaluator → EStateM Error (Element SearchKey) Bool
  | [] => return true
  | x :: xs => do if ← x.evaluate p then evaluateAll p xs else return false

/-- Some test holds; those after it are left out. -/
def evaluateAny (p : Partition) : List Evaluator → EStateM Error (Element SearchKey) Bool
  | [] => return false
  | x :: xs => do if ← x.evaluate p then return true else evaluateAny p xs

end

end Evaluator

end Directory
