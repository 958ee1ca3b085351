import Directory.Search.Cursor

/-!
# Candidates

The kinds of search cursors, each given by the candidates it walks and the way it seeks. Candidates
are those of the moment when the cursor is built; the tests ask the partition of the moment when
they are made.

* `all`, `singleton`, `empty`, `underKey`, `scope`, `range`, `substring`: candidates from entries
  and indices.
* `scan`: all entries under one test.
* `both`: the candidates of one cursor under the tests of other conditions.
* `either`: the candidates of several cursors in turn, each entry with the first that has it.
-/

namespace Directory

/-- The tuples whose key satisfies `q`, of each entry only the first. -/
def Index.firstTuples (x : Index Value) (q : Value → Bool) : List (Value × EntryId) :=
  x.tables.byKey.filter fun t => (x.keys t.2).find? q == some t.1

/-- The normal form of the initial piece, if that is a text. -/
def Pieces.stem? (s : Schema) (a : AttributeId) (pieces : Pieces) : Option String := do
  let initial ← pieces.initial
  (← (s.normalize a (.text initial)).toOption).text?

/-- The value is a text that starts with the stem. -/
def Value.startsWith (stem : String) : Value → Bool
  | text s => stem.toList.isPrefixOf s.toList
  | _ => false

namespace Candidate

/-- An entry under a key, without tests. -/
def ofId (key : SearchKey) (id : EntryId) : Candidate := (⟨key, id, none⟩, [])

/-- A tuple of an index, without tests. -/
def ofTuple (t : Value × EntryId) : Candidate := ofId (some t.1) t.2

end Candidate

namespace SearchCursor

/-! ## Entries and indices -/

/-- No entry. -/
def empty : SearchCursor := ofList .byEntry []

/-- One element. -/
def singleton (e : Element SearchKey) : SearchCursor := ofList .byEntry [(e, [])]

/-- All entries. -/
def all (p : Partition) : SearchCursor :=
  ofList .byEntry (p.master.toList.map fun b => (⟨none, b.1, some b.2⟩, []))

/-- All entries under one test. -/
def scan (p : Partition) (x : Evaluator) (expected : Bool) : SearchCursor :=
  ofList .scan ((all p).candidates.map (·.withTests [⟨x, expected⟩]))

/-- The entries that an index has under a key. The elements carry the label. -/
def underKey {κ : Type} [Ord κ] (x : Index κ) (key : κ) (label : SearchKey) : SearchCursor :=
  ofList .byKey ((x.ids key).map (Candidate.ofId label))

/-- The entries of a scope below its base. If aliases are followed, their targets come last and they
are left out themselves. -/
def scope (p : Partition) (base : EntryId) (s : SearchScope) (follow : Bool) :
    Except Error SearchCursor :=
  let below (structural aliased : Index EntryId) : SearchCursor :=
    let ids := if follow then structural.ids base ++ aliased.ids base else structural.ids base
    let shown := ids.filter fun id => !(follow && (p.system.aliasTarget.key? id).isSome)
    ofList (.refused "ScopeCursor") (shown.map (Candidate.ofId none))
  match s with
  | .base => .error (.notSupported "Base scope")
  | .oneLevel => .ok (below p.system.oneLevel p.system.oneAlias)
  | .subtree => .ok (below p.system.subLevel p.system.subAlias)

/-- The entries with a value in a range, under the first of these values. Without an ordered index
all entries are tested. -/
def range (p : Partition) (op : Comparison) (a : AttributeId) (bound : Value) :
    Except Error SearchCursor := do
  match Evaluator.indexFor? p a (← p.indexesComparison op a) with
  | some x => return ofList .inRange ((x.firstTuples (op.holds bound)).map Candidate.ofTuple)
  | none => return scan p (.comparison op a bound false) true

/-- The entries with a value that has the pieces, under the first of these values; that has to start
as the normal form of the initial piece does. Without an index all entries are tested. -/
def substring (p : Partition) (a : AttributeId) (pieces : Pieces) : SearchCursor :=
  match p.userIndex? a with
  | some x =>
    let stemmed (t : Value × EntryId) : Bool :=
      (pieces.stem? p.schema a).all fun stem => t.1.startsWith stem
    ofList .amongPieces (((x.firstTuples pieces.fits).filter stemmed).map Candidate.ofTuple)
  | none => scan p (.substring a pieces false) true

/-! ## Combinations -/

/-- The candidates of a cursor that pass further tests. -/
def both (driver : SearchCursor) (others : List Evaluator) : SearchCursor :=
  ofList (.refused "AndCursor")
    (driver.candidates.map (·.withTests (others.map fun x => ⟨x, true⟩)))

/-- The candidates of cursors in turn; each evaluator refuses those that its cursor has had. -/
def inTurn (earlier : List Test) : List SearchCursor → List Evaluator → List Candidate
  | c :: cs, x :: xs =>
    c.candidates.map (·.withTests earlier) ++ inTurn (earlier ++ [⟨x, false⟩]) cs xs
  | _, _ => []

/-- The candidates of several cursors, each with the evaluator of the same condition. -/
def either (cs : List SearchCursor) (xs : List Evaluator) : Except Error SearchCursor :=
  if cs.length = xs.length then .ok (ofList (.refused "OrCursor") (inTurn [] cs xs))
  else .error (.branchMismatch cs.length xs.length)

end SearchCursor

end Directory
