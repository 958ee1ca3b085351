import Directory.Search.Candidates
import Directory.Search.Nested

/-!
# Walkers over a span of keys

Comparisons by order and searches for pieces walk the keys of an index that can satisfy them, from
one edge to the other. An entry is shown under one of its keys only. Without a suitable index, all
entries are tested.

* `Span`: the keys walked; `Span.within`, `Span.below`: the keys inside and in front of it.
* `Span.first?`: the key under which an entry is shown.
* `SpanWalker`: a walker over an index, or over all entries; `SpanWalker.attempt`: one step, which
  comes back to an edge of the span when it is outside.
-/

namespace Directory

/-! ## Spans -/

/-- The keys that a walker keeps to. -/
inductive Span where
  | atLeast (bound : Value)
  | atMost (bound : Value)
  /-- Keys with given pieces; their stem is known if the initial piece has a normal form. -/
  | pieces (pieces : Pieces) (stem : Option String)
deriving DecidableEq, Inhabited

namespace Span

/-- The key lies in the span. -/
def within : Span → Value → Bool
  | atLeast bound, k => (compare bound k).isLE
  | atMost bound, k => (compare k bound).isLE
  | pieces _ stem, k => stem.all (k.startsWith ·)

/-- The key lies in front of the span. -/
def below : Span → Value → Bool
  | atLeast bound, k => compare k bound == .lt
  | atMost _, _ => false
  | pieces _ stem, k => stem.any fun stem => compare k (.text stem) == .lt

/-- The key under which an entry with these keys is shown. -/
def first? : Span → (keys : List Value) → Option Value
  | atLeast bound, keys => keys.find? fun k => (compare bound k).isLE
  | atMost _, keys => keys.head?
  | pieces p _, keys => keys.find? p.fits

/-- How a walker seeks in the span. -/
def seeking : Span → Seeking
  | atLeast _ | atMost _ => .inRange
  | pieces .. => .amongPieces

/-- The last key with a stem. -/
def lastWith? (t : Tables Value) (stem : String) : Option Value :=
  let fromStem := t.forward.keys.dropWhile (compare · (.text stem) == .lt)
  (fromStem.takeWhile (·.startsWith stem)).getLast?

/-- Goes to the edge of the span from which a way leads into it. -/
def toEdge (s : Span) (w : Way) : EStateM Error (IndexWalker Value) Unit := do
  match s, w with
  | atLeast bound, .forward => IndexWalker.beforeValue none bound
  | atMost bound, .backward => IndexWalker.afterValue none bound
  | atLeast _, .backward | atMost _, .forward | pieces _ none, _ => IndexWalker.restart w
  | pieces _ (some stem), .forward => IndexWalker.beforeValue none (.text stem)
  | pieces _ (some stem), .backward =>
    match lastWith? (← get).tables stem with
    | some k => IndexWalker.afterValue none k
    | none => IndexWalker.beforeValue none (.text stem)

end Span

/-! ## Walkers -/

/-- A scan of all entries under tests. -/
abbrev ScanWalker := TestedWalker MasterWalker

/-- The operations of a scan, which refuses to seek a place that is named by a key. -/
def ScanWalker.navigation (p : Partition) : Navigation ScanWalker SearchKey :=
  TestedWalker.navigation p MasterWalker.navigation .scan

/-- Where a walker over a span takes its elements from. -/
inductive Backing where
  | indexed (c : IndexWalker Value)
  | fullScan (c : ScanWalker)
deriving Inhabited

/-- A walker over the entries with a key in a span. -/
structure SpanWalker where
  backing : Backing
  span : Span
  closed : Bool
deriving Inhabited

namespace SpanWalker

/-- An operation of the walker over the index, if there is one. -/
def onIndex {α : Type} (m : EStateM Error (IndexWalker Value) α) :
    EStateM Error SpanWalker (Option α) := fun c =>
  match c.backing with
  | .fullScan _ => .ok none c
  | .indexed k => inside (fun k => { c with backing := .indexed k }) ((some <$> m) k)

/-- An operation of the walker inside, whichever it is. -/
def onBacking {α : Type} (m : EStateM Error (IndexWalker Value) α)
    (m' : EStateM Error ScanWalker α) : EStateM Error SpanWalker α := fun c =>
  match c.backing with
  | .indexed k => inside (fun k => { c with backing := .indexed k }) (m k)
  | .fullScan k => inside (fun k => { c with backing := .fullScan k }) (m' k)

/-- A walker at the front edge of a span of an index. -/
def ofTables (t : Tables Value) (s : Span) : SpanWalker :=
  let c := IndexWalker.ofTables t .forward
  match s.toEdge .forward c with
  | .ok _ c | .error _ c => ⟨.indexed c, s, false⟩

/-- A walker over all entries under a test. -/
def ofScan (c : ScanWalker) (s : Span) : SpanWalker := ⟨.fullScan c, s, false⟩

/-- Moves by one tuple of the index. Outside the span, the walk comes back to the edge in front of
it, or ends at the edge behind it. -/
def attempt (w : Way) : EStateM Error SpanWalker (Option Bool) := do
  let s := (← get).span
  match ← onIndex (IndexWalker.advance w) with
  | none | some false => return some false
  | some true =>
    match ← onIndex (do return (← IndexWalker.element, (← get).tables)) with
    | none => return some false
    | some (e, t) =>
      if s.within e.key then
        return if s.first? (t.keysOf e.id).toList == some e.key then some true else none
      else if s.below e.key == (w = .forward) then
        let _ ← onIndex (s.toEdge w)
        return none
      else
        let _ ← onIndex (s.toEdge w.opposite)
        return some false

/-- A number that the tuples or the entries do not exceed. -/
def size (c : SpanWalker) : Nat :=
  match c.backing with
  | .indexed k => (k.tables.tuples k.direction).length
  | .fullScan k => k.inner.table.size

variable (p : Partition)

/-- Goes to a place in the index; a key outside the span leads to the edge that is nearer. -/
def seek (s : Seek) (id : Option EntryId) (key : SearchKey) : EStateM Error SpanWalker Unit := do
  ensureOpen (← get).closed s.name
  let span := (← get).span
  onBacking
    (do
      span.seeking.check s key
      match key with
      | none => return ()
      | some k =>
        if span.below k then span.toEdge .forward
        else if span.within k then IndexWalker.navigation.seek s id k
        else span.toEdge .backward)
    ((ScanWalker.navigation p).seek s id key)

/-- The operations of walkers over a span. -/
def navigation : Navigation SpanWalker SearchKey :=
  .ofWays (seek p)
    (fun w => do
      ensureOpen (← get).closed w.startName
      onBacking ((← get).span.toEdge w) ((ScanWalker.navigation p).restart w))
    (fun w => do
      ensureOpen (← get).closed w.name
      match (← get).backing with
      | .indexed k => rounds (attempt w) ((k.tables.tuples k.direction).length + 1)
      | .fullScan _ => onBacking (return false) ((ScanWalker.navigation p).advance w))
    (do
      ensureOpen (← get).closed "get()"
      onBacking
        (do
          let e ← IndexWalker.element
          return ⟨some e.key, e.id, e.entry⟩)
        (ScanWalker.navigation p).element)
    (fun c => !c.closed && match c.backing with
      | .indexed k => IndexWalker.navigation.available k
      | .fullScan k => (ScanWalker.navigation p).available k)
    (fun c => { c with closed := true, backing := match c.backing with
      | .indexed k => .indexed (IndexWalker.navigation.close k)
      | .fullScan k => .fullScan ((ScanWalker.navigation p).close k) })
    SpanWalker.closed size

end SpanWalker

end Directory
