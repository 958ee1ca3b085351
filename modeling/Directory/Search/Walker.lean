import Directory.Search.Build
import Directory.Search.Span

/-!
# Walkers of filters

A walker of a filter has a walker for each of its nodes that is walked, each with a place of its
own.

* `Layer`: the kinds of walkers, if those inside have states of type `σ`.
* `Layer.Kind`: a walker whose kind is known, with its operations; `Layer.navigation`: the
  operations of any kind.
* `Walker`: a number of layers, one inside the other; `Walker.navigation`: their operations.
* `Walker.build`, `Walker.ofFilter`: the walker of a filter in normal form, which has as many layers
  as the filter.
-/

namespace Directory

/-! ## Kinds of walkers -/

/-- A walker of a node of a filter. Those of the nodes inside have states of type `σ`. -/
inductive Layer (σ : Type) where
  | empty (c : EmptyWalker)
  | single (c : SingleWalker)
  | master (c : MasterWalker)
  | key (c : KeyWalker)
  | scope (c : ScopeWalker)
  | scan (c : ScanWalker)
  | span (c : SpanWalker)
  | both (c : TestedWalker σ)
  | either (c : EitherWalker σ)

namespace Layer

/-- A walker of one kind, with its operations and the way back to walkers of any kind. -/
structure Kind (ρ : Type) where
  State : Type
  operations : Navigation State SearchKey
  state : State
  wrap : State → ρ

/-- An operation of the kind. -/
def Kind.run {ρ α : Type} (k : Kind ρ)
    (m : Navigation k.State SearchKey → EStateM Error k.State α) : EStateM.Result Error ρ α :=
  inside k.wrap (m k.operations k.state)

variable {σ : Type} (p : Partition)

/-- The kind of a walker, if `n` has the operations of the walkers inside. -/
def kind (n : Navigation σ SearchKey) : Layer σ → Kind (Layer σ)
  | empty c => ⟨_, EmptyWalker.navigation, c, empty⟩
  | single c => ⟨_, SingleWalker.navigation, c, single⟩
  | master c => ⟨_, MasterWalker.navigation, c, master⟩
  | key c => ⟨_, KeyWalker.navigation, c, key⟩
  | scope c => ⟨_, ScopeWalker.navigation, c, scope⟩
  | scan c => ⟨_, ScanWalker.navigation p, c, scan⟩
  | span c => ⟨_, SpanWalker.navigation p, c, span⟩
  | both c => ⟨_, TestedWalker.navigation p n (.refused "AndCursor"), c, both⟩
  | either c => ⟨_, EitherWalker.navigation p n, c, either⟩

/-- The operations of walkers of any kind. -/
def navigation (n : Navigation σ SearchKey) : Navigation (Layer σ) SearchKey :=
  .ofWays (fun s id key c => (c.kind p n).run (·.seek s id key))
    (fun w c => (c.kind p n).run (·.restart w)) (fun w c => (c.kind p n).run (·.advance w))
    (fun c => (c.kind p n).run (·.element))
    (fun c => (c.kind p n).operations.available (c.kind p n).state)
    (fun c => (c.kind p n).wrap ((c.kind p n).operations.close (c.kind p n).state))
    (fun c => (c.kind p n).operations.closed (c.kind p n).state)
    (fun c => (c.kind p n).operations.size (c.kind p n).state)

/-! ## Walkers of nodes -/

/-- A walker before the first of all entries. -/
def all : Layer σ := master ⟨p.master, .beforeFirst, none, false⟩

/-- A walker over the entries that an evaluator accepts, or over the others. -/
def testAll (x : Evaluator) (expected : Bool) : ScanWalker :=
  .of ⟨p.master, .beforeFirst, none, false⟩ [⟨x, expected⟩]

/-- All entries that satisfy a filter. -/
def scanFor (f : Filter) : Except Error (Layer σ) := do
  return scan (testAll p (← Evaluator.ofFilter p f) true)

/-- The base entry of a scope, if it is stored. -/
def ofBase (base : EntryId) : Layer σ :=
  match p.get? base with
  | some e => single ⟨⟨none, base, some e⟩, .beforeFirst, false⟩
  | none => empty ⟨false⟩

/-- The entries of a scope below its base, with the targets of aliases in their place if these are
followed. -/
def ofScope (base : EntryId) (s : SearchScope) (follow : Bool) : Except Error (Layer σ) :=
  let below (structural aliased : Index EntryId) : Layer σ :=
    scope ⟨.ofTables structural.tables base none,
      if follow then some (.ofTables aliased.tables base none) else none,
      if follow then some p.system.aliasTarget.tables else none, .structural, false⟩
  match s with
  | .base => .error (.notSupported "Base scope")
  | .oneLevel => .ok (below p.system.oneLevel p.system.oneAlias)
  | .subtree => .ok (below p.system.subLevel p.system.subAlias)

/-- The entries of a scope. -/
def within (base : EntryId) (s : SearchScope) (follow : Bool) : Except Error (Layer σ) :=
  match s with
  | .base => .ok (ofBase p base)
  | s => ofScope p base s follow

/-- The entries that have an attribute. -/
def ofPresence (f : Filter) (a : AttributeId) : Except Error (Layer σ) :=
  if p.hasUserIndex a then .ok (key (.ofTables p.presence.tables a none)) else scanFor p f

/-- The entries with a value in a range. -/
def ofRange (f : Filter) (s : Span) (a : AttributeId) : Except Error (Layer σ) := do
  if !p.schema.isOrdered a then throw (.noRangeOrdering a)
  match (p.userIndex? a).filter Index.ordered with
  | some x => return span (.ofTables x.tables s)
  | none => return span (.ofScan (testAll p (← Evaluator.ofFilter p f) true) s)

/-- The entries with a value that has the pieces. -/
def ofPieces (f : Filter) (a : AttributeId) (pieces : Pieces) : Except Error (Layer σ) := do
  let s := Span.pieces pieces (pieces.stem? p.schema a)
  match p.userIndex? a with
  | some x => return span (.ofTables x.tables s)
  | none => return span (.ofScan (testAll p (← Evaluator.ofFilter p f) true) s)

/-- The entries with a value that compares so with another. -/
def ofComparison (f : Filter) (op : Comparison) (a : AttributeId) (v : Value) :
    Except Error (Layer σ) :=
  match op with
  | .atLeast => ofRange p f (.atLeast v) a
  | .atMost => ofRange p f (.atMost v) a
  | .equality | .approximate =>
    match p.userIndex? a with
    | some x => .ok (key (.ofTables x.tables v (some v)))
    | none => scanFor p f

/-- The walker of a conjunction: the condition with the least estimate, tested by the others. -/
def conjunction (parts : List (Filter × Except Error σ)) : Except Error (Layer σ) := do
  match parts.mergeSort fun x y => x.1.estimate ≤ y.1.estimate with
  | [] => return all p
  | (_, driver) :: others =>
    let xs ← Evaluator.ofFilters p (others.map Prod.fst)
    return both (.of (← driver) (xs.map (⟨·, true⟩)))

/-- The walker of a disjunction: all conditions in turn. -/
def disjunction (parts : List (Filter × Except Error σ)) : Except Error (Layer σ) := do
  if parts.isEmpty then return empty ⟨false⟩
  let cs ← parts.mapM Prod.snd
  let xs ← Evaluator.ofFilters p (parts.map Prod.fst)
  if cs.length = xs.length then return either (.of cs xs)
  else throw (.branchMismatch cs.length xs.length)

end Layer

/-! ## Walkers -/

/-- A walker with at most so many layers. -/
def Walker : (depth : Nat) → Type
  | 0 => Empty
  | d + 1 => Layer (Walker d)

theorem Filter.depth_pos (f : Filter) : 0 < f.depth := by
  cases f <;> rw [Filter.depth] <;> omega

namespace Walker

/-- The operations of walkers. -/
def navigation (p : Partition) : (depth : Nat) → Navigation (Walker depth) SearchKey
  | 0 => .ofWays (fun _ _ _ => Empty.elim) (fun _ => Empty.elim) (fun _ => Empty.elim) Empty.elim
      Empty.elim id Empty.elim Empty.elim
  | d + 1 => Layer.navigation p (navigation p d)

open Layer

mutual

/-- The walker of a filter in normal form, if that has at most so many layers. -/
def build (p : Partition) : (f : Filter) → (d : Nat) → f.depth ≤ d → Except Error (Walker d)
  | f, 0, h => absurd h (Nat.not_le_of_lt f.depth_pos)
  | .scope b s m _, _ + 1, _ => within p b s m.followsBelow
  | .presence a n, _ + 1, _ => ofPresence p (.presence a n) a
  | .comparison op a v n, _ + 1, _ => ofComparison p (.comparison op a v n) op a v
  | .substring a pieces n, _ + 1, _ => ofPieces p (.substring a pieces n) a pieces
  | .extensible a r v i n, _ + 1, _ => scanFor p (.extensible a r v i n)
  | .and fs _, d + 1, h => conjunction p (buildAll p fs d (by rw [Filter.depth] at h; omega))
  | .or fs _, d + 1, h => disjunction p (buildAll p fs d (by rw [Filter.depth] at h; omega))
  | .not f _, _ + 1, _ => do return scan (testAll p (← Evaluator.ofFilter p f) false)

/-- The filters with their walkers. -/
def buildAll (p : Partition) : (fs : List Filter) → (d : Nat) → Filter.depthAll fs ≤ d →
    List (Filter × Except Error (Walker d))
  | [], _, _ => []
  | f :: fs, d, h => (f, build p f d (by rw [Filter.depthAll] at h; omega)) ::
      buildAll p fs d (by rw [Filter.depthAll] at h; omega)

end

/-- The walker of a filter in normal form. -/
def ofFilter (p : Partition) (f : Filter) : Except Error (Walker f.depth) :=
  build p f f.depth (Nat.le_refl _)

end Walker

end Directory
