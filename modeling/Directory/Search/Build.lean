import Directory.Search.Candidates
import Directory.Search.Estimate

/-!
# From filters to cursors

* `SearchCursor.ofFilter`: the cursor of a filter in normal form. A condition that an index answers
  takes its candidates from there; any other tests all entries.
* A conjunction takes the candidates of the condition with the least estimate, the first of several,
  and tests the others on them in the order of their estimates.
-/

namespace Directory

namespace SearchCursor

/-- A filter and its cursor, if that could be built. -/
abbrev Built := Filter × Except Error SearchCursor

/-- All entries that satisfy a filter. -/
def scanFor (p : Partition) (f : Filter) : Except Error SearchCursor := do
  return scan p (← Evaluator.ofFilter p f) true

/-- The base entry of a scope, if it is stored. -/
def ofBase (p : Partition) (base : EntryId) : SearchCursor :=
  match p.get? base with
  | some e => singleton ⟨none, base, some e⟩
  | none => empty

/-- The cursor of a conjunction; of no conditions, all entries. -/
def conjunction (p : Partition) (parts : List Built) : Except Error SearchCursor := do
  match parts.mergeSort fun x y => x.1.estimate ≤ y.1.estimate with
  | [] => return all p
  | (_, driver) :: others =>
    let xs ← Evaluator.ofFilters p (others.map Prod.fst)
    return both (← driver) xs

/-- The cursor of a disjunction; of no conditions, no entry. -/
def disjunction (p : Partition) (parts : List Built) : Except Error SearchCursor := do
  if parts.isEmpty then return empty
  let cs ← parts.mapM Prod.snd
  either cs (← Evaluator.ofFilters p (parts.map Prod.fst))

mutual

/-- The cursor of a filter in normal form. -/
def ofFilter (p : Partition) : Filter → Except Error SearchCursor
  | .scope b .base _ _ => .ok (ofBase p b)
  | .scope b s m _ => scope p b s m.followsBelow
  | .presence a n =>
    if p.hasUserIndex a then .ok (underKey p.presence a none) else scanFor p (.presence a n)
  | .comparison .atLeast a v _ => range p .atLeast a v
  | .comparison .atMost a v _ => range p .atMost a v
  | .comparison op a v n =>
    match p.userIndex? a with
    | some x => .ok (underKey x v (some v))
    | none => scanFor p (.comparison op a v n)
  | .substring a pieces _ => .ok (substring p a pieces)
  | .extensible a r v d n => scanFor p (.extensible a r v d n)
  | .and fs _ => conjunction p (buildAll p fs)
  | .or fs _ => disjunction p (buildAll p fs)
  | .not f _ => do return scan p (← Evaluator.ofFilter p f) false

/-- The filters with their cursors. -/
def buildAll (p : Partition) : List Filter → List Built
  | [] => []
  | f :: fs => (f, ofFilter p f) :: buildAll p fs

end

end SearchCursor

end Directory
