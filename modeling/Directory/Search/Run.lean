import Directory.Filter.Normal
import Directory.Search.Build
import Directory.Search.Request
import Directory.Search.Results

/-!
# Searching

* `Partition.search`: the results of a request. The filter has to keep to the limits of the
  partition and the base has to exist; an alias in its place is followed if the request says so.
-/

namespace Directory

namespace Partition

/-- The entry that a search starts from. -/
def searchBase (p : Partition) (base : Dn) (follow : Bool) : Except Error EntryId := do
  let some id := p.idOf? base | throw (.noSearchBase base)
  if !follow then return id
  let e ← p.lookup id
  match e.aliasTarget? with
  | none => return id
  | some written =>
    if !e.isAlias then return id
    let target ← Dn.parse written
    let some id := p.idOf? target | throw (.danglingBaseAlias base target)
    return id

/-- The base alone, if it satisfies the filter. -/
def searchBaseAlone (p : Partition) (base : EntryId) (f : Filter) : Except Error SearchCursor := do
  let e ← p.lookup base
  let x ← Evaluator.ofFilter p f
  if ← x.evaluateEntry p e then
    return .singleton ⟨none, base, some e⟩
  else return .empty

/-- The entries of the scope below a base that satisfy the filter. -/
def searchScope (p : Partition) (base : EntryId) (q : SearchRequest) (f : Filter) :
    Except Error SearchCursor :=
  SearchCursor.ofFilter p ((Filter.and [.scope base q.scope q.mode none, f] none).annotate p)

/-- The results of a request. -/
def search (p : Partition) (q : SearchRequest) : Except Error SearchResults := do
  p.config.limits.check q.filter
  let base ← p.searchBase q.base q.mode.followsBase
  let f ← q.filter.normalize p.schema
  let c ← if q.scope = .base then p.searchBaseAlone base f else p.searchScope base q f
  return .ofCursor c q.sizeLimit

end Partition

end Directory
