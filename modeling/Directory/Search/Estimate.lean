import Directory.Partition.Basic

/-!
# Estimates

The number of candidates that a search for a filter would look at, as far as the indices tell.

* `maxEstimate`: the estimate where they tell nothing; no estimate exceeds it.
* `Filter.annotate`: the filter with an estimate at every node.
-/

namespace Directory

/-- The greatest estimate. -/
def maxEstimate : Nat := 0x7fffffffffffffff

/-- The sum of two words of 64 bits, or the greatest word if it exceeds that. -/
def saturatingAdd (m n : Nat) : Nat := min (m + n) 0xffffffffffffffff

namespace Partition

/-- The number of tuples in the index of an attribute. -/
def estimateAll (p : Partition) (a : AttributeId) : Nat :=
  ((p.userIndex? a).map Index.count).getD maxEstimate

/-- The number of tuples that satisfy a comparison. -/
def estimateComparison (p : Partition) (op : Comparison) (a : AttributeId) (v : Value) : Nat :=
  match p.userIndex? a with
  | none => maxEstimate
  | some x =>
    match op with
    | .equality | .approximate => x.countOf v
    | .atLeast => (x.atLeastCount v).toOption.getD maxEstimate
    | .atMost => (x.atMostCount v).toOption.getD maxEstimate

/-- The number of entries in a scope, or a bound on it. -/
def estimateScope (p : Partition) (base : EntryId) (scope : SearchScope) (follow : Bool) : Nat :=
  match scope with
  | .base => 1
  | .oneLevel =>
    if follow then saturatingAdd (p.childCount base) (p.system.oneAlias.countOf base)
    else p.childCount base
  | .subtree => p.count

end Partition

namespace Filter

/-- The estimate of a filter; one that has none may be of any size. -/
def estimate (f : Filter) : Nat := f.estimate?.getD maxEstimate

/-- The least of the estimates. -/
def leastEstimate (fs : List Filter) : Nat := ((fs.map estimate).min?).getD maxEstimate

/-- The sum of the estimates. -/
def totalEstimate (fs : List Filter) : Nat := (fs.map estimate).foldl saturatingAdd 0

/-- The filter with this estimate at its root, or the greatest one. -/
def withEstimate (f : Filter) (n : Nat) : Filter := f.setEstimate (some (min n maxEstimate))

mutual

/-- The filter with an estimate at every node. -/
def annotate (p : Partition) : Filter → Filter
  | scope b s m n => (scope b s m n).withEstimate (p.estimateScope b s m.followsBelow)
  | presence a n => (presence a n).withEstimate (p.estimateAll a)
  | comparison op a v n => (comparison op a v n).withEstimate (p.estimateComparison op a v)
  | substring a ps n => (substring a ps n).withEstimate (p.estimateAll a)
  | extensible a r v d n =>
    (extensible a r v d n).withEstimate ((a.map p.estimateAll).getD maxEstimate)
  | and fs n =>
    let fs := annotateAll p fs
    (and fs n).withEstimate (leastEstimate fs)
  | or fs n =>
    let fs := annotateAll p fs
    (or fs n).withEstimate (totalEstimate fs)
  | not f n => (not (f.annotate p) n).withEstimate maxEstimate

/-- The filters with estimates at every node. -/
def annotateAll (p : Partition) : List Filter → List Filter
  | [] => []
  | f :: fs => f.annotate p :: annotateAll p fs

end

end Filter

end Directory
