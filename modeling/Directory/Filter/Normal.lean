import Directory.Filter.Basic
import Directory.Schema

/-!
# Normal forms of filters

* `Filter.normalize`: the filter with every asserted value in the normal form of its attribute, so
  that it compares directly with the keys of an index. Extensible rules normalize for themselves.
-/

namespace Directory

/-- A piece in the normal form of its attribute, as a text. -/
def Schema.normalizePiece (s : Schema) (a : AttributeId) (piece : String) :
    Except Error String := do
  return (← s.normalize a (.text piece)).display

/-- All pieces in normal form. -/
def Pieces.normalize (s : Schema) (a : AttributeId) (p : Pieces) : Except Error Pieces := do
  let initial ← p.initial.mapM (s.normalizePiece a)
  let inner ← p.inner.mapM (s.normalizePiece a)
  let final ← p.final.mapM (s.normalizePiece a)
  return ⟨initial, inner, final⟩

namespace Filter

mutual

/-- The filter with every asserted value in normal form. -/
def normalize (s : Schema) : Filter → Except Error Filter
  | comparison op a v n => do return comparison op a (← s.normalize a v) n
  | substring a p n => do return substring a (← p.normalize s a) n
  | and fs n => do return and (← normalizeAll s fs) n
  | or fs n => do return or (← normalizeAll s fs) n
  | not f n => do return not (← f.normalize s) n
  | scope b c m n => .ok (scope b c m n)
  | presence a n => .ok (presence a n)
  | extensible a r v d n => .ok (extensible a r v d n)

/-- The filters in normal form. -/
def normalizeAll (s : Schema) : List Filter → Except Error (List Filter)
  | [] => .ok []
  | f :: fs => do
    let g ← f.normalize s
    let gs ← normalizeAll s fs
    return g :: gs

end

end Filter

end Directory
