import Directory.Error
import Directory.Filter.Basic

/-!
# Limits on filters

* `FilterLimits`: how deep and how wide a filter may be.
* `FilterLimits.check`: refuses a filter that exceeds them, that joins nothing, that asserts no
  piece, or whose extensible assertion names neither an attribute nor a rule.
-/

namespace Directory

/-- Bounds on the shape of a filter. -/
structure FilterLimits where
  depth : Nat
  children : Nat
  pieces : Nat
deriving DecidableEq, Inhabited

namespace FilterLimits

/-- The bounds that hold where none are given. -/
def standard : FilterLimits := ⟨32, 1024, 16⟩

/-- Refuses a number of children outside the bounds. -/
def checkWidth (l : FilterLimits) (count : Nat) : Except Error Unit :=
  if count = 0 then .error .noChildren
  else if l.children < count then .error (.tooManyChildren count l.children)
  else .ok ()

mutual

/-- Refuses a filter outside the bounds, whose root stands `depth` nodes down. -/
def checkAt (l : FilterLimits) (depth : Nat) (f : Filter) : Except Error Unit :=
  if l.depth < depth then .error (.filterTooDeep depth l.depth)
  else
    match f with
    | .and fs _ | .or fs _ => do
      l.checkWidth fs.length
      checkAllAt l (depth + 1) fs
    | .not f _ => checkAt l (depth + 1) f
    | .substring a p _ =>
      if p.count = 0 ∨ l.pieces < p.count then .error (.badPartCount a p.count l.pieces) else .ok ()
    | .extensible none none _ _ _ => .error .extensibleWithoutSubject
    | .extensible .. | .scope .. | .presence .. | .comparison .. => .ok ()

/-- Refuses filters outside the bounds that stand `depth` nodes down. -/
def checkAllAt (l : FilterLimits) (depth : Nat) : List Filter → Except Error Unit
  | [] => .ok ()
  | f :: fs => do
    checkAt l depth f
    checkAllAt l depth fs

end

/-- Refuses a filter outside the bounds. -/
def check (l : FilterLimits) (f : Filter) : Except Error Unit := l.checkAt 1 f

end FilterLimits

end Directory
