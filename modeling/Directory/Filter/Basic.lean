import Directory.Value
import Directory.Ident

/-!
# Filters

A filter is a tree of assertions about an entry. Each node can carry an estimate of how many
candidates a search for it has to look at.

* `Filter`: the tree; `SearchScope`, `AliasMode`, `Comparison`, `Pieces` are its parts.
* `estimate?`, `setEstimate`: the estimate of the root.
* `depth`, `isLeaf`: the shape.
* `beq_iff`: equality of filters is decided node by node.
-/

namespace Directory

/-- The part of the tree a search looks at. -/
inductive SearchScope where
  /-- The base entry alone. -/
  | base
  /-- The children of the base. -/
  | oneLevel
  /-- The base and everything below it. -/
  | subtree
deriving DecidableEq, Inhabited

/-- When aliases are followed. -/
inductive AliasMode where
  | never
  | inSearching
  | findingBase
  | always
deriving DecidableEq, Inhabited

/-- An alias in place of the base is followed. -/
def AliasMode.followsBase : AliasMode → Bool
  | findingBase | always => true
  | never | inSearching => false

/-- Aliases below the base are followed. -/
def AliasMode.followsBelow : AliasMode → Bool
  | inSearching | always => true
  | never | findingBase => false

/-- How an assertion compares a value. -/
inductive Comparison where
  | equality
  | atLeast
  | atMost
  /-- Taken as equality. -/
  | approximate
deriving DecidableEq, Inhabited

/-- The pieces of a text that occur in this order: at the start, inside and at the end. -/
structure Pieces where
  initial : Option String
  inner : List String
  final : Option String
deriving DecidableEq, Inhabited

/-- The number of pieces. -/
def Pieces.count (p : Pieces) : Nat :=
  p.inner.length + p.initial.toList.length + p.final.toList.length

/-- A condition on entries. -/
inductive Filter where
  /-- The entry lies in a scope. -/
  | scope (base : EntryId) (scope : SearchScope) (mode : AliasMode) (estimate : Option Nat)
  /-- The entry has the attribute. -/
  | presence (attr : AttributeId) (estimate : Option Nat)
  /-- Some value of the attribute compares so. -/
  | comparison (op : Comparison) (attr : AttributeId) (value : Value) (estimate : Option Nat)
  /-- Some value of the attribute has the pieces. -/
  | substring (attr : AttributeId) (pieces : Pieces) (estimate : Option Nat)
  /-- Some value, of one attribute or of any, matches under a rule; with `inName` the values in the
  name of the entry count too. -/
  | extensible (attr : Option AttributeId) (rule : Option String) (value : Value) (inName : Bool)
    (estimate : Option Nat)
  | and (children : List Filter) (estimate : Option Nat)
  | or (children : List Filter) (estimate : Option Nat)
  | not (child : Filter) (estimate : Option Nat)
deriving Inhabited

namespace Filter

/-- The estimate of the root. -/
def estimate? : Filter → Option Nat
  | scope _ _ _ n | presence _ n | comparison _ _ _ n | substring _ _ n | extensible _ _ _ _ n => n
  | and _ n | or _ n | not _ n => n

/-- The filter with another estimate at its root. -/
def setEstimate (n : Option Nat) : Filter → Filter
  | scope b s m _ => scope b s m n
  | presence a _ => presence a n
  | comparison op a v _ => comparison op a v n
  | substring a p _ => substring a p n
  | extensible a r v d _ => extensible a r v d n
  | and fs _ => and fs n
  | or fs _ => or fs n
  | not f _ => not f n

/-- The filter asserts something by itself. -/
def isLeaf : Filter → Bool
  | and .. | or .. | not .. => false
  | _ => true

mutual

/-- The number of nodes on the longest way down. -/
def depth : Filter → Nat
  | and fs _ | or fs _ => 1 + depthAll fs
  | not f _ => 1 + f.depth
  | scope .. | presence .. | comparison .. | substring .. | extensible .. => 1

/-- The greatest depth. -/
def depthAll : List Filter → Nat
  | [] => 0
  | f :: fs => max f.depth (depthAll fs)

end

/-! ## Equality -/

mutual

/-- Equality, node by node. -/
def beq : Filter → Filter → Bool
  | scope b s m n, scope b' s' m' n' => b = b' && s = s' && m = m' && n = n'
  | presence a n, presence a' n' => a = a' && n = n'
  | comparison op a v n, comparison op' a' v' n' => op = op' && a = a' && v = v' && n = n'
  | substring a p n, substring a' p' n' => a = a' && p = p' && n = n'
  | extensible a r v d n, extensible a' r' v' d' n' =>
    a = a' && r = r' && v = v' && d = d' && n = n'
  | and fs n, and fs' n' => beqAll fs fs' && n = n'
  | or fs n, or fs' n' => beqAll fs fs' && n = n'
  | not f n, not f' n' => beq f f' && n = n'
  | _, _ => false

/-- Equality of lists. -/
def beqAll : List Filter → List Filter → Bool
  | [], [] => true
  | f :: fs, g :: gs => beq f g && beqAll fs gs
  | _, _ => false

end

mutual

theorem beq_iff : (f g : Filter) → beq f g = true ↔ f = g
  | scope .., g => by cases g <;> simp [beq, and_assoc]
  | presence .., g => by cases g <;> simp [beq]
  | comparison .., g => by cases g <;> simp [beq, and_assoc]
  | substring .., g => by cases g <;> simp [beq, and_assoc]
  | extensible .., g => by cases g <;> simp [beq, and_assoc]
  | and fs _, g => by cases g <;> simp [beq, beqAll_iff fs]
  | or fs _, g => by cases g <;> simp [beq, beqAll_iff fs]
  | not f _, g => by cases g <;> simp [beq, beq_iff f]

theorem beqAll_iff : (fs gs : List Filter) → beqAll fs gs = true ↔ fs = gs
  | [], gs => by cases gs <;> simp [beqAll]
  | f :: fs, gs => by cases gs <;> simp [beqAll, beq_iff f, beqAll_iff fs]

end

instance : DecidableEq Filter := fun f g => decidable_of_iff _ (beq_iff f g)

end Filter

end Directory
