/-!
# Places in a list

* `Track`: a list with a place in it, on an element or in the gap between two.
* `start`, `rewind`, `wind`, `seek`: the place before the first element, after the last one, and in
  front of the first element of a kind.
* `next`, `previous`: move to the nearest element that is kept, and give what is kept of it.
* `toList_next`, `toList_seek`: no movement changes the list.
-/

namespace Directory

/-- A list with a place in it: what lies behind, nearest first, the element at the place, if there
is one, and what lies ahead. -/
structure Track (α : Type) where
  behind : List α
  here : Option α
  ahead : List α
deriving DecidableEq, Inhabited

namespace Track

variable {α β ε : Type}

/-- The whole list. -/
def toList (t : Track α) : List α := t.behind.reverse ++ t.here.toList ++ t.ahead

/-- The place before the first element. -/
def start (xs : List α) : Track α := ⟨[], none, xs⟩

/-- The same list, before its first element. -/
def rewind (t : Track α) : Track α := start t.toList

/-- The same list, after its last element. -/
def wind (t : Track α) : Track α := ⟨t.toList.reverse, none, []⟩

/-- The same list, in front of the first element that satisfies `p`. -/
def seek (p : α → Bool) (t : Track α) : Track α :=
  ⟨(t.toList.takeWhile (!p ·)).reverse, none, t.toList.dropWhile (!p ·)⟩

/-- The number of elements. -/
def length (t : Track α) : Nat := t.toList.length

/-- The same place, seen from the other end. -/
def mirror (t : Track α) : Track α := ⟨t.ahead, t.here, t.behind⟩

/-- Looks for the next element that is kept, with `behind` passed and `ahead` to come. An element
that cannot be judged stops the search there. -/
def advance (keep : α → Except ε (Option β)) (behind : List α) :
    (ahead : List α) → Except ε (Option β) × Track α
  | [] => (.ok none, ⟨behind, none, []⟩)
  | x :: xs =>
    match keep x with
    | .ok none => advance keep (x :: behind) xs
    | .ok (some b) => (.ok (some b), ⟨behind, some x, xs⟩)
    | .error e => (.error e, ⟨behind, some x, xs⟩)

/-- Moves to the next element that is kept, or past the last one. -/
def next (keep : α → Except ε (Option β)) (t : Track α) : Except ε (Option β) × Track α :=
  advance keep (t.here.toList ++ t.behind) t.ahead

/-- Moves to the last element before the place that is kept, or in front of the first one. -/
def previous (keep : α → Except ε (Option β)) (t : Track α) : Except ε (Option β) × Track α :=
  let (r, t) := t.mirror.next keep
  (r, t.mirror)

/-! ## The list stays -/

@[simp] theorem toList_start (xs : List α) : (start xs).toList = xs := by simp [start, toList]

@[simp] theorem toList_rewind (t : Track α) : t.rewind.toList = t.toList := toList_start _

@[simp] theorem toList_wind (t : Track α) : t.wind.toList = t.toList := by
  simp [wind, toList]

@[simp] theorem toList_mirror (t : Track α) : t.mirror.toList = t.toList.reverse := by
  cases h : t.here <;> simp [mirror, toList, h]

@[simp] theorem mirror_mirror (t : Track α) : t.mirror.mirror = t := rfl

@[simp] theorem toList_seek (p : α → Bool) (t : Track α) : (t.seek p).toList = t.toList := by
  show ((t.toList.takeWhile _).reverse.reverse ++ [] ++ t.toList.dropWhile _) = _
  rw [List.reverse_reverse, List.append_nil, List.takeWhile_append_dropWhile]

theorem toList_advance (keep : α → Except ε (Option β)) (behind ahead : List α) :
    (advance keep behind ahead).2.toList = behind.reverse ++ ahead := by
  induction ahead generalizing behind with
  | nil => simp [advance, toList]
  | cons x xs ih =>
    rw [advance]
    split
    · simp [ih]
    · simp [toList]
    · simp [toList]

@[simp] theorem toList_next (keep : α → Except ε (Option β)) (t : Track α) :
    (t.next keep).2.toList = t.toList := by
  rw [next, toList_advance]
  cases h : t.here <;> simp [toList, h]

@[simp] theorem toList_previous (keep : α → Except ε (Option β)) (t : Track α) :
    (t.previous keep).2.toList = t.toList := by
  show (t.mirror.next keep).2.mirror.toList = _
  simp

end Track

end Directory
