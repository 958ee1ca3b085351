import Directory.Cursor.Place

/-!
# Tracks on a way

A track is walked both ways. Seen on a way, it has what is met ahead of it, so one lemma serves
both.

* `Track.seen`, `Track.outset`, `Track.stepOn`, `Track.move`: a track as it is met, the place where
  the way starts, the step to the next element, and the movement to the next that is kept.
* `Track.advance_cases`: how a search ends; `Track.move_none`, `Track.move_found`: what a movement
  has passed when it finds nothing and when it finds an element.
* `Track.move_map`: a movement among elements that have more to pass.
* `Track.move_among`: a movement in a part of a longer track; `Track.joint_forward`,
  `Track.joint_backward`: where one part ends the other starts.
* `Track.shown`: the elements that are not left out; `Track.move_shown_keep`,
  `Track.move_shown_skip`, `Track.move_shown_end`: movements among them.
-/

namespace Directory

/-! ## Ways -/

namespace Way

variable {α β : Type} {w : Way}

@[simp] theorem mem_list {x : α} {xs : List α} : x ∈ w.list xs ↔ x ∈ xs := by
  cases w with
  | forward => rfl
  | backward => exact List.mem_reverse

@[simp] theorem list_list (xs : List α) : w.list (w.list xs) = xs := by
  cases w with
  | forward => rfl
  | backward => exact List.reverse_reverse xs

theorem list_map (f : α → β) (xs : List α) : w.list (xs.map f) = (w.list xs).map f := by
  cases w with
  | forward => rfl
  | backward => exact List.map_reverse.symm

theorem pairwise_list {cmp : α → α → Ordering} {xs : List α}
    (h : xs.Pairwise fun x y => cmp x y = .lt) :
    (w.list xs).Pairwise fun x y => w.order cmp x y = .lt := by
  cases w with
  | forward => exact h
  | backward => exact List.pairwise_reverse.2 h

instance {cmp : α → α → Ordering} [Std.TransCmp cmp] : Std.TransCmp (w.order cmp) :=
  match w with
  | .forward => inferInstanceAs (Std.TransCmp cmp)
  | .backward => (Std.TransCmp.opposite : Std.TransCmp fun a b => cmp b a)

theorem order_eq_iff {cmp : α → α → Ordering} [Std.OrientedCmp cmp] {a b : α} :
    w.order cmp a b = .eq ↔ cmp a b = .eq := by
  cases w with
  | forward => exact .rfl
  | backward =>
    show cmp b a = .eq ↔ cmp a b = .eq
    exact ⟨Std.OrientedCmp.eq_symm, Std.OrientedCmp.eq_symm⟩

theorem meets_forward {cmp : α → α → Ordering} {included : Bool} {a b : α} :
    forward.meets included cmp a b = (cmp a b == .lt || (included && cmp a b == .eq)) := rfl

theorem meets_backward {cmp : α → α → Ordering} [Std.OrientedCmp cmp] {included : Bool} {a b : α} :
    backward.meets included cmp a b = (cmp a b == .gt || (included && cmp a b == .eq)) := by
  have hswap : cmp b a = (cmp a b).swap := Std.OrientedCmp.eq_swap
  rw [meets, order, hswap]
  cases cmp a b <;> rfl

/-- The number with which a way starts of those below `n`. -/
def first (w : Way) (n : Nat) : Nat :=
  match w with
  | forward => 0
  | backward => n - 1

/-- The number of neighbours on the way from `i` among those below `n`. -/
def turns (w : Way) (i n : Nat) : Nat :=
  match w with
  | forward => n - 1 - i
  | backward => i

theorem turns_neighbour {i j n : Nat} (hi : i < n) (h : w.neighbour? i n = some j) :
    j < n ∧ w.turns j n < w.turns i n := by
  cases w with
  | forward =>
    simp only [neighbour?] at h
    split at h
    · cases h
      simp only [turns]
      omega
    · cases h
  | backward =>
    cases i with
    | zero => cases h
    | succ i =>
      cases h
      simp only [turns]
      omega

end Way

namespace Track

variable {α β γ ε : Type} {w : Way} {t u : Track α} {keep : α → Except ε (Option β)}

/-! ## A track on a way -/

/-- The track as it is met on a way. -/
def seen (w : Way) (t : Track α) : Track α :=
  match w with
  | .forward => t
  | .backward => t.mirror

@[simp] theorem seen_seen : (t.seen w).seen w = t := by cases w <;> rfl

@[simp] theorem here_seen : (t.seen w).here = t.here := by cases w <;> rfl

theorem toList_seen : (t.seen w).toList = w.list t.toList := by
  cases w with
  | forward => rfl
  | backward => exact toList_mirror t

theorem mem_of_behind {x : α} (h : x ∈ (t.seen w).behind) : x ∈ t.toList := by
  rw [← Way.mem_list (w := w), ← toList_seen, toList, List.append_assoc]
  exact List.mem_append_left _ (List.mem_reverse.2 h)

theorem length_ahead_le (t : Track α) : (t.seen w).ahead.length ≤ t.length := by
  obtain ⟨behind, here, ahead⟩ := t
  cases w <;> simp [seen, mirror, length, toList]
  omega

/-- In an ordered list, what lies behind the element at the place comes before it, and what lies
ahead comes after it. -/
theorem around {cmp : α → α → Ordering} (hlist : t.toList.Pairwise fun x y => cmp x y = .lt)
    {x : α} (h : t.here = some x) :
    (∀ y ∈ (t.seen w).behind, w.order cmp y x = .lt) ∧
      ∀ y ∈ (t.seen w).ahead, w.order cmp x y = .lt := by
  have hseen := Way.pairwise_list (w := w) hlist
  rw [← toList_seen, toList, here_seen, h, List.append_assoc, List.pairwise_append] at hseen
  obtain ⟨_, hahead, hbefore⟩ := hseen
  exact ⟨fun y hy => hbefore y (List.mem_reverse.2 hy) x (.head _), (List.pairwise_cons.1 hahead).1⟩

theorem earlier {cmp : α → α → Ordering} (hlist : t.toList.Pairwise fun x y => cmp x y = .lt)
    {x : α} {xs : List α} (h : (t.seen w).ahead = x :: xs) :
    (∀ y ∈ (t.seen w).behind, w.order cmp y x = .lt) ∧ (∀ y ∈ t.here, w.order cmp y x = .lt) ∧
      ∀ y ∈ xs, w.order cmp x y = .lt := by
  have hseen := Way.pairwise_list (w := w) hlist
  rw [← toList_seen, toList, h, List.pairwise_append, List.pairwise_append] at hseen
  obtain ⟨_, hahead, hbefore⟩ := hseen
  refine ⟨fun y hy => ?_, fun y hy => ?_, (List.pairwise_cons.1 hahead).1⟩
  · exact hbefore y (List.mem_append_left _ (List.mem_reverse.2 hy)) x (.head _)
  · rw [here_seen] at hbefore
    exact hbefore y (List.mem_append_right _ (Option.mem_toList.2 hy)) x (.head _)

/-- The place is the gap between the elements that satisfy `q` and the others. -/
structure Parted (q : α → Bool) (t : Track α) : Prop where
  here : t.here = none
  behind : ∀ x ∈ t.behind, q x = true
  ahead : ∀ x ∈ t.ahead, q x = false

theorem Parted.length_behind {q : α → Bool} (h : t.Parted q) :
    t.behind.length = t.toList.countP q := by
  rw [toList, h.here, Option.toList_none, List.append_nil, List.countP_append, List.countP_reverse,
    List.countP_eq_length.2 h.behind,
    List.countP_eq_zero.2 fun x hx => Bool.eq_false_iff.1 (h.ahead x hx), Nat.add_zero]

/-- The track at the place where a way starts. -/
def outset (w : Way) (t : Track α) : Track α :=
  match w with
  | .forward => t.rewind
  | .backward => t.wind

theorem outset_eq : t.outset w = (start (w.list t.toList)).seen w := by
  cases w with
  | forward => rfl
  | backward => rfl

@[simp] theorem toList_outset : (t.outset w).toList = t.toList := by
  cases w with
  | forward => exact toList_rewind t
  | backward => exact toList_wind t

@[simp] theorem here_outset : (t.outset w).here = none := by cases w <;> rfl

theorem outset_congr (h : t.toList = u.toList) : t.outset w = u.outset w := by
  rw [outset_eq, outset_eq, h]

theorem ahead_outset_opposite : ((t.outset w.opposite).seen w).ahead = [] := by cases w <;> rfl

/-! ## Steps -/

/-- The track one element further. -/
def step (t : Track α) : Track α := ⟨t.here.toList ++ t.behind, t.ahead.head?, t.ahead.tail⟩

theorem toList_step : t.step.toList = t.toList := by
  obtain ⟨behind, here, ahead⟩ := t
  cases here <;> cases ahead <;> simp [step, toList]

/-- The track one element further on a way. -/
def stepOn (w : Way) (t : Track α) : Track α := (t.seen w).step.seen w

theorem here_stepOn : (t.stepOn w).here = (t.seen w).ahead.head? := here_seen

theorem ahead_stepOn : ((t.stepOn w).seen w).ahead = (t.seen w).ahead.tail := by
  rw [stepOn, seen_seen]
  rfl

@[simp] theorem toList_stepOn : (t.stepOn w).toList = t.toList := by
  rw [stepOn, toList_seen, toList_step, toList_seen, Way.list_list]

theorem stepOn_self (h : (t.seen w).ahead = []) (h' : t.here = none) : t.stepOn w = t := by
  have hstep : (t.seen w).step = t.seen w := by
    rw [step, here_seen, h', h, Option.toList_none, List.nil_append, List.head?_nil, List.tail_nil,
      ← h, ← h', ← here_seen (w := w)]
  rw [stepOn, hstep, seen_seen]

theorem stepOn_nil (h : (t.seen w).ahead = []) : t.stepOn w = t.outset w.opposite := by
  obtain ⟨behind, here, ahead⟩ := t
  cases w with
  | forward =>
    obtain rfl : ahead = [] := h
    cases here <;> simp [stepOn, seen, step, outset, wind, Way.opposite, toList]
  | backward =>
    obtain rfl : behind = [] := h
    cases here <;>
      simp [stepOn, seen, step, outset, rewind, start, Way.opposite, toList, mirror]

/-- The track in the gap behind the element at its place. -/
def leave (t : Track α) : Track α := ⟨t.here.toList ++ t.behind, none, t.ahead⟩

/-! ## Searches -/

theorem advance_append {passed : List α} (h : ∀ x ∈ passed, keep x = .ok none)
    (behind ahead : List α) :
    advance keep behind (passed ++ ahead) = advance keep (passed.reverse ++ behind) ahead := by
  induction passed generalizing behind with
  | nil => rfl
  | cons x xs ih =>
    rw [List.cons_append, advance, h x (.head _), List.reverse_cons, List.append_assoc]
    exact ih (fun y hy => h y (.tail _ hy)) (x :: behind)

/-- **How a search ends**: past the last element if none is kept, else at the first one that is kept
or cannot be judged. -/
theorem advance_cases (keep : α → Except ε (Option β)) (behind ahead : List α) :
    ((∀ x ∈ ahead, keep x = .ok none) ∧
        advance keep behind ahead = (.ok none, ⟨ahead.reverse ++ behind, none, []⟩)) ∨
      ∃ passed x rest, ahead = passed ++ x :: rest ∧ (∀ y ∈ passed, keep y = .ok none) ∧
        keep x ≠ .ok none ∧
        advance keep behind ahead = (keep x, ⟨passed.reverse ++ behind, some x, rest⟩) := by
  induction ahead generalizing behind with
  | nil => exact .inl ⟨nofun, rfl⟩
  | cons x xs ih =>
    by_cases hx : keep x = .ok none
    · rw [advance, hx]
      obtain ⟨hpassed, h⟩ | ⟨passed, y, rest, rfl, hpassed, hy, h⟩ := ih (x :: behind)
      · refine .inl ⟨List.forall_mem_cons.2 ⟨hx, hpassed⟩, ?_⟩
        rw [List.reverse_cons, List.append_assoc]
        exact h
      · refine .inr ⟨x :: passed, y, rest, rfl, List.forall_mem_cons.2 ⟨hx, hpassed⟩, hy, ?_⟩
        rw [List.reverse_cons, List.append_assoc]
        exact h
    · refine .inr ⟨[], x, xs, rfl, nofun, hx, ?_⟩
      rw [advance]
      split
      · contradiction
      · rename_i h
        rw [h]
        rfl
      · rename_i h
        rw [h]
        rfl

/-! ## Movements -/

/-- A movement on a way. -/
def move (w : Way) (keep : α → Except ε (Option β)) (t : Track α) :
    Except ε (Option β) × Track α :=
  (((t.seen w).next keep).1, ((t.seen w).next keep).2.seen w)

theorem move_forward : t.move .forward keep = t.next keep := rfl

theorem next_leave : t.leave.next keep = t.next keep := rfl

@[simp] theorem toList_move : (t.move w keep).2.toList = t.toList := by
  cases w with
  | forward => exact toList_next keep t
  | backward => exact toList_previous keep t

theorem next_seen {r : Except ε (Option β)} (h : t.move w keep = (r, u)) :
    (t.seen w).next keep = (r, u.seen w) := by
  cases h
  exact Prod.ext rfl seen_seen.symm

theorem move_nil (h : (t.seen w).ahead = []) : t.move w keep = (.ok none, t.stepOn w) := by
  rw [move, stepOn, next, step, h]
  rfl

theorem move_keep {x : α} {xs : List α} {y : β} (h : (t.seen w).ahead = x :: xs)
    (hx : keep x = .ok (some y)) : t.move w keep = (.ok (some y), t.stepOn w) := by
  rw [move, stepOn, next, step, h, advance, hx]
  rfl

/-- A movement that finds nothing has passed all that lay ahead, and leads to where the other way
starts. -/
theorem move_none (h : t.move w keep = (.ok none, u)) :
    (∀ x ∈ (t.seen w).ahead, keep x = .ok none) ∧ u = t.outset w.opposite := by
  have hnext := next_seen h
  obtain ⟨hpassed, hsearch⟩ | ⟨_, x, _, _, _, hx, hsearch⟩ :=
    advance_cases keep ((t.seen w).here.toList ++ (t.seen w).behind) (t.seen w).ahead
  · refine ⟨hpassed, ?_⟩
    rw [← seen_seen (w := w) (t := u), (Prod.mk.inj (hnext.symm.trans hsearch)).2]
    obtain ⟨behind, here, ahead⟩ := t
    cases w with
    | forward => cases here <;> simp [seen, outset, wind, Way.opposite, toList]
    | backward => cases here <;>
        simp [seen, outset, rewind, start, Way.opposite, toList, mirror]
  · exact absurd (Prod.mk.inj (hsearch.symm.trans hnext)).1 hx

/-- A movement that finds an element stands on it, behind those that are not kept. -/
theorem move_found {y : β} (h : t.move w keep = (.ok (some y), u)) :
    ∃ passed x, (t.seen w).ahead = passed ++ x :: (u.seen w).ahead ∧
      (∀ z ∈ passed, keep z = .ok none) ∧ u.here = some x ∧ keep x = .ok (some y) := by
  have hnext := next_seen h
  obtain ⟨_, hsearch⟩ | ⟨passed, x, rest, hahead, hpassed, _, hsearch⟩ :=
    advance_cases keep ((t.seen w).here.toList ++ (t.seen w).behind) (t.seen w).ahead
  · cases hsearch.symm.trans hnext
  · obtain ⟨hx, hu⟩ := Prod.mk.inj (hsearch.symm.trans hnext)
    rw [← here_seen (w := w), ← hu]
    exact ⟨passed, x, hahead, hpassed, rfl, hx⟩

theorem move_some {y : β} (h : t.move w keep = (.ok (some y), u)) :
    (u.seen w).ahead.length < (t.seen w).ahead.length := by
  obtain ⟨passed, x, hahead, _⟩ := move_found h
  rw [hahead, List.length_append, List.length_cons]
  omega

/-! ## Other elements in the same places -/

/-- The track with every element replaced. -/
def map (f : α → β) (t : Track α) : Track β := ⟨t.behind.map f, t.here.map f, t.ahead.map f⟩

@[simp] theorem ahead_map (f : α → β) : (t.map f).ahead = t.ahead.map f := rfl

theorem toList_map (f : α → β) : (t.map f).toList = t.toList.map f := by
  obtain ⟨behind, here, ahead⟩ := t
  cases here <;> simp [map, toList]

theorem seen_map (f : α → β) : (t.map f).seen w = (t.seen w).map f := by cases w <;> rfl

theorem step_map (f : α → β) : (t.map f).step = t.step.map f := by
  obtain ⟨behind, here, ahead⟩ := t
  cases here <;> cases ahead <;> simp [map, step]

theorem stepOn_map (f : α → β) : (t.map f).stepOn w = (t.stepOn w).map f := by
  rw [stepOn, seen_map, step_map, seen_map, stepOn]

theorem outset_map (f : α → β) : (t.map f).outset w = (t.outset w).map f := by
  rw [outset_eq, outset_eq, toList_map, Way.list_map, ← seen_map]
  rfl

theorem start_map (f : α → β) (xs : List α) : (start xs).map f = start (xs.map f) := rfl

theorem move_kept {f : α → β} {g : α → γ} {keep : β → Except ε (Option γ)}
    (hkeep : ∀ x, keep (f x) = .ok (some (g x))) :
    (t.map f).move w keep = (.ok ((t.stepOn w).here.map g), (t.stepOn w).map f) := by
  rw [← stepOn_map, here_stepOn]
  cases h : (t.seen w).ahead with
  | nil => exact move_nil (by rw [seen_map, ahead_map, h]; rfl)
  | cons x xs => exact move_keep (by rw [seen_map, ahead_map, h]; rfl) (hkeep x)

section More

variable {f : α → γ} {keep' : γ → Except ε (Option β)} {more : β → Except ε (Option β)}

theorem advance_map (hkeep : ∀ a, keep' (f a) = (keep a).bind (·.elim (.ok none) more))
    (behind ahead : List α) : advance keep' (behind.map f) (ahead.map f) =
      match advance keep behind ahead with
      | (.ok none, u) => (.ok none, u.map f)
      | (.ok (some b), u) => match more b with
        | .ok none => (u.map f).next keep'
        | r => (r, u.map f)
      | (.error e, u) => (.error e, u.map f) := by
  induction ahead generalizing behind with
  | nil => rfl
  | cons x xs ih =>
    rw [List.map_cons, advance, advance, hkeep]
    cases hx : keep x with
    | error e => rfl
    | ok y =>
      cases y with
      | none => exact ih (x :: behind)
      | some b =>
        rw [show (Except.ok (some b)).bind (·.elim (.ok none) more) = more b from rfl]
        dsimp only
        cases more b with
        | error e => rfl
        | ok z => cases z <;> rfl

theorem next_map (hkeep : ∀ a, keep' (f a) = (keep a).bind (·.elim (.ok none) more))
    (t : Track α) :
    (t.map f).next keep' = match t.next keep with
      | (.ok none, u) => (.ok none, u.map f)
      | (.ok (some b), u) => match more b with
        | .ok none => (u.map f).next keep'
        | r => (r, u.map f)
      | (.error e, u) => (.error e, u.map f) := by
  obtain ⟨behind, here, ahead⟩ := t
  have := advance_map hkeep (here.toList ++ behind) ahead
  rw [List.map_append] at this
  cases here <;> exact this

/-- **A movement among elements that have more to pass.** It stops where the element found passes,
else it goes on. -/
theorem move_map (hkeep : ∀ a, keep' (f a) = (keep a).bind (·.elim (.ok none) more))
    (t : Track α) :
    (t.map f).move w keep' = match t.move w keep with
      | (.ok none, u) => (.ok none, u.map f)
      | (.ok (some b), u) => match more b with
        | .ok none => (u.map f).move w keep'
        | r => (r, u.map f)
      | (.error e, u) => (.error e, u.map f) := by
  rw [move, move, seen_map, next_map hkeep]
  obtain ⟨r, u⟩ := (t.seen w).next keep
  cases r with
  | error e => exact Prod.ext rfl (seen_map f)
  | ok y =>
    cases y with
    | none => exact Prod.ext rfl (seen_map f)
    | some b =>
      dsimp only
      cases more b with
      | error e => exact Prod.ext rfl (seen_map f)
      | ok z =>
        cases z with
        | some c => exact Prod.ext rfl (seen_map f)
        | none =>
          dsimp only
          rw [move, seen_map, seen_seen]

end More

/-! ## Parts of a track -/

/-- The track with other elements before and after its own. -/
def among (before after : List α) (t : Track α) : Track α :=
  ⟨t.behind ++ before.reverse, t.here, t.ahead ++ after⟩

/-- What is met on a way after the elements of a part. -/
def beyond (w : Way) (before after : List α) : List α :=
  match w with
  | .forward => after
  | .backward => before.reverse

variable {before after : List α}

theorem toList_among : (t.among before after).toList = before ++ t.toList ++ after := by
  obtain ⟨behind, here, ahead⟩ := t
  simp [toList, among]

theorem ahead_among : ((t.among before after).seen w).ahead =
    (t.seen w).ahead ++ beyond w before after := by
  cases w <;> rfl

theorem stepOn_among (h : (t.seen w).ahead ≠ []) :
    (t.among before after).stepOn w = (t.stepOn w).among before after := by
  obtain ⟨behind, here, ahead⟩ := t
  cases w with
  | forward =>
    cases ahead with
    | nil => exact absurd rfl h
    | cons x xs => simp [stepOn, seen, step, among]
  | backward =>
    cases behind with
    | nil => exact absurd rfl h
    | cons x xs => simp [stepOn, seen, step, among, mirror]

theorem leave_among (h : (t.seen w).ahead = []) : ((t.among before after).seen w).leave.seen w =
    (t.outset w.opposite).among before after := by
  rw [← stepOn_nil h]
  obtain ⟨behind, here, ahead⟩ := t
  cases w with
  | forward =>
    obtain rfl : ahead = [] := h
    simp [stepOn, seen, step, leave, among]
  | backward =>
    obtain rfl : behind = [] := h
    simp [stepOn, seen, step, leave, among, mirror]

theorem stepOn_among_nil (h : (t.seen w).ahead = []) (hbeyond : beyond w before after = []) :
    (t.among before after).stepOn w = (t.outset w.opposite).among before after := by
  rw [← leave_among h, stepOn, step, ahead_among, h, hbeyond, leave, ahead_among, h, hbeyond]
  rfl

theorem mirror_among :
    (t.among before after).mirror = t.mirror.among after.reverse before.reverse := by
  obtain ⟨behind, here, ahead⟩ := t
  simp [among, mirror]

theorem advance_among (behind ahead : List α) :
    advance keep (behind ++ before.reverse) (ahead ++ after) =
      match advance keep behind ahead with
      | (.ok none, u) => (u.among before after).next keep
      | (r, u) => (r, u.among before after) := by
  induction ahead generalizing behind with
  | nil => rfl
  | cons x xs ih =>
    rw [List.cons_append, advance, advance]
    cases keep x with
    | error e => rfl
    | ok y =>
      cases y with
      | none => exact ih (x :: behind)
      | some b => rfl

theorem next_among : (t.among before after).next keep = match t.next keep with
    | (.ok none, u) => (u.among before after).next keep
    | (r, u) => (r, u.among before after) := by
  have hadvance : advance keep (t.here.toList ++ t.behind ++ before.reverse) (t.ahead ++ after) =
      _ := advance_among _ _
  rwa [List.append_assoc] at hadvance

/-- **A movement in a part.** From the end of the part it goes on beyond it. -/
theorem move_among : (t.among before after).move w keep = match t.move w keep with
    | (.ok none, u) => (u.among before after).move w keep
    | (r, u) => (r, u.among before after) := by
  cases w with
  | forward => exact next_among
  | backward =>
    have hback (v : Track α) : (v.among before after).move .backward keep =
        (((v.mirror.among after.reverse before.reverse).next keep).1,
          ((v.mirror.among after.reverse before.reverse).next keep).2.mirror) := by
      rw [← mirror_among]
      rfl
    have hmirror (v : Track α) :
        (v.among after.reverse before.reverse).mirror = v.mirror.among before after := by
      rw [mirror_among, List.reverse_reverse, List.reverse_reverse]
    rw [hback, next_among, move]
    show _ = match ((t.mirror.next keep).1, (t.mirror.next keep).2.mirror) with
      | (.ok none, u) => (u.among before after).move .backward keep
      | (r, u) => (r, u.among before after)
    obtain ⟨r, u⟩ := t.mirror.next keep
    cases r with
    | error e => exact Prod.ext rfl (hmirror u)
    | ok y =>
      cases y with
      | some b => exact Prod.ext rfl (hmirror u)
      | none => exact (hback u.mirror).symm

/-- Where a part ends, the next one starts. -/
theorem joint_forward (t : Track α) (xs : List α) :
    (t.outset .backward).among before (xs ++ after) =
      ((start xs).outset .forward).among (before ++ t.toList) after := by
  simp [among, outset, rewind, wind, start, toList]

/-- Where a part starts, the one before it ends. -/
theorem joint_backward (t : Track α) (xs : List α) :
    (t.outset .forward).among (before ++ xs) after =
      ((start xs).outset .backward).among before (t.toList ++ after) := by
  simp [among, outset, rewind, wind, start, toList]

/-! ### Several parts -/

/-- The track as one of several parts, of which the part with number `i` is its own list. -/
def inPart (parts : List (List α)) (i : Nat) (t : Track α) : Track α :=
  t.among (parts.take i).flatten (parts.drop (i + 1)).flatten

section Parts

variable {parts : List (List α)} {i j : Nat}

theorem toList_inPart (h : parts[i]? = some t.toList) :
    (t.inPart parts i).toList = parts.flatten := by
  obtain ⟨hi, hpart⟩ := List.getElem?_eq_some_iff.1 h
  rw [inPart, toList_among, ← hpart, List.append_assoc, ← List.flatten_cons,
    List.getElem_cons_drop, ← List.flatten_append, List.take_append_drop]

/-- Where a part ends on a way, its neighbour starts. -/
theorem inPart_neighbour (h : parts[i]? = some t.toList)
    (hj : w.neighbour? i parts.length = some j) {xs : List α} (hxs : parts[j]? = some xs) :
    (t.outset w.opposite).inPart parts i = ((start xs).outset w).inPart parts j := by
  obtain ⟨hi, hpart⟩ := List.getElem?_eq_some_iff.1 h
  obtain ⟨hj', rfl⟩ := List.getElem?_eq_some_iff.1 hxs
  cases w with
  | forward =>
    obtain rfl : i + 1 = j := by
      simp only [Way.neighbour?] at hj
      split at hj
      · exact Option.some.inj hj
      · cases hj
    rw [inPart, inPart, ← List.getElem_cons_drop hj', List.flatten_cons]
    rw [← List.take_append_getElem hi, List.flatten_append, List.flatten_singleton, hpart]
    exact joint_forward t _
  | backward =>
    obtain ⟨j, rfl⟩ : ∃ k, i = k + 1 := by
      cases i with
      | zero => cases hj
      | succ i => exact ⟨i, rfl⟩
    obtain rfl := Option.some.inj hj
    rw [inPart, inPart, ← List.take_append_getElem hj', List.flatten_append, List.flatten_singleton,
      ← List.getElem_cons_drop hi, List.flatten_cons, hpart]
    exact joint_backward t _

theorem inPart_first {xs : List α} (h : parts[w.first parts.length]? = some xs) :
    ((start xs).outset w).inPart parts (w.first parts.length) = (start parts.flatten).outset w := by
  cases w with
  | forward =>
    cases parts with
    | nil => cases h
    | cons ys parts =>
      cases h
      simp [inPart, among, outset, rewind, start, toList, Way.first]
  | backward =>
    obtain ⟨parts, ys, rfl⟩ : ∃ ps ys, parts = ps ++ [ys] := by
      refine ⟨parts.dropLast, parts.getLast ?_, (List.dropLast_concat_getLast _).symm⟩
      rintro rfl
      cases h
    obtain rfl : ys = xs := by simpa [Way.first] using h
    simp [inPart, among, outset, wind, start, toList, Way.first]

theorem beyond_of_neighbour (hi : i < parts.length) (h : w.neighbour? i parts.length = none) :
    beyond w (parts.take i).flatten (parts.drop (i + 1)).flatten = [] := by
  cases w with
  | forward =>
    simp only [Way.neighbour?] at h
    split at h
    · cases h
    · rw [beyond, List.drop_eq_nil_of_le (by omega)]
      rfl
  | backward =>
    cases i with
    | zero => rfl
    | succ i => cases h

end Parts

/-! ## Some of the elements -/

/-- The elements that satisfy `q`, each replaced. -/
def shown (q : α → Bool) (f : α → β) (t : Track α) : Track β :=
  ⟨(t.behind.filter q).map f, (t.here.filter q).map f, (t.ahead.filter q).map f⟩

section Shown

variable {q : α → Bool} {f : α → β} {keep : β → Except ε (Option γ)} {x : α} {xs : List α} {y : γ}

theorem here_shown : (t.shown q f).here.toList = (t.here.toList.filter q).map f := by
  obtain ⟨behind, here, ahead⟩ := t
  cases here with
  | none => rfl
  | some x => cases h : q x <;> simp [shown, Option.filter_some, h]

theorem toList_shown : (t.shown q f).toList = (t.toList.filter q).map f := by
  rw [toList, toList, here_shown, shown]
  simp

theorem map_shown (g : β → γ) : (t.shown q f).map g = t.shown q (g ∘ f) := by
  rw [map, shown, List.map_map, Option.map_map, List.map_map, shown]

theorem seen_shown : (t.shown q f).seen w = (t.seen w).shown q f := by cases w <;> rfl

theorem outset_shown : (t.shown q f).outset w = (t.outset w).shown q f := by
  have hfilter (ys : List α) : w.list (ys.filter q) = (w.list ys).filter q := by
    cases w with
    | forward => rfl
    | backward => exact List.filter_reverse.symm
  rw [outset_eq, outset_eq, toList_shown, Way.list_map, hfilter, ← seen_shown]
  rfl

theorem leave_shown : t.leave.shown q f = (t.shown q f).leave := by
  rw [leave, leave, here_shown]
  simp [shown]

/-- A step past an element that is not shown leaves the place. -/
theorem step_shown_skip (h : t.ahead = x :: xs) (hx : q x = false) :
    t.step.shown q f = (t.shown q f).leave := by
  rw [← leave_shown, step, leave, h]
  simp [shown, Option.filter_some, hx]

theorem step_shown (h : t.ahead = x :: xs) (hx : q x = true) :
    t.step.shown q f = (t.shown q f).step := by
  rw [step, step, here_shown]
  simp [shown, h, Option.filter_some, hx]

theorem move_shown_leave : (((t.seen w).leave.seen w).shown q f).move w keep =
    (t.shown q f).move w keep := by
  rw [move, move, seen_shown, seen_shown, seen_seen, leave_shown, next_leave]

/-- A movement past an element that is not shown. -/
theorem move_shown_skip (h : (t.seen w).ahead = x :: xs) (hx : q x = false) :
    ((t.stepOn w).shown q f).move w keep = (t.shown q f).move w keep := by
  rw [move, move, seen_shown, seen_shown, stepOn, seen_seen, step_shown_skip h hx, next_leave]

/-- A movement to an element that is shown. -/
theorem move_shown_keep (h : (t.seen w).ahead = x :: xs) (hx : q x = true)
    (hkeep : keep (f x) = .ok (some y)) :
    (t.shown q f).move w keep = (.ok (some y), (t.stepOn w).shown q f) := by
  have hahead : ((t.seen w).shown q f).ahead = f x :: (xs.filter q).map f := by
    rw [shown, h, List.filter_cons_of_pos hx, List.map_cons]
  rw [move_keep (seen_shown ▸ hahead) hkeep, stepOn, stepOn, seen_shown, ← step_shown h hx,
    seen_shown]

/-- A movement with nothing ahead that is shown. -/
theorem move_shown_end (h : ∀ z ∈ (t.seen w).ahead, q z = false) :
    (t.shown q f).move w keep = (.ok none, (t.outset w.opposite).shown q f) := by
  have hahead : ((t.shown q f).seen w).ahead = [] := by
    rw [seen_shown, shown, List.filter_eq_nil_iff.2 fun z hz => Bool.eq_false_iff.1 (h z hz)]
    rfl
  rw [move_nil hahead, stepOn_nil hahead, outset_shown]

/-- A track behind which nothing is shown is at the place where the way starts. -/
theorem shown_outset (h : ∀ z ∈ (t.seen w).behind, q z = false)
    (h' : ∀ z ∈ t.here, q z = false) : t.shown q f = (t.outset w).shown q f := by
  have hbehind : ((t.seen w).behind.filter q) = [] :=
    List.filter_eq_nil_iff.2 fun z hz => Bool.eq_false_iff.1 (h z hz)
  obtain ⟨behind, here, ahead⟩ := t
  have hhere : here.toList.filter q = [] ∧ here.filter q = none := by
    cases here with
    | none => exact ⟨rfl, rfl⟩
    | some z => simp [Option.filter_some, h' z rfl]
  cases w with
  | forward =>
    have hbehind : behind.filter q = [] := hbehind
    simp [shown, outset, rewind, start, toList, hbehind, hhere]
  | backward =>
    have hbehind : ahead.filter q = [] := hbehind
    simp [shown, outset, wind, toList, hbehind, hhere]

end Shown

end Track

end Directory
