import Directory.Proofs.Cursor.Walk
import Directory.Proofs.Cursor.Standing

/-!
# Cursors as positions

A cursor whose tests never fail moves like a position in the list of what the tests keep. The
positions are numbers: 0 is in front of the list, then come its elements, and one more is behind it.

* `Movement`, `Navigation.reports`: what a caller can ask for, and what it sees after each call.
* `Movement.target`, `reportsOver`: the same for a position.
* `Track.Stands`: a place in a list of candidates is a position in the list of those kept;
  `Track.Stands.next`, `Track.Stands.previous`: the step either way.
* `Navigation.Walks.reports`: **whatever the movements are, a caller sees what the position shows**;
  `Navigation.Walks.collectReverse`: the entries from the end to the start.
* `Navigation.Walks.elements_succ`: one round of a walk that does not fail.
* `Navigation.Walks.atPosition_of_collect`: a complete walk that does not fail has met no failing
  test.
* `Navigation.Walks.trace_eq`: **two cursors over the same candidates show the same**, whichever
  tests fail.
-/

namespace Directory

/-! ## What a caller sees -/

/-- A movement that a caller can ask for. -/
inductive Movement where
  | beforeFirst
  | afterLast
  | first
  | last
  | next
  | previous
deriving DecidableEq

/-- What a caller sees after a movement: the answer, if the movement has one, whether the cursor
stands on an element, and the entry of that. -/
structure Report where
  found : Option Bool
  available : Bool
  entry : Except Error EntryId

namespace Navigation

variable {σ κ : Type}

/-- Makes a movement and gives its answer. -/
def move (n : Navigation σ κ) : Movement → EStateM Error σ (Option Bool)
  | .beforeFirst => do
    n.beforeFirst
    return none
  | .afterLast => do
    n.afterLast
    return none
  | .first => some <$> n.first
  | .last => some <$> n.last
  | .next => some <$> n.next
  | .previous => some <$> n.previous

/-- The entry that the cursor stands on, if it can be given. -/
def entry (n : Navigation σ κ) (s : σ) : Except Error EntryId :=
  match n.element s with
  | .ok e _ => .ok e.id
  | .error e _ => .error e

/-- Makes a movement and looks at the cursor. -/
def report (n : Navigation σ κ) (m : Movement) : EStateM Error σ Report := do
  let found ← n.move m
  return ⟨found, n.available (← get), n.entry (← get)⟩

/-- Makes movements and looks at the cursor after each. -/
def reports (n : Navigation σ κ) (ms : List Movement) : EStateM Error σ (List Report) :=
  ms.mapM n.report

/-- What a caller sees who goes on after errors. -/
def trace (n : Navigation σ κ) : List Movement → σ → List (Except Error Report)
  | [], _ => []
  | m :: ms, s =>
    match n.report m s with
    | .ok r s => .ok r :: trace n ms s
    | .error e s => .error e :: trace n ms s

end Navigation

/-! ## Positions -/

/-- The element at a position. -/
def elementAt {α : Type} (xs : List α) : (k : Nat) → Option α
  | 0 => none
  | k + 1 => xs[k]?

/-- Where a movement leads from position `k` in a list of `n` elements. -/
def Movement.target (n k : Nat) : Movement → Nat
  | beforeFirst => 0
  | afterLast => n + 1
  | first => 1
  | last => n
  | next => min (k + 1) (n + 1)
  | previous => k - 1

/-- What a caller sees after a movement from position `k`. -/
def Movement.reportOver (ids : List EntryId) (k : Nat) (m : Movement) : Report :=
  let there := elementAt ids (m.target ids.length k)
  { found := if m = beforeFirst ∨ m = afterLast then none else some there.isSome
    available := there.isSome
    entry := there.elim (.error (.notPositioned "get()")) .ok }

/-- What a caller sees of movements from position `k`. -/
def reportsOver (ids : List EntryId) (k : Nat) : List Movement → List Report
  | [] => []
  | m :: ms => m.reportOver ids k :: reportsOver ids (m.target ids.length k) ms

example : (reportsOver [4, 1] 0 [.next, .last, .next, .next, .previous]).map Report.available =
    [true, true, false, false, true] := rfl

section Positions

variable {α β : Type} {xs : List α} {k : Nat}

theorem elementAt_map (f : α → β) : elementAt (xs.map f) k = (elementAt xs k).map f := by
  cases k with
  | zero => rfl
  | succ k => exact List.getElem?_map ..

theorem elementAt_behind : elementAt xs (xs.length + 1) = none :=
  List.getElem?_eq_none (Nat.le_refl _)

theorem elementAt_append (ys : List α) : elementAt (xs ++ ys) (xs.length + 1) = ys.head? := by
  show (xs ++ ys)[xs.length]? = _
  rw [List.getElem?_append_right (Nat.le_refl _), Nat.sub_self, List.head?_eq_getElem?]

end Positions

/-! ## Places among candidates -/

section Keeps

variable {α β ε : Type} {keep : α → Except ε (Option β)} {xs xs' : List α} {ys ys' : List β}

theorem Keeps.append (h : Keeps keep xs ys) (h' : Keeps keep xs' ys') :
    Keeps keep (xs ++ xs') (ys ++ ys') := by
  induction h with
  | nil => exact h'
  | skip hx _ ih => exact .skip hx ih
  | keep hx _ ih => exact .keep hx ih

theorem Keeps.reverse (h : Keeps keep xs ys) : Keeps keep xs.reverse ys.reverse := by
  induction h with
  | nil => exact .nil
  | skip hx _ ih =>
    have := ih.append (.skip hx .nil)
    rwa [List.append_nil, ← List.reverse_cons] at this
  | keep hx _ ih =>
    rw [List.reverse_cons, List.reverse_cons]
    exact ih.append (.keep hx .nil)

namespace Track

/-- The track is at a position in the list of what is kept of it, and this is what was found
there. -/
inductive Stands (keep : α → Except ε (Option β)) : List β → Nat → Track α → Option β → Prop
  | front {xs : List α} {ys : List β} (h : Keeps keep xs ys) : Stands keep ys 0 (start xs) none
  | on {xs xs' : List α} {x : α} {ys ys' : List β} {y : β} (h : Keeps keep xs ys)
      (hx : keep x = .ok (some y)) (h' : Keeps keep xs' ys') :
      Stands keep (ys ++ y :: ys') (ys.length + 1) ⟨xs.reverse, some x, xs'⟩ (some y)
  | behind {xs : List α} {ys : List β} (h : Keeps keep xs ys) :
      Stands keep ys (ys.length + 1) ⟨xs.reverse, none, []⟩ none

namespace Stands

variable {k : Nat} {t : Track α} {y? : Option β}

theorem le (h : Stands keep ys k t y?) : k ≤ ys.length + 1 := by
  cases h with
  | front => exact Nat.zero_le _
  | on =>
    rw [List.length_append, List.length_cons]
    omega
  | behind => exact Nat.le_refl _

theorem found_eq (h : Stands keep ys k t y?) : y? = elementAt ys k := by
  cases h with
  | front => rfl
  | @on _ _ _ _ ys' y => exact (elementAt_append (y :: ys')).symm
  | behind => exact elementAt_behind.symm

theorem keeps (h : Stands keep ys k t y?) : Keeps keep t.toList ys := by
  cases h with
  | front h => rwa [toList_start]
  | on h hx h' => simpa [toList] using h.append (.keep hx h')
  | behind h => simpa [toList] using h

theorem rewind (h : Stands keep ys k t y?) : Stands keep ys 0 t.rewind none := .front h.keeps

theorem wind (h : Stands keep ys k t y?) : Stands keep ys (ys.length + 1) t.wind none :=
  .behind h.keeps

/-- Seen from the other end, a position counts from there. -/
theorem mirror (h : Stands keep ys k t y?) :
    Stands keep ys.reverse (ys.length + 1 - k) t.mirror y? := by
  cases h with
  | @front xs _ h =>
    have := Stands.behind h.reverse
    rwa [List.reverse_reverse, List.length_reverse] at this
  | @on xs xs' x zs zs' y h hx h' =>
    have := Stands.on h'.reverse hx h.reverse
    rw [List.reverse_reverse, List.length_reverse] at this
    have hlist : (zs ++ y :: zs').reverse = zs'.reverse ++ y :: zs.reverse := by simp
    have hplace : (zs ++ y :: zs').length + 1 - (zs.length + 1) = zs'.length + 1 := by
      rw [List.length_append, List.length_cons]
      omega
    rw [hlist, hplace]
    exact this
  | @behind xs _ h =>
    rw [Nat.sub_self]
    exact .front h.reverse

/-- A search ahead, with all that is kept of what lies behind. -/
theorem advance (h : Keeps keep xs ys) (h' : Keeps keep xs' ys') :
    (Track.advance keep xs.reverse xs').1 = .ok ys'.head? ∧
      Stands keep (ys ++ ys') (ys.length + 1) (Track.advance keep xs.reverse xs').2 ys'.head? := by
  induction h' generalizing xs with
  | nil =>
    rw [List.append_nil]
    exact ⟨rfl, .behind h⟩
  | @skip x _ _ hx _ ih =>
    rw [Track.advance, hx]
    have hpassed : Keeps keep (xs ++ [x]) ys := List.append_nil ys ▸ h.append (.skip hx .nil)
    have := ih hpassed
    rwa [List.reverse_append] at this
  | keep hx h' =>
    rw [Track.advance, hx]
    exact ⟨rfl, .on h hx h'⟩

/-- The step forward. -/
theorem next (h : Stands keep ys k t y?) :
    (t.next keep).1 = .ok (elementAt ys (min (k + 1) (ys.length + 1))) ∧
      Stands keep ys (min (k + 1) (ys.length + 1)) (t.next keep).2
        (elementAt ys (min (k + 1) (ys.length + 1))) := by
  cases h with
  | @front xs _ h =>
    rw [Nat.min_eq_left (by omega), elementAt, ← List.head?_eq_getElem?]
    exact advance .nil h
  | @on xs xs' x zs zs' y h hx h' =>
    have hpassed : Keeps keep (xs ++ [x]) (zs ++ [y]) := h.append (.keep hx .nil)
    have hstep := advance hpassed h'
    have hplace : min (zs.length + 1 + 1) ((zs ++ y :: zs').length + 1) =
        (zs ++ [y]).length + 1 := by
      simp only [List.length_append, List.length_cons, List.length_nil]
      omega
    have hlist : zs ++ y :: zs' = (zs ++ [y]) ++ zs' := by simp
    rw [hplace, hlist, elementAt_append]
    rwa [List.reverse_append] at hstep
  | @behind xs _ h =>
    rw [Nat.min_eq_right (by omega), elementAt_behind]
    exact ⟨rfl, .behind h⟩

/-- The step back, which is the step forward seen from the other end. -/
theorem previous (h : Stands keep ys k t y?) :
    (t.previous keep).1 = .ok (elementAt ys (k - 1)) ∧
      Stands keep ys (k - 1) (t.previous keep).2 (elementAt ys (k - 1)) := by
  obtain ⟨hfound, hstands⟩ := h.mirror.next
  have hle := h.le
  have hback := hstands.mirror
  rw [List.reverse_reverse, List.length_reverse] at hback
  have hplace : ys.length + 1 - min (ys.length + 1 - k + 1) (ys.length + 1) = k - 1 := by omega
  rw [List.length_reverse] at hfound
  rw [hplace] at hback
  have helement := hback.found_eq
  rw [← helement]
  exact ⟨hfound, hback⟩

end Stands

end Track

theorem Keeps.length_le (h : Keeps keep xs ys) : ys.length ≤ xs.length := by
  induction h with
  | nil => exact Nat.le_refl _
  | skip _ _ ih => exact Nat.le_succ_of_le ih
  | keep _ _ ih => exact Nat.succ_le_succ ih

theorem Keeps.of_passed (h : ∀ x ∈ xs, keep x = .ok none) : Keeps keep xs [] := by
  induction xs with
  | nil => exact .nil
  | cons x xs ih => exact .skip (h x (.head _)) (ih fun y hy => h y (.tail _ hy))

end Keeps

/-! ## Cursors at a position -/

section Positions

variable {σ κ τ : Type} {accept : Element κ × τ → Except Error (Option (Element κ))}
  {S : Standing σ κ τ} {n : Navigation σ κ} {es : List (Element κ)} {k : Nat} {s : σ}

/-- The cursor is at a position in the list of what the tests keep. -/
def AtPosition (accept : Element κ × τ → Except Error (Option (Element κ))) (S : Standing σ κ τ)
    (es : List (Element κ)) (k : Nat) (s : σ) : Prop :=
  ∃ t e, S s t e ∧ t.Stands accept es k e

namespace Navigation.Walks

theorem atPosition_of_lands {moved : Except Error (Option (Element κ)) × Track (Element κ × τ)}
    {r : EStateM.Result Error σ Bool} {e? : Option (Element κ)} (h : Lands S moved r)
    (hfound : moved.1 = .ok e?) (hplace : Track.Stands accept es k moved.2 e?) :
    ∃ s', r = .ok e?.isSome s' ∧ AtPosition accept S es k s' := by
  obtain ⟨found, t⟩ := moved
  cases hfound
  obtain ⟨s', hs', hS⟩ := h.of_ok
  exact ⟨s', hs', t, e?, hS, hplace⟩

theorem beforeFirst (hn : n.Walks accept S) (h : AtPosition accept S es k s) :
    ∃ s', n.beforeFirst s = .ok () s' ∧ AtPosition accept S es 0 s' := by
  obtain ⟨t, e, hS, hplace⟩ := h
  obtain ⟨s', hs', hS'⟩ := hn.restart .forward hS
  exact ⟨s', hs', _, _, hS', hplace.rewind⟩

theorem afterLast (hn : n.Walks accept S) (h : AtPosition accept S es k s) :
    ∃ s', n.afterLast s = .ok () s' ∧ AtPosition accept S es (es.length + 1) s' := by
  obtain ⟨t, e, hS, hplace⟩ := h
  obtain ⟨s', hs', hS'⟩ := hn.restart .backward hS
  exact ⟨s', hs', _, _, hS', hplace.wind⟩

theorem next (hn : n.Walks accept S) (h : AtPosition accept S es k s) :
    ∃ s', n.next s = .ok (elementAt es (min (k + 1) (es.length + 1))).isSome s' ∧
      AtPosition accept S es (min (k + 1) (es.length + 1)) s' := by
  obtain ⟨t, e, hS, hplace⟩ := h
  obtain ⟨hfound, hplace⟩ := hplace.next
  exact atPosition_of_lands (hn.advance .forward hS) hfound hplace

theorem previous (hn : n.Walks accept S) (h : AtPosition accept S es k s) :
    ∃ s', n.previous s = .ok (elementAt es (k - 1)).isSome s' ∧
      AtPosition accept S es (k - 1) s' := by
  obtain ⟨t, e, hS, hplace⟩ := h
  obtain ⟨hfound, hplace⟩ := hplace.previous
  exact atPosition_of_lands (hn.advance .backward hS) hfound hplace

theorem element_eq (hn : n.Walks accept S) (h : AtPosition accept S es k s) : n.element s =
    (elementAt es k).elim (.error (.notPositioned "get()") s) (.ok · s) := by
  obtain ⟨t, e, hS, hplace⟩ := h
  rw [hn.element hS, hplace.found_eq]

/-- One movement leads where the position goes, and has its answer. -/
theorem move (hn : n.Walks accept S) (h : AtPosition accept S es k s) (m : Movement) :
    ∃ s', n.move m s = .ok (if m = .beforeFirst ∨ m = .afterLast then none
        else some (elementAt es (m.target es.length k)).isSome) s' ∧
      AtPosition accept S es (m.target es.length k) s' := by
  obtain ⟨s₁, hs₁, hfront⟩ := hn.beforeFirst h
  obtain ⟨s₂, hs₂, hbehind⟩ := hn.afterLast h
  cases m with
  | beforeFirst => exact ⟨s₁, bind_of_ok hs₁, hfront⟩
  | afterLast => exact ⟨s₂, bind_of_ok hs₂, hbehind⟩
  | first =>
    obtain ⟨s', hs', hplace⟩ := hn.next hfront
    rw [Nat.min_eq_left (by omega)] at hs' hplace
    exact ⟨s', map_of_ok ((bind_of_ok hs₁).trans hs'), hplace⟩
  | last =>
    obtain ⟨s', hs', hplace⟩ := hn.previous hbehind
    exact ⟨s', map_of_ok ((bind_of_ok hs₂).trans hs'), hplace⟩
  | next =>
    obtain ⟨s', hs', hplace⟩ := hn.next h
    exact ⟨s', map_of_ok hs', hplace⟩
  | previous =>
    obtain ⟨s', hs', hplace⟩ := hn.previous h
    exact ⟨s', map_of_ok hs', hplace⟩

theorem entry (hn : n.Walks accept S) (h : AtPosition accept S es k s) :
    n.entry s = (elementAt (es.map Element.id) k).elim (.error (.notPositioned "get()")) .ok := by
  rw [Navigation.entry, hn.element_eq h, elementAt_map]
  cases elementAt es k <;> rfl

theorem available_eq (hn : n.Walks accept S) (h : AtPosition accept S es k s) :
    n.available s = (elementAt es k).isSome := by
  obtain ⟨t, e, hS, hplace⟩ := h
  rw [hn.available hS, hplace.found_eq]

theorem report (hn : n.Walks accept S) (h : AtPosition accept S es k s) (m : Movement) :
    ∃ s', n.report m s = .ok (m.reportOver (es.map Element.id) k) s' ∧
      AtPosition accept S es (m.target es.length k) s' := by
  obtain ⟨s', hs', hplace⟩ := hn.move h m
  refine ⟨s', ?_, hplace⟩
  rw [Navigation.report, bind_of_ok hs']
  show EStateM.Result.ok (Report.mk _ (n.available s') (n.entry s')) s' = _
  rw [hn.available_eq hplace, hn.entry hplace, Movement.reportOver, List.length_map,
    elementAt_map, Option.isSome_map]

/-- **A cursor is a position.** Whatever the movements are, a caller sees what the position in the
list of those kept shows. -/
theorem reports (hn : n.Walks accept S) (h : AtPosition accept S es k s) (ms : List Movement) :
    ∃ s' k', n.reports ms s = .ok (reportsOver (es.map Element.id) k ms) s' ∧
      AtPosition accept S es k' s' := by
  induction ms generalizing s k with
  | nil => exact ⟨s, k, rfl, h⟩
  | cons m ms ih =>
    obtain ⟨s₁, hs₁, hplace⟩ := hn.report h m
    obtain ⟨s', k', hs', hplace'⟩ := ih hplace
    refine ⟨s', k', ?_, hplace'⟩
    rw [Navigation.reports] at hs' ⊢
    rw [List.mapM_cons, bind_of_ok hs₁, bind_of_ok hs', reportsOver, List.length_map]
    rfl

/-! ### Whole walks -/

theorem elements_next (hn : n.Walks accept S) {m : Nat} (h : AtPosition accept S es k s)
    (hm : es.length < k + m) :
    ∃ s', n.elements n.next m s = .ok (es.drop k) s' := by
  induction m generalizing s k with
  | zero => exact ⟨s, by rw [List.drop_eq_nil_of_le (by omega)]; rfl⟩
  | succ m ih =>
    obtain ⟨s', hs', hplace⟩ := hn.next h
    rw [Navigation.elements, bind_of_ok hs']
    by_cases hk : k < es.length
    · have hthere : elementAt es (k + 1) = some es[k] := List.getElem?_eq_getElem hk
      rw [Nat.min_eq_left (by omega)] at hplace ⊢
      have he : n.element s' = .ok es[k] s' := by
        rw [hn.element_eq hplace, hthere]
        rfl
      obtain ⟨s'', hs''⟩ := ih hplace (by omega)
      refine ⟨s'', ?_⟩
      rw [hthere, Option.isSome_some, if_pos rfl, bind_of_ok he, bind_of_ok hs'',
        List.drop_eq_getElem_cons hk]
      rfl
    · refine ⟨s', ?_⟩
      rw [Nat.min_eq_right (by omega), elementAt_behind, List.drop_eq_nil_of_le (by omega)]
      rfl

theorem elements_previous (hn : n.Walks accept S) {m : Nat} (h : AtPosition accept S es k s)
    (hm : k ≤ m) : ∃ s', n.elements n.previous m s = .ok (es.take (k - 1)).reverse s' := by
  induction m generalizing s k with
  | zero =>
    obtain rfl := Nat.le_zero.1 hm
    exact ⟨s, rfl⟩
  | succ m ih =>
    obtain ⟨s', hs', hplace⟩ := hn.previous h
    have hle : k ≤ es.length + 1 := by
      obtain ⟨_, _, _, hstands⟩ := h
      exact hstands.le
    rw [Navigation.elements, bind_of_ok hs']
    obtain hk | ⟨j, hk⟩ : k - 1 = 0 ∨ ∃ j, k - 1 = j + 1 := by
      cases k - 1 with
      | zero => exact .inl rfl
      | succ j => exact .inr ⟨j, rfl⟩
    · rw [hk]
      exact ⟨s', rfl⟩
    · rw [hk] at hplace ⊢
      have hj : j < es.length := by omega
      have hthere : elementAt es (j + 1) = some es[j] := List.getElem?_eq_getElem hj
      have he : n.element s' = .ok es[j] s' := by
        rw [hn.element_eq hplace, hthere]
        rfl
      obtain ⟨s'', hs''⟩ := ih hplace (by omega)
      refine ⟨s'', ?_⟩
      rw [hthere, Option.isSome_some, if_pos rfl, bind_of_ok he, bind_of_ok hs'',
        Nat.add_sub_cancel, ← List.take_append_getElem hj, List.reverse_append]
      rfl

theorem length_le (hn : n.Walks accept S) (h : AtPosition accept S es k s) :
    es.length ≤ n.size s := by
  obtain ⟨t, e, hS, hplace⟩ := h
  exact Nat.le_trans hplace.keeps.length_le (hn.size hS)

/-- The entries from the end to the start, wherever the cursor is. -/
theorem collectReverse (hn : n.Walks accept S) (h : AtPosition accept S es k s) :
    ∃ s', n.collectReverse s = .ok (es.map Element.id).reverse s' := by
  obtain ⟨s₁, hs₁, hbehind⟩ := hn.afterLast h
  obtain ⟨s', hs'⟩ := hn.elements_previous hbehind (Nat.succ_le_succ (hn.length_le hbehind))
  refine ⟨s', ?_⟩
  have hwalk : n.walkBack s₁ = .ok es.reverse s' := by
    rw [Nat.add_sub_cancel, List.take_length] at hs'
    exact hs'
  rw [Navigation.collectReverse, bind_of_ok hs₁, bind_of_ok hwalk, ← List.map_reverse]
  rfl

theorem collect (hn : n.Walks accept S) (h : AtPosition accept S es k s) :
    ∃ s', n.collect s = .ok (es.map Element.id) s' := by
  obtain ⟨s₁, hs₁, hfront⟩ := hn.beforeFirst h
  have hsize : es.length < 0 + (n.size s₁ + 1) := by
    have := hn.length_le hfront
    omega
  obtain ⟨s', hs'⟩ := hn.elements_next hfront hsize
  refine ⟨s', ?_⟩
  have hwalk : n.walk s₁ = .ok es s' := hs'
  rw [Navigation.collect, bind_of_ok hs₁, bind_of_ok hwalk]
  rfl

/-- A round of a walk that does not fail finds nothing more, or an element that the rest of the walk
starts from. -/
theorem elements_succ (hn : n.Walks accept S) {t : Track (Element κ × τ)} {e : Option (Element κ)}
    (hS : S s t e) {m : Nat} (h : n.elements n.next (m + 1) s = .ok es s') :
    (∃ t₁, t.next accept = (.ok none, t₁) ∧ es = []) ∨
      ∃ e₁ t₁ s₁ es₁, t.next accept = (.ok (some e₁), t₁) ∧ S s₁ t₁ (some e₁) ∧
        n.elements n.next m s₁ = .ok es₁ s' ∧ es = e₁ :: es₁ := by
  obtain ⟨b, s₁, hb, h⟩ := bind_eq_ok.1 h
  have hlands := hn.advance .forward hS
  rw [Track.move_forward, show n.advance .forward s = _ from hb] at hlands
  cases hmove : t.next accept with
  | mk r t₁ =>
    rw [hmove] at hlands
    cases hlands with
    | @moved found _ _ hS₁ =>
      cases found with
      | none =>
        cases h
        exact .inl ⟨t₁, rfl, rfl⟩
      | some e₁ =>
        rw [Option.isSome_some, if_pos rfl] at h
        obtain ⟨e₂, s₂, he₂, h⟩ := bind_eq_ok.1 h
        cases (hn.element hS₁).symm.trans he₂
        obtain ⟨es₁, s₃, hes₁, h⟩ := bind_eq_ok.1 h
        cases h
        exact .inr ⟨e₁, t₁, _, es₁, rfl, hS₁, hes₁, rfl⟩

/-- A walk that does not fail and makes enough movements has met no failing test. -/
theorem ensures_elements (hn : n.Walks accept S) {t : Track (Element κ × τ)}
    {e : Option (Element κ)} (hS : S s t e) {m : Nat} (hm : t.ahead.length < m) :
    Ensures (n.elements n.next m) s fun _ _ => ∃ es, Keeps accept t.ahead es := by
  induction m generalizing s t e with
  | zero => omega
  | succ m ih =>
    intro es s' h
    obtain ⟨t₁, hmove, -⟩ | ⟨e₁, t₁, s₁, es₁, hmove, hS₁, hes₁, -⟩ := hn.elements_succ hS h
    · exact ⟨[], .of_passed (Track.move_none (w := .forward) hmove).1⟩
    · obtain ⟨passed, x, hahead, hpassed, -, hx⟩ := Track.move_found (w := .forward) hmove
      have hless : t₁.ahead.length < t.ahead.length := Track.move_some (w := .forward) hmove
      obtain ⟨es', hes'⟩ := ih hS₁ (by omega) es₁ s' hes₁
      exact ⟨e₁ :: es', (show t.ahead = _ from hahead) ▸
        (Keeps.of_passed hpassed).append (.keep hx hes')⟩

/-- A fresh cursor from which all entries can be collected is at a position in front of their
list. -/
theorem atPosition_of_collect (hn : n.Walks accept S) {ks : List (Element κ × τ)}
    (hfresh : S s (.start ks) none) {ids : List EntryId} {s' : σ} (h : n.collect s = .ok ids s') :
    ∃ es : List (Element κ), es.map Element.id = ids ∧ AtPosition accept S es 0 s := by
  obtain ⟨s₁, hs₁, hS₁⟩ := hn.restart .forward hfresh
  have hfront : n.beforeFirst s = .ok () s₁ := hs₁
  have hahead : ((Track.start ks).outset .forward).ahead = ks := Track.toList_start ks
  have hkeeps : Ensures n.collect s fun _ _ => ∃ es, Keeps accept ks es := by
    rw [Navigation.collect, Ensures.bind]
    intro _ s₂ hs₂
    cases hfront.symm.trans hs₂
    have hsize : ks.length < n.size s₁ + 1 := by
      have hlength := hn.size hS₁
      rw [Track.length, Track.toList_outset, Track.toList_start] at hlength
      exact Nat.lt_succ_of_le hlength
    have hwalk := hn.ensures_elements hS₁ (hahead.symm ▸ hsize)
    rw [hahead] at hwalk
    exact Ensures.bind.2 (hwalk.mono fun _ _ hes _ _ _ => hes)
  obtain ⟨es, hes⟩ := hkeeps ids s' h
  have hplace : AtPosition accept S es 0 s := ⟨_, _, hfresh, .front hes⟩
  obtain ⟨s'', hs''⟩ := hn.collect hplace
  cases hs''.symm.trans h
  exact ⟨es, rfl, hplace⟩

end Navigation.Walks

/-! ## Cursors on one track -/

/-- The results are the same, and so are the tracks that the states stand for. -/
inductive SameResult {ρ α : Type} (S : Standing σ κ τ) (S' : Standing ρ κ τ) :
    EStateM.Result Error σ α → EStateM.Result Error ρ α → Prop
  | ok {a : α} {s : σ} {s' : ρ} {t : Track (Element κ × τ)} {e : Option (Element κ)}
      (h : S s t e) (h' : S' s' t e) : SameResult S S' (.ok a s) (.ok a s')
  | error {err : Error} {s : σ} {s' : ρ} {t : Track (Element κ × τ)} {e : Option (Element κ)}
      (h : S s t e) (h' : S' s' t e) : SameResult S S' (.error err s) (.error err s')

namespace SameResult

variable {ρ α β : Type} {S' : Standing ρ κ τ}

theorem bind {m : EStateM Error σ α} {m' : EStateM Error ρ α} {f : α → EStateM Error σ β}
    {f' : α → EStateM Error ρ β} {s : σ} {s' : ρ} (h : SameResult S S' (m s) (m' s'))
    (hf : ∀ {a s s' t e}, S s t e → S' s' t e → SameResult S S' (f a s) (f' a s')) :
    SameResult S S' ((m >>= f) s) ((m' >>= f') s') := by
  show SameResult S S' (EStateM.bind m f s) (EStateM.bind m' f' s')
  rw [EStateM.bind, EStateM.bind]
  generalize m s = r at h
  generalize m' s' = r' at h
  cases h with
  | ok h h' => exact hf h h'
  | error h h' => exact .error h h'

theorem map {m : EStateM Error σ α} {m' : EStateM Error ρ α} {f : α → β} {s : σ} {s' : ρ}
    (h : SameResult S S' (m s) (m' s')) : SameResult S S' ((f <$> m) s) ((f <$> m') s') := by
  rw [map_eq_pure_bind, map_eq_pure_bind]
  exact h.bind fun h h' => .ok h h'

end SameResult

namespace Navigation.Walks

variable {ρ : Type} {S' : Standing ρ κ τ} {n' : Navigation ρ κ} {s' : ρ}
  {t : Track (Element κ × τ)} {e : Option (Element κ)}

theorem restart_same (hn : n.Walks accept S) (hn' : n'.Walks accept S') (w : Way) (h : S s t e)
    (h' : S' s' t e) : SameResult S S' (n.restart w s) (n'.restart w s') := by
  obtain ⟨s₁, hs₁, hS⟩ := hn.restart w h
  obtain ⟨s₁', hs₁', hS'⟩ := hn'.restart w h'
  rw [hs₁, hs₁']
  exact .ok hS hS'

theorem advance_same (hn : n.Walks accept S) (hn' : n'.Walks accept S') (w : Way) (h : S s t e)
    (h' : S' s' t e) : SameResult S S' (n.advance w s) (n'.advance w s') := by
  have hlands := hn.advance w h
  have hlands' := hn'.advance w h'
  cases hmove : t.move w accept with
  | mk r t₁ =>
    rw [hmove] at hlands hlands'
    cases r with
    | ok found =>
      obtain ⟨s₁, hs₁, hS⟩ := hlands.of_ok
      obtain ⟨s₁', hs₁', hS'⟩ := hlands'.of_ok
      rw [hs₁, hs₁']
      exact .ok hS hS'
    | error err =>
      obtain ⟨s₁, hs₁, hS⟩ := hlands.of_error
      obtain ⟨s₁', hs₁', hS'⟩ := hlands'.of_error
      rw [hs₁, hs₁']
      exact .error hS hS'

theorem move_same (hn : n.Walks accept S) (hn' : n'.Walks accept S') (m : Movement) (h : S s t e)
    (h' : S' s' t e) : SameResult S S' (n.move m s) (n'.move m s') := by
  cases m with
  | beforeFirst => exact (restart_same hn hn' .forward h h').bind fun h h' => .ok h h'
  | afterLast => exact (restart_same hn hn' .backward h h').bind fun h h' => .ok h h'
  | first =>
    exact ((restart_same hn hn' .forward h h').bind
      fun h h' => advance_same hn hn' .forward h h').map
  | last =>
    exact ((restart_same hn hn' .backward h h').bind
      fun h h' => advance_same hn hn' .backward h h').map
  | next => exact (advance_same hn hn' .forward h h').map
  | previous => exact (advance_same hn hn' .backward h h').map

theorem report_same (hn : n.Walks accept S) (hn' : n'.Walks accept S') (m : Movement) (h : S s t e)
    (h' : S' s' t e) : SameResult S S' (n.report m s) (n'.report m s') := by
  refine (move_same hn hn' m h h').bind fun {found s s' t e} h h' => ?_
  show SameResult S S' (.ok (Report.mk found (n.available s) (n.entry s)) s)
    (.ok (Report.mk found (n'.available s') (n'.entry s')) s')
  have hentry : n.entry s = n'.entry s' := by
    rw [Navigation.entry, Navigation.entry, hn.element h, hn'.element h']
    cases e <;> rfl
  rw [hn.available h, hn'.available h', hentry]
  exact .ok h h'

/-- **Cursors on one track show the same**, however they keep their places. -/
theorem trace_eq (hn : n.Walks accept S) (hn' : n'.Walks accept S') (h : S s t e)
    (h' : S' s' t e) (ms : List Movement) : n.trace ms s = n'.trace ms s' := by
  induction ms generalizing s s' t e with
  | nil => rfl
  | cons m ms ih =>
    have hsame := report_same hn hn' m h h'
    rw [Navigation.trace, Navigation.trace]
    generalize n.report m s = r at hsame
    generalize n'.report m s' = r' at hsame
    cases hsame with
    | ok h h' => exact congrArg _ (ih h h')
    | error h h' => exact congrArg _ (ih h h')

end Navigation.Walks

end Positions

end Directory
