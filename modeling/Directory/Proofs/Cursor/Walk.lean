import Directory.Cursor.Basic
import Directory.Proofs.Steps

/-!
# Walks

* `Keeps`: what a test that never fails keeps of a list.
* `Cursor.Gives`: the elements that an open cursor has still to give; `Cursor.next_of_gives`: one
  movement gives the first of them.
* `Navigation.elements_of_gives`: **a walk gives them all and ends**.
-/

namespace Directory

/-! ## What a test keeps -/

section Keeps

variable {α β ε : Type}

/-- The test answers on every element of the list, and keeps these. -/
inductive Keeps (keep : α → Except ε (Option β)) : List α → List β → Prop
  | nil : Keeps keep [] []
  | skip {x : α} {xs : List α} {ys : List β} (hx : keep x = .ok none) (h : Keeps keep xs ys) :
      Keeps keep (x :: xs) ys
  | keep {x : α} {y : β} {xs : List α} {ys : List β} (hx : keep x = .ok (some y))
      (h : Keeps keep xs ys) : Keeps keep (x :: xs) (y :: ys)

theorem Track.advance_of_keeps {keep : α → Except ε (Option β)} {ahead : List α} {ys : List β}
    (h : Keeps keep ahead ys) (behind : List α) :
    ∃ t, advance keep behind ahead = (.ok ys.head?, t) ∧ Keeps keep t.ahead ys.tail := by
  induction h generalizing behind with
  | nil => exact ⟨_, rfl, .nil⟩
  | @skip x _ _ hx _ ih =>
    rw [advance, hx]
    exact ih (x :: behind)
  | keep hx h =>
    rw [advance, hx]
    exact ⟨_, rfl, h⟩

end Keeps

/-! ## Movements of a cursor -/

namespace Cursor

variable {κ τ : Type} {accept : Element κ × τ → Except Error (Option (Element κ))}
  {c : Cursor κ τ} {es : List (Element κ)}

/-- The cursor is open and has these elements ahead. -/
structure Gives (accept : Element κ × τ → Except Error (Option (Element κ))) (c : Cursor κ τ)
    (es : List (Element κ)) : Prop where
  isOpen : c.closed = false
  ahead : Keeps accept c.track.ahead es

theorem ofList_gives {ks : List (Element κ × τ)} (h : Keeps accept ks es) :
    (ofList ks).Gives accept es := ⟨rfl, h⟩

/-- One movement: the cursor stands on the first of the elements and has the others ahead. -/
theorem next_of_gives (h : c.Gives accept es) : ∃ c', next accept c = .ok es.head?.isSome c' ∧
    c'.current = es.head? ∧ c'.Gives accept es.tail := by
  obtain ⟨track, current, closed⟩ := c
  obtain rfl : closed = false := h.isOpen
  obtain ⟨t, ht, hkeeps⟩ := Track.advance_of_keeps h.ahead (track.here.toList ++ track.behind)
  refine ⟨⟨t, es.head?, false⟩, ?_, rfl, rfl, hkeeps⟩
  show land (Track.advance accept (track.here.toList ++ track.behind) track.ahead) _ = _
  rw [ht]
  rfl

theorem element_of_current {e : Element κ} (hopen : c.closed = false) (he : c.current = some e) :
    element c = .ok e c := by
  obtain ⟨track, current, closed⟩ := c
  obtain rfl : closed = false := hopen
  obtain rfl : current = some e := he
  rfl

end Cursor

/-! ## Walks -/

/-- **A walk gives the elements ahead and ends**, however many movements it may make beyond that. -/
theorem Navigation.elements_of_gives {σ κ τ : Type} {n : Navigation σ κ} {part : σ → Cursor κ τ}
    {put : σ → Cursor κ τ → σ} (hput : ∀ s c, part (put s c) = c)
    {accept : Element κ × τ → Except Error (Option (Element κ))}
    (hnext : n.next = onPart part put (Cursor.next accept))
    (helement : n.element = onPart part put Cursor.element) {es : List (Element κ)} {s : σ}
    (h : (part s).Gives accept es) :
    ∃ s', ∀ m, es.length < m → n.elements n.next m s = .ok es s' := by
  have hmove : ∀ s es, (part s).Gives accept es → ∃ s', n.next s = .ok es.head?.isSome s' ∧
      (part s').current = es.head? ∧ (part s').Gives accept es.tail := by
    intro s es h
    obtain ⟨c, hc, hcurrent, hgives⟩ := Cursor.next_of_gives h
    refine ⟨put s c, ?_, by rwa [hput], by rwa [hput]⟩
    rw [hnext, onPart, hc]
  induction es generalizing s with
  | nil =>
    obtain ⟨s', hs', _⟩ := hmove s [] h
    refine ⟨s', fun m hm => ?_⟩
    obtain ⟨m, rfl⟩ := Nat.exists_eq_add_one.2 hm
    rw [elements, bind_of_ok hs']
    rfl
  | cons e es ih =>
    obtain ⟨s', hs', hcurrent, hgives⟩ := hmove s (e :: es) h
    have he : n.element s' = .ok e (put s' (part s')) := by
      rw [helement, onPart, Cursor.element_of_current hgives.isOpen hcurrent]
    obtain ⟨s'', hs''⟩ := ih (s := put s' (part s')) (by rwa [hput])
    refine ⟨s'', fun m hm => ?_⟩
    obtain ⟨m, rfl⟩ := Nat.exists_eq_add_one.2 (Nat.zero_lt_of_lt hm)
    rw [elements, bind_of_ok hs', List.head?_cons, Option.isSome_some, if_pos rfl, bind_of_ok he,
      bind_of_ok (hs'' m (Nat.lt_of_succ_lt_succ hm))]
    rfl

end Directory
