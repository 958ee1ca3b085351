import Directory.Proofs.Cursor.Place
import Directory.Proofs.Steps
import Directory.Search.Leaves

/-!
# Cursors that walk a track

However a cursor keeps its place, what it does is to walk a track: a list of candidates with a place
in it, where a test tells which candidates are kept.

* `Lands`: the result of a movement is that of the track.
* `Navigation.Walks`: the operations are those of a track; the relation tells which states stand for
  which tracks.
* `Settles`: the loop of attempts ends; `Tried`, `settles_of_tried`: **a loop of attempts ends, and
  moves along the track**, if each attempt either ends as the movement does, or leaves a movement
  that ends alike and is nearer to its end.
-/

namespace Directory

section Walks

variable {σ κ τ : Type}

/-- The state stands for the track, and for what was found at its place. -/
abbrev Standing (σ κ τ : Type) := σ → Track (Element κ × τ) → Option (Element κ) → Prop

/-- The result of a movement is where the track has led, and what was found there. -/
inductive Lands (S : Standing σ κ τ) : Except Error (Option (Element κ)) × Track (Element κ × τ) →
    EStateM.Result Error σ Bool → Prop
  | moved {found : Option (Element κ)} {t : Track (Element κ × τ)} {s : σ} (h : S s t found) :
      Lands S (.ok found, t) (.ok found.isSome s)
  | failed {e : Error} {t : Track (Element κ × τ)} {s : σ} (h : S s t none) :
      Lands S (.error e, t) (.error e s)

theorem Lands.of_ok {S : Standing σ κ τ} {found : Option (Element κ)}
    {t : Track (Element κ × τ)} {r : EStateM.Result Error σ Bool} (h : Lands S (.ok found, t) r) :
    ∃ s, r = .ok found.isSome s ∧ S s t found := by
  cases h with
  | moved h => exact ⟨_, rfl, h⟩

theorem Lands.of_error {S : Standing σ κ τ} {e : Error} {t : Track (Element κ × τ)}
    {r : EStateM.Result Error σ Bool} (h : Lands S (.error e, t) r) :
    ∃ s, r = .error e s ∧ S s t none := by
  cases h with
  | failed h => exact ⟨_, rfl, h⟩

theorem Lands.mono {S S' : Standing σ κ τ} (hS : ∀ {s t e}, S s t e → S' s t e)
    {moved : Except Error (Option (Element κ)) × Track (Element κ × τ)}
    {r : EStateM.Result Error σ Bool} (h : Lands S moved r) : Lands S' moved r := by
  cases h with
  | moved h => exact .moved (hS h)
  | failed h => exact .failed (hS h)

theorem Lands.inside {ρ : Type} {S : Standing σ κ τ} {S' : Standing ρ κ τ} {wrap : σ → ρ}
    (hwrap : ∀ {s t e}, S s t e → S' (wrap s) t e)
    {moved : Except Error (Option (Element κ)) × Track (Element κ × τ)}
    {r : EStateM.Result Error σ Bool} (h : Lands S moved r) :
    Lands S' moved (Directory.inside wrap r) := by
  cases h with
  | moved h => exact .moved (hwrap h)
  | failed h => exact .failed (hwrap h)

/-- The operations on an open cursor are those of a track. -/
structure Navigation.Walks (n : Navigation σ κ)
    (accept : Element κ × τ → Except Error (Option (Element κ))) (S : Standing σ κ τ) : Prop where
  isOpen : ∀ {s t e}, S s t e → n.closed s = false
  size : ∀ {s t e}, S s t e → t.length ≤ n.size s
  restart : ∀ {s t e} (w : Way), S s t e →
    ∃ s', n.restart w s = .ok () s' ∧ S s' (t.outset w) none
  advance : ∀ {s t e} (w : Way), S s t e → Lands S (t.move w accept) (n.advance w s)
  element : ∀ {s t e}, S s t e →
    n.element s = e.elim (.error (.notPositioned "get()") s) (.ok · s)
  available : ∀ {s t e}, S s t e → n.available s = e.isSome

/-! ## Loops -/

variable {accept : Element κ × τ → Except Error (Option (Element κ))} {w : Way}
  {Q : Nat → σ → Track (Element κ × τ) → Prop} {S : Standing σ κ τ}

/-- An attempt to move from a track: it ends as the movement does, or comes to a track from which
the movement ends alike, and to a smaller number. -/
inductive Tried (accept : Element κ × τ → Except Error (Option (Element κ))) (w : Way)
    (Q : Nat → σ → Track (Element κ × τ) → Prop) (S : Standing σ κ τ) (k : Nat)
    (t : Track (Element κ × τ)) : EStateM.Result Error σ (Option Bool) → Prop
  | moved {found : Option (Element κ)} {t' : Track (Element κ × τ)} {s : σ}
      (h : t.move w accept = (.ok found, t')) (hs : S s t' found) :
      Tried accept w Q S k t (.ok (some found.isSome) s)
  | failed {e : Error} {t' : Track (Element κ × τ)} {s : σ}
      (h : t.move w accept = (.error e, t')) (hs : S s t' none) :
      Tried accept w Q S k t (.error e s)
  | again {k' : Nat} {t' : Track (Element κ × τ)} {s : σ}
      (h : t.move w accept = t'.move w accept) (hk : k' < k) (hs : Q k' s t') :
      Tried accept w Q S k t (.ok none s)

/-- The loop that makes attempts until one has an answer ends after so many of them. -/
inductive Settles (attempt : EStateM Error σ (Option Bool)) :
    Nat → σ → EStateM.Result Error σ Bool → Prop
  | answered {s s' : σ} {found : Bool} (h : attempt s = .ok (some found) s') :
      Settles attempt 1 s (.ok found s')
  | refused {s s' : σ} {e : Error} (h : attempt s = .error e s') :
      Settles attempt 1 s (.error e s')
  | again {j : Nat} {s s' : σ} {r : EStateM.Result Error σ Bool} (h : attempt s = .ok none s')
      (hs' : Settles attempt j s' r) : Settles attempt (j + 1) s r

variable {attempt : EStateM Error σ (Option Bool)} {s : σ} {t : Track (Element κ × τ)}

theorem Settles.rounds_eq {j n : Nat} {r : EStateM.Result Error σ Bool}
    (h : Settles attempt j s r) (hn : j ≤ n) : rounds attempt n s = r := by
  have hround (m : Nat) (s : σ) : rounds attempt (m + 1) s = match attempt s with
      | .ok (some found) s' => .ok found s'
      | .ok none s' => rounds attempt m s'
      | .error e s' => .error e s' := by
    rw [rounds]
    cases hs : attempt s with
    | ok found s' =>
      rw [bind_of_ok hs]
      cases found <;> rfl
    | error e s' => rw [bind_of_error hs]
  obtain ⟨m, rfl⟩ : ∃ m, n = m + 1 := by
    cases n with
    | zero => cases h <;> omega
    | succ m => exact ⟨m, rfl⟩
  induction h generalizing m with
  | answered h => rw [hround, h]
  | refused h => rw [hround, h]
  | again h hs' ih =>
    obtain ⟨m, rfl⟩ : ∃ l, m = l + 1 := by
      cases m with
      | zero => cases hs' <;> omega
      | succ l => exact ⟨l, rfl⟩
    rw [hround, h]
    exact ih m (by omega)

/-- **Loops of attempts.** The loop ends, after no more attempts than the number allows, as the
movement does. -/
theorem settles_of_tried (htry : ∀ {k s t}, Q k s t → Tried accept w Q S k t (attempt s)) {k : Nat}
    (h : Q k s t) :
    ∃ j r, j ≤ k + 1 ∧ Settles attempt j s r ∧ Lands S (t.move w accept) r := by
  induction k using Nat.strongRecOn generalizing s t with
  | ind k ih =>
    have hfirst := htry h
    cases hresult : attempt s with
    | ok found s' =>
      rw [hresult] at hfirst
      cases hfirst with
      | moved hmove hs => exact ⟨1, _, by omega, .answered hresult, hmove ▸ .moved hs⟩
      | again hmove hk hs =>
        obtain ⟨j, r, hj, hsettles, hlands⟩ := ih _ hk hs
        exact ⟨j + 1, r, by omega, .again hresult hsettles, hmove ▸ hlands⟩
    | error e s' =>
      rw [hresult] at hfirst
      cases hfirst with
      | failed hmove hs => exact ⟨1, _, by omega, .refused hresult, hmove ▸ .failed hs⟩

theorem lands_rounds (htry : ∀ {k s t}, Q k s t → Tried accept w Q S k t (attempt s)) {k n : Nat}
    (h : Q k s t) (hn : k < n) : Lands S (t.move w accept) (rounds attempt n s) := by
  obtain ⟨j, r, hj, hsettles, hlands⟩ := settles_of_tried htry h
  rwa [hsettles.rounds_eq (by omega)]

end Walks

end Directory
