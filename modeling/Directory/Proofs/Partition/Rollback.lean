import Directory.Partition.Write
import Directory.Proofs.Index.Batch
import Directory.Proofs.Steps

/-!
# Taking steps back

* `Partition.Sound`: the tables of every index of a partition are in step.
* `Transaction.LeadsTo`: from one transaction to a later one, where taking back what the journal
  has gained gives the first partition again.
* `Transaction.Reversible`: steps that always lead so, whether they are carried out or refused. One
  lemma for each kind of step and for each way to combine steps.
* `Partition.transact_error`: **a refused transaction changes nothing**.
-/

namespace Directory

/-! ## Replacing an index -/

namespace SystemIndices

variable (s : SystemIndices) (i j : NameIndex) (k l : TreeIndex) (x y : Index String)
  (u v : Index EntryId)

@[simp] theorem names_setNames : (s.setNames i x).names i = x := by cases i <;> rfl

theorem names_setNames_of_ne {i j : NameIndex} (h : j ≠ i) :
    (s.setNames i x).names j = s.names j := by
  cases i <;> cases j <;> first | rfl | exact absurd rfl h

@[simp] theorem tree_setNames : (s.setNames i x).tree k = s.tree k := by cases i <;> cases k <;> rfl

@[simp] theorem tree_setTree : (s.setTree k u).tree k = u := by cases k <;> rfl

theorem tree_setTree_of_ne {k l : TreeIndex} (h : l ≠ k) : (s.setTree k u).tree l = s.tree l := by
  cases k <;> cases l <;> first | rfl | exact absurd rfl h

@[simp] theorem names_setTree : (s.setTree k u).names i = s.names i := by
  cases i <;> cases k <;> rfl

@[simp] theorem setNames_setNames : (s.setNames i x).setNames i y = s.setNames i y := by
  cases i <;> rfl

@[simp] theorem setNames_names : s.setNames i (s.names i) = s := by cases i <;> rfl

@[simp] theorem setTree_setTree : (s.setTree k u).setTree k v = s.setTree k v := by cases k <;> rfl

@[simp] theorem setTree_tree : s.setTree k (s.tree k) = s := by cases k <;> rfl

end SystemIndices

namespace SortedMap

variable {α β : Type} [Ord α] [Std.TransOrd α] [Std.LawfulEqOrd α]

theorem get?_set_self (m : SortedMap α β) (k : α) (v? : Option β) : (m.set k v?).get? k = v? := by
  cases v? with
  | none => exact get?_erase_self m k
  | some v => exact get?_insert_self m k v

theorem get?_set_of_ne {m : SortedMap α β} {k k' : α} (v? : Option β) (h : k' ≠ k) :
    (m.set k v?).get? k' = m.get? k' := by
  cases v? with
  | none => exact get?_erase_of_ne h
  | some v => exact get?_insert_of_ne v h

/-- A binding that is replaced twice and then is what it was. -/
theorem set_set_get? (m : SortedMap α β) (k : α) (v? : Option β) :
    (m.set k v?).set k (m.get? k) = m := by
  refine ext fun k' => ?_
  by_cases h : k' = k
  · rw [h, get?_set_self]
  · rw [get?_set_of_ne _ h, get?_set_of_ne _ h]

theorem insert_insert_get? {m : SortedMap α β} {k : α} {v : β} (w : β) (h : m.get? k = some v) :
    (m.insert k w).insert k v = m := by
  have := set_set_get? m k (some w)
  rwa [h] at this

end SortedMap

/-! ## Partitions in step -/

theorem Partition.userIndex_eq_ok {p : Partition} {a : AttributeId} {x : Index Value} :
    p.userIndex a = .ok x ↔ p.userIndex? a = some x := by
  unfold Partition.userIndex
  cases p.userIndex? a with
  | none => exact ⟨fun h => (nomatch h), fun h => nomatch h⟩
  | some y => exact ⟨fun h => by cases h; rfl, fun h => by cases h; rfl⟩

/-- The tables of all indices are in step. -/
structure Partition.Sound (p : Partition) : Prop where
  names : ∀ i, (p.system.names i).WellFormed
  tree : ∀ i, (p.system.tree i).WellFormed
  presence : p.presence.WellFormed
  user : ∀ a x, p.userIndex? a = some x → x.WellFormed

namespace Partition.Sound

variable {p : Partition}

theorem setNames (h : p.Sound) (i : NameIndex) {x : Index String} (hx : x.WellFormed) :
    Sound { p with system := p.system.setNames i x } where
  names j := by
    by_cases e : j = i
    · subst e
      rw [SystemIndices.names_setNames]
      exact hx
    · rw [SystemIndices.names_setNames_of_ne _ _ e]
      exact h.names j
  tree k := by
    rw [SystemIndices.tree_setNames]
    exact h.tree k
  presence := h.presence
  user := h.user

theorem setTree (h : p.Sound) (k : TreeIndex) {x : Index EntryId} (hx : x.WellFormed) :
    Sound { p with system := p.system.setTree k x } where
  names i := by
    rw [SystemIndices.names_setTree]
    exact h.names i
  tree l := by
    by_cases e : l = k
    · subst e
      rw [SystemIndices.tree_setTree]
      exact hx
    · rw [SystemIndices.tree_setTree_of_ne _ _ e]
      exact h.tree l
  presence := h.presence
  user := h.user

theorem setPresence (h : p.Sound) {x : Index AttributeId} (hx : x.WellFormed) :
    Sound { p with presence := x } where
  names := h.names
  tree := h.tree
  presence := hx
  user := h.user

theorem insertUser (h : p.Sound) (a : AttributeId) {x : Index Value} (hx : x.WellFormed) :
    Sound { p with user := p.user.insert a x } where
  names := h.names
  tree := h.tree
  presence := h.presence
  user b y hy := by
    have hy : (p.user.insert a x).get? b = some y := hy
    by_cases e : b = a
    · rw [e, SortedMap.get?_insert_self] at hy
      cases hy
      exact hx
    · rw [SortedMap.get?_insert_of_ne _ e] at hy
      exact h.user b y hy

theorem setEntry (h : p.Sound) (id : EntryId) (e : Option Entry) : (p.setEntry id e).Sound where
  names := h.names
  tree := h.tree
  presence := h.presence
  user := h.user

end Partition.Sound

namespace Transaction

/-! ## Journals -/

theorem revertAll_append {p p' : Partition} {c c' : Option Error} {us vs : List Undo}
    (h : revertAll p c us = (c', p')) : revertAll p c (us ++ vs) = revertAll p' c' vs := by
  induction us generalizing p c with
  | nil =>
    cases h
    rfl
  | cons u us ih =>
    rw [List.cons_append, revertAll]
    rw [revertAll] at h
    cases hu : u.revert p with
    | ok q =>
      rw [hu] at h
      exact ih h
    | error e =>
      rw [hu] at h
      exact ih h

/-- What the journal has gained leads back to the partition, which had its indices in step. -/
structure LeadsTo (t t' : Transaction) : Prop where
  sound : t'.partition.Sound
  back : ∃ us, t'.journal = us ++ t.journal ∧
    ∀ c, revertAll t'.partition c us = (c, t.partition)

namespace LeadsTo

variable {t t' t'' : Transaction}

theorem refl (h : t.partition.Sound) : t.LeadsTo t := ⟨h, [], rfl, fun _ => rfl⟩

theorem trans (h : t.LeadsTo t') (h' : t'.LeadsTo t'') : t.LeadsTo t'' := by
  obtain ⟨us, hus, hback⟩ := h.back
  obtain ⟨vs, hvs, hback'⟩ := h'.back
  refine ⟨h'.sound, vs ++ us, by rw [hvs, hus, List.append_assoc], fun c => ?_⟩
  rw [revertAll_append (hback' c), hback]

theorem of_revert {p : Partition} {u : Undo} (hp : p.Sound) (h : u.revert p = .ok t.partition) :
    t.LeadsTo ⟨p, u :: t.journal⟩ :=
  ⟨hp, [u], rfl, fun c => by rw [revertAll, h]; rfl⟩

theorem rollback {p : Partition} (h : (start p).LeadsTo t) : t.rollback = (.ok (), p) := by
  obtain ⟨us, hus, hback⟩ := h.back
  have hus : t.journal = us := hus.trans (List.append_nil us)
  rw [Transaction.rollback, hus, hback]
  rfl

theorem dropped {p : Partition} (h : (start p).LeadsTo t) : t.dropped = p := by
  rw [Transaction.dropped, h.rollback]

end LeadsTo

/-! ## Reversible steps -/

/-- Steps after which the journal always leads back. -/
def Reversible {α : Type} (m : TransactionM α) : Prop :=
  ∀ t : Transaction, t.partition.Sound → t.LeadsTo (stateAfter m t)

namespace Reversible

variable {α β : Type} {m : TransactionM α}

theorem pure (a : α) : Reversible (pure a) := fun _ h => .refl h

theorem throw (e : Error) : Reversible (throw e : TransactionM α) := fun _ h => .refl h

theorem get : Reversible get := fun _ h => .refl h

theorem lift (x : Except Error α) : Reversible (liftM x) := by
  cases x with
  | ok a => exact pure a
  | error e => exact throw e

theorem ensures_sound (hm : Reversible m) {t : Transaction} (ht : t.partition.Sound) :
    Ensures m t fun _ t' => t'.partition.Sound := by
  intro a t' h
  have ht' := (hm t ht).sound
  unfold stateAfter at ht'
  rwa [h] at ht'

theorem bind {f : α → TransactionM β} (hm : Reversible m) (hf : ∀ a, Reversible (f a)) :
    Reversible (m >>= f) := by
  intro t ht
  have ht' := hm t ht
  unfold stateAfter at ht' ⊢
  cases h : m t with
  | error e t' =>
    rw [h] at ht'
    rwa [bind_of_error h]
  | ok a t' =>
    rw [h] at ht'
    rw [bind_of_ok h]
    exact ht'.trans (hf a t' ht'.sound)

theorem composes : Composes fun m => Reversible m := ⟨pure, bind⟩

theorem forM {f : α → TransactionM Unit} (hf : ∀ a, Reversible (f a)) (xs : List α) :
    Reversible (xs.forM f) := composes.forM hf xs

theorem forM_option {f : α → TransactionM Unit} (hf : ∀ a, Reversible (f a)) (x? : Option α) :
    Reversible (x?.forM f) := composes.forM_option hf x?

theorem mapM {f : α → TransactionM β} (hf : ∀ a, Reversible (f a)) (xs : List α) :
    Reversible (xs.mapM f) := composes.mapM hf xs

theorem ite {c : Prop} [Decidable c] {m' : TransactionM α} (hm : Reversible m)
    (hm' : Reversible m') : Reversible (if c then m else m') := by
  split
  · exact hm
  · exact hm'

/-! ## The steps -/

theorem step {δ : Type} (apply : Partition → Except Error (Partition × δ)) (u : δ → Undo)
    (h : ∀ p p' d, p.Sound → apply p = .ok (p', d) → p'.Sound ∧ (u d).revert p' = .ok p) :
    Reversible (do let (p, d) ← apply (← MonadState.get).partition; record p (u d)) := by
  intro t ht
  have hrun : (do let (p, d) ← apply (← MonadState.get).partition; record p (u d) :
      TransactionM Unit) t = (do let (p, d) ← apply t.partition; record p (u d) :
      TransactionM Unit) t := rfl
  unfold stateAfter
  rw [hrun]
  cases happly : apply t.partition with
  | error e => exact .refl ht
  | ok r => exact .of_revert (h _ _ _ ht happly).1 (h _ _ _ ht happly).2

theorem changeNames (i : NameIndex) (cs : List (Change String)) :
    Reversible (changeNames i cs) := by
  refine step (·.applyNames i cs) (.names i) fun p p' undo hp happly => ?_
  obtain ⟨⟨y, undo'⟩, hy, hp'⟩ := Except.bind_eq_ok.1 happly
  cases hp'
  obtain ⟨hwf, _, _, _, redo, hredo⟩ := Index.apply_eq_ok (hp.names i) hy
  refine ⟨hp.setNames i hwf, ?_⟩
  simp [Undo.revert, Partition.applyNames, hredo]

theorem changeTree (k : TreeIndex) (cs : List (Change EntryId)) :
    Reversible (changeTree k cs) := by
  refine step (·.applyTree k cs) (.tree k) fun p p' undo hp happly => ?_
  obtain ⟨⟨y, undo'⟩, hy, hp'⟩ := Except.bind_eq_ok.1 happly
  cases hp'
  obtain ⟨hwf, _, _, _, redo, hredo⟩ := Index.apply_eq_ok (hp.tree k) hy
  refine ⟨hp.setTree k hwf, ?_⟩
  simp [Undo.revert, Partition.applyTree, hredo]

theorem changePresence (cs : List (Change AttributeId)) : Reversible (changePresence cs) := by
  refine step (·.applyPresence cs) .presence fun p p' undo hp happly => ?_
  obtain ⟨⟨y, undo'⟩, hy, hp'⟩ := Except.bind_eq_ok.1 happly
  cases hp'
  obtain ⟨hwf, _, _, _, redo, hredo⟩ := Index.apply_eq_ok hp.presence hy
  refine ⟨hp.setPresence hwf, ?_⟩
  simp [Undo.revert, Partition.applyPresence, hredo]

theorem changeUser (a : AttributeId) (cs : List (Change Value)) : Reversible (changeUser a cs) := by
  refine step (·.applyUser a cs) (.user a) fun p p' undo hp happly => ?_
  obtain ⟨x, hx, happly⟩ := Except.bind_eq_ok.1 happly
  obtain ⟨⟨y, undo'⟩, hy, hp'⟩ := Except.bind_eq_ok.1 happly
  cases hp'
  have hx : p.userIndex? a = some x := Partition.userIndex_eq_ok.1 hx
  obtain ⟨hwf, _, _, _, redo, hredo⟩ := Index.apply_eq_ok (hp.user a x hx) hy
  have hy : Partition.userIndex { p with user := p.user.insert a y } a = .ok y :=
    Partition.userIndex_eq_ok.2 (SortedMap.get?_insert_self ..)
  refine ⟨hp.insertUser a hwf, ?_⟩
  simp [Undo.revert, Partition.applyUser, hy, hredo,
    SortedMap.insert_insert_get? y hx]

theorem putEntry (e : Entry) : Reversible (putEntry e) := fun t ht =>
  .of_revert (ht.setEntry ..) (congrArg Except.ok (by
    show Partition.setEntry _ _ _ = _
    rw [Partition.setEntry, Partition.setEntry, Partition.get?, SortedMap.set_set_get?]))

theorem removeEntry (id : EntryId) : Reversible (removeEntry id) := fun t ht =>
  .of_revert (ht.setEntry ..) (congrArg Except.ok (by
    show Partition.setEntry _ _ _ = _
    rw [Partition.setEntry, Partition.setEntry, Partition.get?, SortedMap.set_set_get?]))

end Reversible

end Transaction

/-- **A refused transaction changes nothing.** -/
theorem Partition.transact_error {α : Type} {steps : TransactionM α} {p p' : Partition} {e : Error}
    (hsteps : Transaction.Reversible steps) (hp : p.Sound) (h : transact steps p = .error e p') :
    p' = p := by
  have hback := hsteps (.start p) hp
  rw [transact] at h
  unfold stateAfter at hback
  cases hs : steps (.start p) with
  | ok a t =>
    rw [hs] at h
    cases h
  | error e' t =>
    rw [hs] at h hback
    cases h
    exact hback.dropped

end Directory
