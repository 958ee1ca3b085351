import Directory.Index.Basic

/-!
# Tables in step

The two tables of an index hold the same tuples, no empty sets, and the number of tuples is right.

* `Tables.WellFormed`: this condition; `Tables.WellFormed.ext`: tables in step are determined by
  their tuples.
* `Tables.WellFormed.change?`, `Tables.WellFormed.changeAll?`: a change of tables in step is always
  possible, keeps them in step, has the effect `Change.onto`, and can be taken back.
-/

namespace Directory

/-! ## Maps to sets -/

namespace SortedMap

variable {α β : Type} [Ord α] [Std.TransOrd α] [Std.LawfulEqOrd α]

/-- No key is bound to the empty set. -/
def NoEmpty [Ord β] (m : SortedMap α (SortedSet β)) : Prop := ∀ k s, m.get? k = some s → ∃ b, b ∈ s

theorem getD_insert_self (m : SortedMap α β) (k : α) (v d : β) : (m.insert k v).getD k d = v := by
  rw [getD, get?_insert_self, Option.getD_some]

theorem getD_insert_of_ne {m : SortedMap α β} {k k' : α} (v d : β) (h : k' ≠ k) :
    (m.insert k v).getD k' d = m.getD k' d := by
  rw [getD, getD, get?_insert_of_ne v h]

variable [Ord β] {m n : SortedMap α (SortedSet β)} {k k' : α} {s : SortedSet β}

omit [Std.TransOrd α] [Std.LawfulEqOrd α] in
theorem get?_of_mem_getD {b : β} (h : b ∈ m.getD k ∅) : m.get? k = some (m.getD k ∅) := by
  cases hk : m.get? k with
  | none => rw [getD, hk] at h; exact absurd h (SortedSet.not_mem_empty b)
  | some s => rw [getD, hk, Option.getD_some]

theorem NoEmpty.ext (hm : m.NoEmpty) (hn : n.NoEmpty) (h : ∀ k, m.getD k ∅ = n.getD k ∅) :
    m = n := by
  refine SortedMap.ext fun k => ?_
  cases hk : m.get? k with
  | some s =>
    obtain ⟨b, hb⟩ := hm k s hk
    have hs : m.getD k ∅ = s := by rw [getD, hk, Option.getD_some]
    rw [get?_of_mem_getD (m := n) (b := b) (by rwa [← h, hs]), ← h, hs]
  | none =>
    cases hk' : n.get? k with
    | none => rfl
    | some s =>
      obtain ⟨b, hb⟩ := hn k s hk'
      have hs : n.getD k ∅ = s := by rw [getD, hk', Option.getD_some]
      have := get?_of_mem_getD (m := m) (k := k) (b := b) (by rwa [h, hs])
      rw [hk] at this
      cases this

theorem NoEmpty.insert (hm : m.NoEmpty) {b : β} (hb : b ∈ s) : (m.insert k s).NoEmpty := by
  intro k' s' h
  by_cases e : k' = k
  · subst e
    rw [get?_insert_self] at h
    cases h
    exact ⟨b, hb⟩
  · rw [get?_insert_of_ne _ e] at h
    exact hm k' s' h

theorem NoEmpty.putSet (hm : m.NoEmpty) : (m.putSet k s).NoEmpty := by
  unfold SortedMap.putSet
  split
  · intro k' s' h
    by_cases e : k' = k
    · subst e
      rw [get?_erase_self] at h
      cases h
    · rw [get?_erase_of_ne e] at h
      exact hm k' s' h
  · rename_i hs
    cases hl : s.toList with
    | nil => exact absurd (by rw [SortedSet.isEmpty, hl]; rfl) hs
    | cons b bs => exact hm.insert (b := b) (by rw [← SortedSet.mem_toList, hl]; exact .head _)

theorem getD_putSet_self : (m.putSet k s).getD k ∅ = s := by
  unfold SortedMap.putSet
  split
  · rename_i hs
    rw [getD, get?_erase_self, Option.getD_none]
    cases s with
    | mk xs h => cases xs with
      | nil => rfl
      | cons => cases hs
  · exact getD_insert_self ..

theorem getD_putSet_of_ne (h : k' ≠ k) : (m.putSet k s).getD k' ∅ = m.getD k' ∅ := by
  unfold SortedMap.putSet
  split
  · rw [getD, get?_erase_of_ne h, ← getD]
  · exact getD_insert_of_ne _ _ h

end SortedMap

/-! ## Changes of a relation -/

namespace Change

variable {κ : Type}

/-- What a change makes of a relation between keys and entries. -/
def onto (c : Change κ) (r : κ → EntryId → Prop) : κ → EntryId → Prop :=
  match c with
  | add k id => fun l i => (l = k ∧ i = id) ∨ r l i
  | drop k id => fun l i => r l i ∧ ¬(l = k ∧ i = id)

/-- What changes, one after another, make of a relation. -/
def allOnto (cs : List (Change κ)) (r : κ → EntryId → Prop) : κ → EntryId → Prop :=
  cs.foldl (fun r c => c.onto r) r

/-- The change makes a difference to the relation. -/
def Effective (c : Change κ) (r : κ → EntryId → Prop) : Prop :=
  match c with
  | add k id => ¬r k id
  | drop k id => r k id

theorem onto_inverse {c : Change κ} {r : κ → EntryId → Prop} (h : c.Effective r) :
    c.inverse.onto (c.onto r) = r := by
  funext l i
  refine propext ?_
  cases c with
  | add k id =>
    have hne : r l i → ¬(l = k ∧ i = id) := fun hr ⟨hl, hi⟩ => h (hl ▸ hi ▸ hr)
    exact ⟨fun ⟨h', hn⟩ => h'.resolve_left hn, fun hr => ⟨.inr hr, hne hr⟩⟩
  | drop k id =>
    have heq : l = k ∧ i = id → r l i := fun ⟨hl, hi⟩ => hl ▸ hi ▸ h
    by_cases e : l = k ∧ i = id
    · exact ⟨fun _ => heq e, fun _ => .inl e⟩
    · exact ⟨fun h' => (h'.resolve_left e).1, fun hr => .inr ⟨hr, e⟩⟩

end Change

/-! ## Tuples -/

namespace Tables

variable {κ : Type} [Ord κ]

/-- The tables have the tuple. -/
def Has (t : Tables κ) (k : κ) (id : EntryId) : Prop := id ∈ t.idsOf k

/-- Both tables hold the same tuples and no empty sets, and the number of tuples is right. -/
structure WellFormed (t : Tables κ) : Prop where
  has_iff : ∀ k id, t.Has k id ↔ k ∈ t.keysOf id
  forward_noEmpty : t.forward.NoEmpty
  reverse_noEmpty : t.reverse.NoEmpty
  count_eq : t.count = t.byKey.length

variable [Std.TransOrd κ] [Std.LawfulEqOrd κ] {t t' : Tables κ} {k : κ} {id : EntryId}

omit [Std.TransOrd κ] [Std.LawfulEqOrd κ] in
theorem wellFormed_empty : (empty : Tables κ).WellFormed where
  has_iff _ _ := ⟨fun h => absurd h (SortedSet.not_mem_empty _),
    fun h => absurd h (SortedSet.not_mem_empty _)⟩
  forward_noEmpty _ _ h := by cases h
  reverse_noEmpty _ _ h := by cases h
  count_eq := rfl

omit [Std.TransOrd κ] [Std.LawfulEqOrd κ] in
theorem hasForward_iff : t.hasForward k id = true ↔ t.Has k id := SortedSet.contains_iff

theorem hasReverse_iff : t.hasReverse k id = true ↔ k ∈ t.keysOf id := SortedSet.contains_iff

theorem mem_byKey : (k, id) ∈ t.byKey ↔ t.Has k id := by
  rw [byKey, List.mem_flatMap]
  constructor
  · rintro ⟨⟨k', s⟩, hks, h⟩
    obtain ⟨i, hi, e⟩ := List.mem_map.1 h
    cases e
    rw [Has, idsOf, SortedMap.getD, SortedMap.get?_eq_some_iff.2 hks]
    exact hi
  · intro h
    refine ⟨(k, t.idsOf k), SortedMap.get?_eq_some_iff.1 (SortedMap.get?_of_mem_getD h), ?_⟩
    exact List.mem_map.2 ⟨id, h, rfl⟩

omit [Std.TransOrd κ] [Std.LawfulEqOrd κ] in
theorem mem_byId : (k, id) ∈ t.byId ↔ k ∈ t.keysOf id := by
  rw [byId, List.mem_flatMap]
  constructor
  · rintro ⟨⟨i, s⟩, his, h⟩
    obtain ⟨k', hk, e⟩ := List.mem_map.1 h
    cases e
    rw [keysOf, SortedMap.getD, SortedMap.get?_eq_some_iff.2 his]
    exact hk
  · intro h
    refine ⟨(id, t.keysOf id), SortedMap.get?_eq_some_iff.1 (SortedMap.get?_of_mem_getD h), ?_⟩
    exact List.mem_map.2 ⟨k, h, rfl⟩

omit [Std.LawfulEqOrd κ] in
theorem nodup_byKey (t : Tables κ) : t.byKey.Nodup := by
  have hne : ∀ {α : Type} [Ord α] [Std.TransOrd α] [Std.LawfulEqOrd α] (s : SortedSet α),
      s.toList.Pairwise (· ≠ ·) := fun s =>
    s.increasing.imp fun h => Sorted.ne_of_compare_lt h
  refine List.pairwise_flatMap.2 ⟨fun p _ => ?_, ?_⟩
  · exact List.pairwise_map.2 ((hne p.2).imp fun h e => h (Prod.ext_iff.1 e).2)
  · refine t.forward.increasing.imp fun {p q} hpq x hx y hy e => ?_
    obtain ⟨_, _, rfl⟩ := List.mem_map.1 hx
    obtain ⟨_, _, rfl⟩ := List.mem_map.1 hy
    exact Sorted.ne_of_compare_lt hpq (Prod.ext_iff.1 e).1

/-- **Extensionality.** Tables in step with the same tuples are equal. -/
theorem WellFormed.ext (h : t.WellFormed) (h' : t'.WellFormed)
    (e : ∀ k id, t.Has k id ↔ t'.Has k id) : t = t' := by
  have hf : t.forward = t'.forward :=
    h.forward_noEmpty.ext h'.forward_noEmpty fun k => SortedSet.ext fun id => e k id
  have hr : t.reverse = t'.reverse :=
    h.reverse_noEmpty.ext h'.reverse_noEmpty fun id => SortedSet.ext fun k =>
      (h.has_iff k id).symm.trans ((e k id).trans (h'.has_iff k id))
  have hc : t.count = t'.count := by rw [h.count_eq, h'.count_eq, byKey, byKey, hf]
  cases t
  cases t'
  cases hf
  cases hr
  cases hc
  rfl

/-! ## Changes -/

theorem WellFormed.added (h : t.WellFormed) (hk : ¬t.Has k id) :
    let t' : Tables κ := ⟨t.forward.insert k ((t.idsOf k).insert id),
      t.reverse.insert id ((t.keysOf id).insert k), t.count + 1⟩
    t'.WellFormed ∧ ∀ l i, t'.Has l i ↔ (Change.add k id).onto t.Has l i := by
  intro t'
  have hf : ∀ l i, t'.Has l i ↔ (l = k ∧ i = id) ∨ t.Has l i := by
    intro l i
    show i ∈ (t.forward.insert k _).getD l ∅ ↔ _
    by_cases e : l = k
    · subst e
      rw [SortedMap.getD_insert_self, SortedSet.mem_insert]
      exact or_congr_left ⟨fun e => ⟨rfl, e⟩, And.right⟩
    · rw [SortedMap.getD_insert_of_ne _ _ e]
      exact ⟨.inr, fun h => h.resolve_left fun h => e h.1⟩
  have hr : ∀ l i, l ∈ t'.keysOf i ↔ (l = k ∧ i = id) ∨ l ∈ t.keysOf i := by
    intro l i
    show l ∈ (t.reverse.insert id _).getD i ∅ ↔ _
    by_cases e : i = id
    · subst e
      rw [SortedMap.getD_insert_self, SortedSet.mem_insert]
      exact or_congr_left ⟨fun e => ⟨e, rfl⟩, And.left⟩
    · rw [SortedMap.getD_insert_of_ne _ _ e]
      exact ⟨.inr, fun h => h.resolve_left fun h => e h.2⟩
  have hperm : t'.byKey.Perm ((k, id) :: t.byKey) := by
    refine (List.perm_ext_iff_of_nodup (nodup_byKey t') ?_).2 fun (l, i) => ?_
    · exact List.nodup_cons.2 ⟨fun hm => hk (mem_byKey.1 hm), nodup_byKey t⟩
    · rw [mem_byKey, List.mem_cons, mem_byKey, hf, Prod.mk.injEq]
  refine ⟨⟨fun l i => ?_, ?_, ?_, ?_⟩, hf⟩
  · rw [hf, hr, h.has_iff]
  · exact h.forward_noEmpty.insert (SortedSet.mem_insert.2 (.inl rfl))
  · exact h.reverse_noEmpty.insert (SortedSet.mem_insert.2 (.inl rfl))
  · rw [hperm.length_eq, List.length_cons, ← h.count_eq]

theorem WellFormed.dropped (h : t.WellFormed) (hk : t.Has k id) :
    let t' : Tables κ := ⟨t.forward.putSet k ((t.idsOf k).erase id),
      t.reverse.putSet id ((t.keysOf id).erase k), t.count - 1⟩
    t'.WellFormed ∧ ∀ l i, t'.Has l i ↔ (Change.drop k id).onto t.Has l i := by
  intro t'
  have hf : ∀ l i, t'.Has l i ↔ t.Has l i ∧ ¬(l = k ∧ i = id) := by
    intro l i
    show i ∈ (t.forward.putSet k _).getD l ∅ ↔ _
    by_cases e : l = k
    · subst e
      rw [SortedMap.getD_putSet_self, SortedSet.mem_erase]
      exact and_congr_right fun _ => not_congr ⟨fun e => ⟨rfl, e⟩, And.right⟩
    · rw [SortedMap.getD_putSet_of_ne e]
      exact ⟨fun h => ⟨h, fun h => e h.1⟩, And.left⟩
  have hr : ∀ l i, l ∈ t'.keysOf i ↔ l ∈ t.keysOf i ∧ ¬(l = k ∧ i = id) := by
    intro l i
    show l ∈ (t.reverse.putSet id _).getD i ∅ ↔ _
    by_cases e : i = id
    · subst e
      rw [SortedMap.getD_putSet_self, SortedSet.mem_erase]
      exact and_congr_right fun _ => not_congr ⟨fun e => ⟨e, rfl⟩, And.left⟩
    · rw [SortedMap.getD_putSet_of_ne e]
      exact ⟨fun h => ⟨h, fun h => e h.2⟩, And.left⟩
  have hperm : t.byKey.Perm ((k, id) :: t'.byKey) := by
    refine (List.perm_ext_iff_of_nodup (nodup_byKey t) ?_).2 fun (l, i) => ?_
    · refine List.nodup_cons.2 ⟨fun hm => ?_, nodup_byKey t'⟩
      exact ((hf k id).1 (mem_byKey.1 hm)).2 ⟨rfl, rfl⟩
    · rw [mem_byKey, List.mem_cons, mem_byKey, hf, Prod.mk.injEq]
      by_cases e : l = k ∧ i = id
      · exact ⟨fun _ => .inl e, fun _ => e.1 ▸ e.2 ▸ hk⟩
      · exact ⟨fun h => .inr ⟨h, e⟩, fun h => (h.resolve_left e).1⟩
  refine ⟨⟨fun l i => ?_, ?_, ?_, ?_⟩, hf⟩
  · rw [hf, hr, h.has_iff]
  · exact h.forward_noEmpty.putSet
  · exact h.reverse_noEmpty.putSet
  · show t.count - 1 = _
    rw [h.count_eq, hperm.length_eq, List.length_cons, Nat.add_sub_cancel]

/-- **A change of tables in step.** It is always possible, it keeps them in step, and it says
whether it made a difference. -/
theorem WellFormed.change? (h : t.WellFormed) (c : Change κ) :
    ∃ t' changed, t.change? c = some (t', changed) ∧ t'.WellFormed ∧
      (∀ l i, t'.Has l i ↔ c.onto t.Has l i) ∧ (changed = true → c.Effective t.Has) ∧
      (changed = false → t' = t) := by
  cases c with
  | add k id =>
    have hsame : t.hasReverse k id = t.hasForward k id := by
      rw [Bool.eq_iff_iff, hasReverse_iff, hasForward_iff, h.has_iff]
    cases hk : t.hasForward k id with
    | true =>
      have hhas : t.Has k id := hasForward_iff.1 hk
      refine ⟨t, false, by rw [Tables.change?, add?, hsame, hk], h, fun l i => ?_,
        fun h => Bool.noConfusion h, fun _ => rfl⟩
      exact ⟨.inr, fun h' => h'.elim (fun e => e.1 ▸ e.2 ▸ hhas) fun h => h⟩
    | false =>
      have hhas : ¬t.Has k id := fun h' => by rw [hasForward_iff.2 h'] at hk; cases hk
      obtain ⟨hwf, hmem⟩ := h.added hhas
      exact ⟨_, true, by rw [Tables.change?, add?, hsame, hk], hwf, hmem, fun _ => hhas,
        fun h => Bool.noConfusion h⟩
  | drop k id =>
    have hsame : t.hasReverse k id = t.hasForward k id := by
      rw [Bool.eq_iff_iff, hasReverse_iff, hasForward_iff, h.has_iff]
    cases hk : t.hasForward k id with
    | true =>
      obtain ⟨hwf, hmem⟩ := h.dropped (hasForward_iff.1 hk)
      exact ⟨_, true, by rw [Tables.change?, drop?, hsame, hk], hwf, hmem,
        fun _ => hasForward_iff.1 hk, fun h => Bool.noConfusion h⟩
    | false =>
      have hhas : ¬t.Has k id := fun h' => by rw [hasForward_iff.2 h'] at hk; cases hk
      refine ⟨t, false, by rw [Tables.change?, drop?, hsame, hk], h, fun l i => ?_,
        fun h => Bool.noConfusion h, fun _ => rfl⟩
      exact ⟨fun h' => ⟨h', fun e => hhas (e.1 ▸ e.2 ▸ h')⟩, And.left⟩

theorem WellFormed.change?_inverse (h : t.WellFormed) {c : Change κ}
    (hc : t.change? c = some (t', true)) : ∃ b, t'.change? c.inverse = some (t, b) := by
  obtain ⟨_, _, hc', hwf, hmem, heff, _⟩ := h.change? c
  rw [hc] at hc'
  cases hc'
  obtain ⟨t'', b, hb, hwf', hmem', _⟩ := hwf.change? c.inverse
  have hhas : t'.Has = c.onto t.Has := funext fun l => funext fun i => propext (hmem l i)
  have heq : t'' = t := hwf'.ext h fun l i => by rw [hmem', hhas, Change.onto_inverse (heff rfl)]
  exact ⟨b, heq ▸ hb⟩

theorem changeAll?_append {cs ds : List (Change κ)} {undo : List (Change κ)}
    (h : t.changeAll? cs = some (t', undo)) :
    t.changeAll? (cs ++ ds) = (t'.changeAll? ds).map fun r => (r.1, undo ++ r.2) := by
  induction cs generalizing t undo with
  | nil =>
    cases h
    simp
  | cons c cs ih =>
    simp only [changeAll?, Option.bind_eq_bind, Option.bind_eq_some_iff, Option.pure_def,
      Option.some.injEq, Prod.mk.injEq] at h
    obtain ⟨⟨t₁, b⟩, hc, ⟨t₂, undo₂⟩, hcs, rfl, rfl⟩ := h
    simp only [List.cons_append, changeAll?, Option.bind_eq_bind, hc, Option.bind_some, ih hcs]
    cases t₂.changeAll? ds with
    | none => rfl
    | some r => cases b <;> rfl

/-- **A batch of changes of tables in step.** It is always possible, keeps them in step, has the
effects of its changes one after another, and is taken back by the inverses in reverse order. -/
theorem WellFormed.changeAll? (h : t.WellFormed) (cs : List (Change κ)) :
    ∃ t' undo, t.changeAll? cs = some (t', undo) ∧ t'.WellFormed ∧
      (∀ l i, t'.Has l i ↔ Change.allOnto cs t.Has l i) ∧
      ∃ redo, t'.changeAll? undo.reverse = some (t, redo) := by
  induction cs generalizing t with
  | nil => exact ⟨t, [], rfl, h, fun _ _ => .rfl, [], rfl⟩
  | cons c cs ih =>
    obtain ⟨t₁, b, hc, hwf₁, hmem₁, _, hfalse⟩ := h.change? c
    obtain ⟨t', undo, hcs, hwf', hmem', redo, hredo⟩ := ih hwf₁
    have hhas : t₁.Has = c.onto t.Has := funext fun l => funext fun i => propext (hmem₁ l i)
    refine ⟨t', if b then c.inverse :: undo else undo, ?_, hwf', fun l i => ?_, ?_⟩
    · simp only [Tables.changeAll?, hc, hcs, Option.bind_eq_bind, Option.bind_some, Option.pure_def]
    · rw [hmem', hhas]
      rfl
    · cases b with
      | false =>
        rw [← hfalse rfl]
        exact ⟨redo, hredo⟩
      | true =>
        obtain ⟨b', hb'⟩ := h.change?_inverse hc
        simp only [if_true, List.reverse_cons, changeAll?_append hredo, Tables.changeAll?, hb',
          Option.bind_eq_bind, Option.bind_some, Option.pure_def, Option.map_some]
        exact ⟨_, rfl⟩

end Tables

end Directory
