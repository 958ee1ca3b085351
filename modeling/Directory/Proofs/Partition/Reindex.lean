import Directory.Proofs.Partition.Effects

/-!
# Indices of values

* `Partition.Carries`: the indices of values hold for an entry number exactly the normal forms of
  given values.
* `Partition.Revalued`: they hold given values for one number, and for all others what they held.
* `Ensures.reindex`: **bringing the indices from one record of an entry to another**;
  `Ensures.dropValues`: dropping a number from the index of an attribute.
-/

namespace Directory

/-! ## What the indices hold -/

namespace Partition

/-- The normal form of some value of the attribute. -/
def IsForm (p : Partition) (a : AttributeId) (values : List Value) (k : Value) : Prop :=
  ∃ v ∈ values, p.schema.normalize a v = .ok k

/-- The index of an attribute holds exactly the normal forms of the values for the number. -/
def CarriesTags (p : Partition) (id : EntryId) (a : AttributeId) (values : List Value) : Prop :=
  ∀ k, p.Tagged a k id ↔ p.Indexed a ∧ p.IsForm a values k

/-- The indices of values hold for the number exactly the values. -/
structure Carries (p : Partition) (id : EntryId) (values : AttributeId → List Value) : Prop where
  tags : ∀ a, p.CarriesTags id a (values a)
  present : ∀ a, p.Present a id ↔ p.Indexed a ∧ values a ≠ []

/-- For another number the indices of values hold what they held. -/
def KeepsTuples (p p' : Partition) (i : EntryId) : Prop :=
  ∀ a, (∀ k, p'.Tagged a k i ↔ p.Tagged a k i) ∧ (p'.Present a i ↔ p.Present a i)

/-- The indices of values hold the values for the number, and what they held for all others. -/
structure Revalued (p : Partition) (id : EntryId) (values : AttributeId → List Value)
    (p' : Partition) : Prop where
  carries : p'.Carries id values
  others : ∀ i, i ≠ id → p.KeepsTuples p' i

variable {p p' : Partition} {id : EntryId} {a : AttributeId}

theorem mem_normalizeAll {values : List Value} {s : SortedSet Value}
    (h : p.normalizeAll a values = .ok s) {k : Value} : k ∈ s ↔ p.IsForm a values k := by
  obtain ⟨ks, hks, hs⟩ := Except.bind_eq_ok.1 h
  cases hs
  rw [SortedSet.mem_ofList, Except.mem_of_mapM_eq_ok hks]
  rfl

theorem isEmpty_normalizeAll {values : List Value} {s : SortedSet Value}
    (h : p.normalizeAll a values = .ok s) : s.isEmpty = values.isEmpty := by
  have hs : s.isEmpty = true ↔ ∀ k, k ∉ s := by
    rw [SortedSet.isEmpty, List.isEmpty_iff, List.eq_nil_iff_forall_not_mem]
    rfl
  rw [Bool.eq_iff_iff, hs]
  cases values with
  | nil =>
    refine ⟨fun _ => rfl, fun _ k hk => ?_⟩
    obtain ⟨_, hv, _⟩ := (mem_normalizeAll h).1 hk
    cases hv
  | cons v vs =>
    obtain ⟨ks, hks, _⟩ := Except.bind_eq_ok.1 h
    obtain ⟨k, hk⟩ := Except.exists_mapM_eq_ok.1 ⟨ks, hks⟩ v (.head _)
    refine ⟨fun hs => absurd ((mem_normalizeAll h).2 ⟨v, .head _, hk⟩) (hs k), fun h => ?_⟩
    cases h

theorem Carries.congr {values : AttributeId → List Value} (h : p.Carries id values)
    (hsame : p.SameSettings p') (htagged : p'.Tagged = p.Tagged)
    (hpresent : p'.Present = p.Present) :
    p'.Carries id values where
  tags a k := by rw [htagged, h.tags a k, hsame.indexed, IsForm, IsForm, hsame.schema]
  present a := by rw [hpresent, h.present a, hsame.indexed]

theorem KeepsTuples.carries {values : AttributeId → List Value} (h : p.KeepsTuples p' id)
    (hsame : p.SameSettings p') (hcarries : p.Carries id values) : p'.Carries id values where
  tags a k := by rw [(h a).1 k, hcarries.tags a k, hsame.indexed, IsForm, IsForm, hsame.schema]
  present a := by rw [(h a).2, hcarries.present a, hsame.indexed]

theorem Revalued.refl {values : AttributeId → List Value} (h : p.Carries id values) :
    p.Revalued id values p := ⟨h, fun _ _ _ => ⟨fun _ => .rfl, .rfl⟩⟩

theorem Revalued.congr {q q' : Partition} {values : AttributeId → List Value}
    (h : q.Revalued id values q') (htagged : q.Tagged = p.Tagged) (hpresent : q.Present = p.Present)
    (hsame : q'.SameSettings p') (htagged' : p'.Tagged = q'.Tagged)
    (hpresent' : p'.Present = q'.Present) : p.Revalued id values p' where
  carries := h.carries.congr hsame htagged' hpresent'
  others i hi a := by
    rw [htagged', hpresent', ← htagged, ← hpresent]
    exact h.others i hi a

theorem Revalued.of_dropped (htagged : ∀ a k i, p'.Tagged a k i ↔ p.Tagged a k i ∧ i ≠ id)
    (hpresent : ∀ a i, p'.Present a i ↔ p.Present a i ∧ i ≠ id) :
    p.Revalued id (fun _ => []) p' := by
  refine ⟨⟨fun a k => ?_, fun a => ?_⟩, fun i hi a => ⟨fun k => ?_, ?_⟩⟩
  · rw [htagged]
    exact ⟨fun hk => absurd rfl hk.2, fun hk => (by obtain ⟨_, _, hv, _⟩ := hk; cases hv)⟩
  · rw [hpresent]
    exact ⟨fun hk => absurd rfl hk.2, fun hk => absurd rfl hk.2⟩
  · rw [htagged]
    exact and_iff_left hi
  · rw [hpresent]
    exact and_iff_left hi

theorem isForm_congr (h : p'.schema = p.schema) {values : List Value} {k : Value} :
    p'.IsForm a values k ↔ p.IsForm a values k := by rw [IsForm, IsForm, h]

end Partition

/-! ## Changes -/

namespace Transaction

theorem allOnto_changesBetween {κ : Type} [Ord κ] [Std.TransOrd κ] [Std.LawfulEqOrd κ]
    {before after : SortedSet κ} {id : EntryId} {r : κ → EntryId → Prop} {l : κ} {i : EntryId}
    (h : r l id ↔ l ∈ before) :
    Change.allOnto (changesBetween before after id) r l i ↔
      if i = id then l ∈ after else r l i := by
  unfold changesBetween
  rw [Change.allOnto_keys]
  simp only [SortedSet.mem_toList, SortedSet.mem_diff]
  split
  · rename_i e
    subst e
    rw [h]
    by_cases hb : l ∈ before <;> by_cases ha : l ∈ after <;> simp [ha, hb]
  · rename_i e
    simp only [e, false_and, not_false_eq_true, and_true, false_or]

theorem mem_presenceChange {p : Partition} {a b : AttributeId} {id i : EntryId}
    {old new : List Value} {before after : SortedSet Value}
    (hbefore : p.normalizeAll a old = .ok before) (hafter : p.normalizeAll a new = .ok after) :
    (.add b i ∈ presenceChange before after a id ↔ (b = a ∧ i = id) ∧ old = [] ∧ new ≠ []) ∧
      (.drop b i ∈ presenceChange before after a id ↔ (b = a ∧ i = id) ∧ old ≠ [] ∧ new = []) := by
  unfold presenceChange
  rw [Partition.isEmpty_normalizeAll hbefore, Partition.isEmpty_normalizeAll hafter]
  cases old <;> cases new <;> simp

end Transaction

/-! ## Reindexing -/

theorem Entry.valuesOf_eq_nil {e : Entry} {a : AttributeId} (h : a ∉ e.attributes.keys) :
    e.valuesOf a = [] := by
  cases hv : e.attributes.get? a with
  | none => rw [valuesOf, SortedMap.getD, hv, Option.getD_none]
  | some vs => exact absurd (List.mem_map.2 ⟨_, SortedMap.get?_eq_some_iff.1 hv, rfl⟩) h

namespace Partition

/-- What bringing the indices of attributes from one record of an entry to another leaves, with the
changes of presence that are still to come. -/
structure Reindexing (p : Partition) (id : EntryId) (old new : Entry) (as : List AttributeId)
    (changes : List (Change AttributeId)) (p' : Partition) : Prop where
  sound : p'.Sound
  rest : p' = { p with user := p'.user }
  heads : ∀ a, (p'.userIndex? a).map Index.head = (p.userIndex? a).map Index.head
  tags : ∀ a ∈ as, p'.CarriesTags id a (new.valuesOf a)
  others : ∀ a k i, ¬(a ∈ as ∧ i = id) → (p'.Tagged a k i ↔ p.Tagged a k i)
  adds : ∀ a i, .add a i ∈ changes ↔
    (a ∈ as ∧ i = id) ∧ p.Indexed a ∧ old.valuesOf a = [] ∧ new.valuesOf a ≠ []
  drops : ∀ a i, .drop a i ∈ changes ↔
    (a ∈ as ∧ i = id) ∧ p.Indexed a ∧ old.valuesOf a ≠ [] ∧ new.valuesOf a = []

namespace Reindexing

variable {p p' p'' : Partition} {id : EntryId} {old new : Entry} {as bs : List AttributeId}
  {cs ds : List (Change AttributeId)}

theorem upToValues (h : p.Reindexing id old new as cs p') : p.UpToValues p' where
  rest := by
    rw [h.rest]
  heads := h.heads
  presence := by rw [h.rest]

theorem unindexed (hp : p.Sound) {a : AttributeId} (ha : ¬p.Indexed a) :
    p.Reindexing id old new [a] [] p := by
  have hone : ∀ b, b ∈ [a] → ¬p.Indexed b := fun b hb => (List.mem_singleton.1 hb).symm ▸ ha
  exact {
    sound := hp
    rest := rfl
    heads _ := rfl
    tags b hb k := ⟨fun h => absurd h.indexed (hone b hb), fun h => absurd h.1 (hone b hb)⟩
    others _ _ _ _ := .rfl
    adds b i := iff_of_false List.not_mem_nil fun h => hone b h.1.1 h.2.1
    drops b i := iff_of_false List.not_mem_nil fun h => hone b h.1.1 h.2.1 }

theorem nil (hp : p.Sound) : p.Reindexing id old new [] [] p where
  sound := hp
  rest := rfl
  heads _ := rfl
  tags _ h := nomatch h
  others _ _ _ _ := .rfl
  adds _ _ := ⟨fun h => (nomatch h), fun ⟨⟨h, _⟩, _⟩ => nomatch h⟩
  drops _ _ := ⟨fun h => (nomatch h), fun ⟨⟨h, _⟩, _⟩ => nomatch h⟩

theorem trans (h : p.Reindexing id old new as cs p') (h' : p'.Reindexing id old new bs ds p'')
    (hdisjoint : ∀ a ∈ as, a ∉ bs) : p.Reindexing id old new (as ++ bs) (cs ++ ds) p'' where
  sound := h'.sound
  rest := by rw [h'.rest, h.rest]
  heads a := (h'.heads a).trans (h.heads a)
  tags a ha := by
    rcases List.mem_append.1 ha with ha | ha
    · intro k
      rw [h'.others a k id fun hb => hdisjoint a ha hb.1, h.tags a ha k,
        h'.upToValues.sameSettings.indexed, isForm_congr h'.upToValues.sameSettings.schema]
    · exact h'.tags a ha
  others a k i hi := by
    rw [h'.others a k i fun hb => hi ⟨List.mem_append_right _ hb.1, hb.2⟩,
      h.others a k i fun ha => hi ⟨List.mem_append_left _ ha.1, ha.2⟩]
  adds a i := by
    rw [List.mem_append, h.adds, h'.adds, h.upToValues.sameSettings.indexed, List.mem_append,
      ← or_and_right, ← or_and_right]
  drops a i := by
    rw [List.mem_append, h.drops, h'.drops, h.upToValues.sameSettings.indexed, List.mem_append,
      ← or_and_right, ← or_and_right]

theorem allOnto_presence (h : p.Reindexing id old new as cs p') (hold : p.Carries id old.valuesOf)
    (habsent : ∀ a, a ∉ as → old.valuesOf a = [] ∧ new.valuesOf a = []) (a : AttributeId)
    (i : EntryId) : Change.allOnto cs p'.presence.Has a i ↔
      if i = id then p.Indexed a ∧ new.valuesOf a ≠ [] else p.Present a i := by
  have hboth : .add a i ∈ cs → .drop a i ∉ cs := fun hadd hdrop =>
    ((h.drops a i).1 hdrop).2.2.1 ((h.adds a i).1 hadd).2.2.1
  have hthere : p'.presence.Has a id ↔ p.Indexed a ∧ old.valuesOf a ≠ [] := by
    rw [h.rest]
    exact hold.present a
  rw [Change.allOnto_iff hboth, h.adds, h.drops]
  split
  · rename_i e
    subst e
    rw [hthere]
    by_cases ha : a ∈ as
    · by_cases hx : p.Indexed a <;> by_cases ho : old.valuesOf a = [] <;>
        by_cases hn : new.valuesOf a = [] <;> simp [ha, hx, ho, hn]
    · obtain ⟨ho, hn⟩ := habsent a ha
      simp [ho, hn]
  · rename_i e
    simp only [e, and_false, false_and, not_false_eq_true, and_true, false_or]
    rw [h.rest]
    rfl

/-- The new index of present attributes completes the reindexing. An attribute that neither record
has is as it was, which is as the new record has it. -/
theorem completed (h : p.Reindexing id old new as cs p') (hold : p.Carries id old.valuesOf)
    (habsent : ∀ a, a ∉ as → old.valuesOf a = [] ∧ new.valuesOf a = [])
    {x : Index AttributeId} (hx : x.WellFormed) (hhead : x.head = p'.presence.head)
    (hhas : ∀ a i, x.Has a i ↔ Change.allOnto cs p'.presence.Has a i) :
    Sound { p' with presence := x } ∧ p.UpToValues { p' with presence := x } ∧
      p.Revalued id new.valuesOf { p' with presence := x } := by
  have hup : p.UpToValues { p' with presence := x } := by
    refine ⟨?_, h.heads, hhead.trans h.upToValues.presence⟩
    show { p' with presence := x } = _
    rw [h.rest]
  have hsame := h.upToValues.sameSettings
  have hpresent := h.allOnto_presence hold habsent
  refine ⟨h.sound.setPresence hx, hup, ⟨fun a k => ?_, fun a => ?_⟩,
    fun i hi a => ⟨fun k => ?_, ?_⟩⟩
  · show p'.Tagged a k id ↔ p'.Indexed a ∧ p'.IsForm a (new.valuesOf a) k
    by_cases ha : a ∈ as
    · exact h.tags a ha k
    · obtain ⟨hold', hnew'⟩ := habsent a ha
      rw [h.others a k id fun e => ha e.1, hold.tags a k, hold', hnew', hsame.indexed,
        isForm_congr hsame.schema]
  · refine (hhas a id).trans ((hpresent a id).trans ?_)
    rw [if_pos rfl, hup.sameSettings.indexed]
  · exact h.others a k i fun e => hi e.2
  · refine (hhas a i).trans ((hpresent a i).trans ?_)
    rw [if_neg hi]

end Reindexing

/-- What dropping a number from the indices of attributes leaves. -/
structure Dropped (p : Partition) (id : EntryId) (as : List AttributeId) (p' : Partition) :
    Prop where
  sound : p'.Sound
  rest : p' = { p with user := p'.user }
  heads : ∀ a, (p'.userIndex? a).map Index.head = (p.userIndex? a).map Index.head
  tagged : ∀ a k i, p'.Tagged a k i ↔ p.Tagged a k i ∧ ¬(a ∈ as ∧ i = id)

theorem Dropped.upToValues {p p' : Partition} {id : EntryId} {as : List AttributeId}
    (h : p.Dropped id as p') : p.UpToValues p' where
  rest := by
    rw [h.rest]
  heads := h.heads
  presence := by rw [h.rest]

end Partition

namespace Ensures

open Directory.Partition Transaction

variable {t : Transaction} {id : EntryId} {old new : Entry} {a : AttributeId}

theorem updateUser (hp : t.partition.Sound) (ha : t.partition.Indexed a)
    {cs : List (Change Value)} {Q : Unit → Transaction → Prop}
    (h : ∀ u j, let p' : Partition := { t.partition with user := u }
      p'.Sound →
      (∀ b, (p'.userIndex? b).map Index.head = (t.partition.userIndex? b).map Index.head) →
      (∀ k i, p'.Tagged a k i ↔ Change.allOnto cs (t.partition.Tagged a) k i) →
      (∀ b k i, b ≠ a → (p'.Tagged b k i ↔ t.partition.Tagged b k i)) → Q () ⟨p', j⟩) :
    Ensures (updateUser a cs) t Q := by
  unfold Transaction.updateUser
  split
  · refine changeUser hp fun x y j hx hy hhead hhas => ?_
    have hself : (t.partition.user.insert a y).get? a = some y := SortedMap.get?_insert_self ..
    have hother : ∀ b, b ≠ a → (t.partition.user.insert a y).get? b = t.partition.user.get? b :=
      fun b hb => SortedMap.get?_insert_of_ne y hb
    have htagged : t.partition.Tagged a = x.Has := by
      funext k i
      exact propext (tagged_iff hx)
    refine h _ j (hp.insertUser a hy) (fun b => ?_) (fun k i => ?_) fun b k i hb => ?_
    · by_cases hb : b = a
      · subst hb
        show ((t.partition.user.insert b y).get? b).map _ = _
        rw [hself, hx, Option.map_some, Option.map_some, hhead]
      · exact congrArg _ (hother b hb)
    · rw [htagged, ← hhas]
      exact tagged_iff (p := { t.partition with user := t.partition.user.insert a y }) hself
    · show (∃ z, (t.partition.user.insert a y).get? b = some z ∧ _) ↔ _
      rw [hother b hb]
      rfl
  · rename_i hcs
    have hcs : cs = [] := by simpa using hcs
    subst hcs
    exact Ensures.pure.2 (h _ _ hp (fun _ => rfl) (fun _ _ => .rfl) fun _ _ _ _ => .rfl)

theorem reindexAttribute (hp : t.partition.Sound)
    (hold : t.partition.CarriesTags id a (old.valuesOf a)) :
    Ensures (reindexAttribute id old new a) t fun cs t' =>
      t.partition.Reindexing id old new [a] cs t'.partition := by
  unfold Transaction.reindexAttribute
  refine Ensures.bind.2 (Ensures.get.2 ?_)
  dsimp only
  split
  · rename_i ha
    have ha : ¬t.partition.Indexed a := by simpa [Indexed] using ha
    exact Ensures.pure.2 (.unindexed hp ha)
  · rename_i ha
    have ha : t.partition.Indexed a := by simpa [Indexed] using ha
    refine Ensures.bind.2 (Ensures.lift.2 fun before hbefore => ?_)
    refine Ensures.bind.2 (Ensures.lift.2 fun after hafter => ?_)
    refine Ensures.bind.2 (updateUser hp ha fun u j hsound hheads htagged hothers => ?_)
    have hheld : ∀ k, t.partition.Tagged a k id ↔ k ∈ before := fun k => by
      rw [hold k, mem_normalizeAll hbefore]
      exact and_iff_right ha
    refine Ensures.pure.2 ⟨hsound, rfl, hheads, ?_, ?_, ?_, ?_⟩
    · intro b hb k
      obtain rfl := List.mem_singleton.1 hb
      rw [htagged, allOnto_changesBetween (hheld k), if_pos rfl, mem_normalizeAll hafter]
      have hsame : t.partition.SameSettings { t.partition with user := u } :=
        ⟨rfl, rfl, rfl, rfl, hheads, rfl⟩
      exact (and_iff_right (hsame.indexed.2 ha)).symm
    · intro b k i hb
      by_cases hba : b = a
      · subst hba
        have hi : i ≠ id := fun e => hb ⟨.head _, e⟩
        rw [htagged, allOnto_changesBetween (hheld k), if_neg hi]
      · exact hothers b k i hba
    · intro b i
      rw [(mem_presenceChange hbefore hafter).1, List.mem_singleton]
      refine and_congr_right fun h => ?_
      rw [h.1]
      exact (and_iff_right ha).symm
    · intro b i
      rw [(mem_presenceChange hbefore hafter).2, List.mem_singleton]
      refine and_congr_right fun h => ?_
      rw [h.1]
      exact (and_iff_right ha).symm

theorem mapM_reindexAttribute (hp : t.partition.Sound) {as : List AttributeId} (has : as.Nodup)
    (hold : ∀ a ∈ as, t.partition.CarriesTags id a (old.valuesOf a)) :
    Ensures (as.mapM (Transaction.reindexAttribute id old new)) t fun cs t' =>
      t.partition.Reindexing id old new as cs.flatten t'.partition := by
  induction as generalizing t with
  | nil =>
    rw [List.mapM_nil]
    exact Ensures.pure.2 (.nil hp)
  | cons a as ih =>
    obtain ⟨ha, has⟩ := List.nodup_cons.1 has
    rw [List.mapM_cons]
    refine Ensures.bind.2 ((reindexAttribute hp (hold a (.head _))).mono fun cs t' h => ?_)
    have hold' : ∀ b ∈ as, t'.partition.CarriesTags id b (old.valuesOf b) := by
      intro b hb k
      have hba : ¬(b ∈ [a] ∧ id = id) := fun e => ha (List.mem_singleton.1 e.1 ▸ hb)
      rw [h.others b k id hba, hold b (.tail _ hb) k, h.upToValues.sameSettings.indexed,
        isForm_congr h.upToValues.sameSettings.schema]
    refine Ensures.bind.2 ((ih h.sound has hold').mono fun ds t'' h' => Ensures.pure.2 ?_)
    refine h.trans h' fun b hb hb' => ha ?_
    exact List.mem_singleton.1 hb ▸ hb'

/-- **Bringing the indices of values from one record of an entry to another.** -/
theorem reindex (hp : t.partition.Sound) (hold : t.partition.Carries id old.valuesOf) :
    Ensures (reindex id old new) t fun _ t' => t'.partition.Sound ∧
      t.partition.UpToValues t'.partition ∧
      t.partition.Revalued id new.valuesOf t'.partition := by
  unfold Transaction.reindex
  let as := SortedSet.ofList (old.attributes.keys ++ new.attributes.keys)
  have has : as.toList.Nodup := as.increasing.imp fun h => Sorted.ne_of_compare_lt h
  have habsent : ∀ a, a ∉ as.toList → old.valuesOf a = [] ∧ new.valuesOf a = [] := by
    intro a ha
    rw [SortedSet.mem_toList, SortedSet.mem_ofList, List.mem_append, not_or] at ha
    exact ⟨Entry.valuesOf_eq_nil ha.1, Entry.valuesOf_eq_nil ha.2⟩
  refine Ensures.bind.2 ((mapM_reindexAttribute hp has fun a _ => hold.tags a).mono
    fun cs t' h => ?_)
  split
  · exact changePresence h.sound fun x j hx hhead hhas => h.completed hold habsent hx hhead hhas
  · rename_i hcs
    have hcs : cs.flatten = [] := by simpa using hcs
    exact Ensures.pure.2 (h.completed hold habsent h.sound.presence rfl fun _ _ => by
      rw [hcs, Change.allOnto_nil])

theorem dropValues (hp : t.partition.Sound) :
    Ensures (dropValues id a) t fun _ t' => t.partition.Dropped id [a] t'.partition := by
  unfold Transaction.dropValues
  refine Ensures.bind.2 (Ensures.get.2 (Ensures.bind.2 (Ensures.lift.2 fun x hx => ?_)))
  have hx := userIndex_eq_ok.1 hx
  have hdrops : (x.keys id).map (Change.drop · id) =
      ((x.keys id).map (·, id)).map fun y => .drop y.1 y.2 := by
    rw [List.map_map]
    rfl
  refine updateUser hp (indexed_iff.2 ⟨x, hx⟩) fun u j hsound hheads htagged hothers => ?_
  refine ⟨hsound, rfl, hheads, fun b k i => ?_⟩
  by_cases hb : b = a
  · subst hb
    have hkeys : t.partition.Tagged b k id → k ∈ x.keys id := fun hk =>
      (Index.mem_keys (hp.user b x hx)).2 ((tagged_iff hx).1 hk)
    rw [htagged, hdrops, Change.allOnto_drops, List.mem_map]
    refine and_congr_right fun hk => not_congr ⟨fun ⟨l, _, e⟩ => ?_, fun ⟨_, e⟩ => ?_⟩
    · cases e
      exact ⟨.head _, rfl⟩
    · subst e
      exact ⟨k, hkeys hk, rfl⟩
  · rw [hothers b k i hb]
    exact (and_iff_left fun h => hb (List.mem_singleton.1 h.1)).symm

theorem forM_dropValues (hp : t.partition.Sound) (as : List AttributeId) :
    Ensures (as.forM (Transaction.dropValues id)) t fun _ t' =>
      t.partition.Dropped id as t'.partition := by
  induction as generalizing t with
  | nil =>
    refine Ensures.pure.2 ⟨hp, rfl, fun _ => rfl, fun a k i => (and_iff_left ?_).symm⟩
    exact fun h => nomatch h.1
  | cons a as ih =>
    refine Ensures.bind.2 ((dropValues hp).mono fun _ t' h => (ih h.sound).mono fun _ t'' h' => ?_)
    refine ⟨h'.sound, by rw [h'.rest, h.rest], fun b => (h'.heads b).trans (h.heads b), ?_⟩
    intro b k i
    rw [h'.tagged, h.tagged, List.mem_singleton, List.mem_cons, or_and_right, not_or, and_assoc]

end Ensures

end Directory
