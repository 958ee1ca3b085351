import Directory.Proofs.Partition.Reindex

/-!
# What transactions leave

One structure for each transaction says what it leaves when it succeeds, and one theorem that it
does.

* `Partition.Entered`, `Amended`, `Removed`, `Relocated`: a new entry, other attributes, an entry
  less, a subtree elsewhere.
* `Ensures.enter`, `amend`, `remove`, `relocate`: the transactions leave this.
-/

namespace Directory

namespace Partition

/-- A new entry is stored and indexed. -/
structure Entered (p : Partition) (e : Entry) (p' : Partition) : Prop where
  sound : p'.Sound
  same : p.SameSettings p'
  master : p'.master = p.master.insert e.id e
  named : ∀ n i, p'.Named n i ↔ (i = e.id ∧ n = e.name.normalized) ∨ p.Named n i
  oneLevel : ∀ q i, p'.OneLevel q i ↔ (i = e.id ∧ e.parent = some q) ∨ p.OneLevel q i
  subLevel : ∃ above, p'.ancestors e.parent = .ok above ∧
    ∀ a i, p'.SubLevel a i ↔ (i = e.id ∧ a ∈ e.id :: above) ∨ p.SubLevel a i
  values : p.Revalued e.id e.valuesOf p'

/-- An entry has another record, with the same name and parent. -/
structure Amended (p : Partition) (id : EntryId) (e : Entry) (p' : Partition) : Prop where
  sound : p'.Sound
  same : p.SameSettings p'
  master : p'.master = p.master.insert e.id e
  named : ∀ n i, p'.Named n i ↔ p.Named n i
  oneLevel : ∀ q i, p'.OneLevel q i ↔ p.OneLevel q i
  subLevel : ∀ a i, p'.SubLevel a i ↔ p.SubLevel a i
  values : p.Revalued id e.valuesOf p'

/-- An entry is stored and indexed no more. -/
structure Removed (p : Partition) (id : EntryId) (e : Entry) (p' : Partition) : Prop where
  sound : p'.Sound
  same : p.SameSettings p'
  master : p'.master = p.master.erase id
  named : ∀ n i, p'.Named n i ↔ p.Named n i ∧ ¬(i = id ∧ n = e.name.normalized)
  oneLevel : ∀ q i, p'.OneLevel q i ↔ p.OneLevel q i ∧ ¬(i = id ∧ e.parent = some q)
  subLevel : ∀ a i, p'.SubLevel a i ↔ p.SubLevel a i ∧ i ≠ id
  values : p.Revalued id (fun _ => []) p'

/-! ### Entries after a change of one -/

section Entries

variable {p p' : Partition} {id : EntryId} {e : Entry}

theorem get?_inserted (h : p'.master = p.master.insert id e) : p'.get? id = some e := by
  rw [get?, h]
  exact SortedMap.get?_insert_self ..

theorem get?_inserted_of_ne (h : p'.master = p.master.insert id e) {i : EntryId} (hi : i ≠ id) :
    p'.get? i = p.get? i := by
  rw [get?, get?, h]
  exact SortedMap.get?_insert_of_ne _ hi

theorem get?_erased (h : p'.master = p.master.erase id) : p'.get? id = none := by
  rw [get?, h]
  exact SortedMap.get?_erase_self ..

theorem get?_erased_of_ne (h : p'.master = p.master.erase id) {i : EntryId} (hi : i ≠ id) :
    p'.get? i = p.get? i := by
  rw [get?, get?, h]
  exact SortedMap.get?_erase_of_ne hi

theorem get?_inserted_cases (h : p'.master = p.master.insert id e) {i : EntryId} {f : Entry}
    (hf : p'.get? i = some f) : (i = id ∧ f = e) ∨ (i ≠ id ∧ p.get? i = some f) := by
  by_cases hi : i = id
  · rw [hi, get?_inserted h] at hf
    exact .inl ⟨hi, (Option.some.inj hf).symm⟩
  · exact .inr ⟨hi, get?_inserted_of_ne h hi ▸ hf⟩

theorem get?_of_erased (h : p'.master = p.master.erase id) {i : EntryId} {f : Entry}
    (hf : p'.get? i = some f) : i ≠ id ∧ p.get? i = some f := by
  by_cases hi : i = id
  · rw [hi, get?_erased h] at hf
    cases hf
  · exact ⟨hi, get?_erased_of_ne h hi ▸ hf⟩

end Entries

end Partition

namespace Ensures

open Directory.Partition Transaction

variable {t : Transaction}

theorem forM_parent (hp : t.partition.Sound) (c : EntryId → Change EntryId) :
    (parent : Option EntryId) →
      Ensures (parent.forM fun q => Transaction.changeTree .oneLevel [c q]) t fun _ t' =>
        t.partition.Becomes (View.changeOneLevel (parent.toList.map c)) t'.partition
  | none => Ensures.pure.2 (.refl hp)
  | some q => changeOneLevel hp [c q]

theorem enter (hp : t.partition.Sound) {e : Entry}
    (hfree : t.partition.Carries e.id fun _ => []) (link : Option AliasLink) :
    Ensures (enter e link) t fun _ t' => t.partition.Entered e t'.partition := by
  unfold Transaction.enter Climbing.enter
  refine Ensures.bind.2 ((putEntry hp e).mono fun _ t₁ h₁ => ?_)
  refine Ensures.bind.2 ((changeEntryName h₁.sound _).mono fun _ t₂ h₂ => ?_)
  refine Ensures.bind.2 ((forM_parent h₂.sound _ _).mono fun _ t₃ h₃ => ?_)
  refine Ensures.bind.2 (Ensures.get.2 (Ensures.bind.2 (Ensures.lift.2 fun above habove => ?_)))
  refine Ensures.bind.2 ((changeSubLevel h₃.sound _).mono fun _ t₄ h₄ => ?_)
  have htree := ((h₁.trans h₂).trans h₃).trans h₄
  have hfree : t₄.partition.Carries e.id (Entry.ofName .root).valuesOf :=
    hfree.congr htree.same htree.tagged htree.present
  refine Ensures.bind.2 ((reindex h₄.sound hfree).mono fun _ t₅ ⟨hsound, hup, hvalues⟩ => ?_)
  refine (forM_link (fun t ht => addLink ht) (.refl hsound) link).mono fun _ t₆ h₆ => ?_
  have h := (htree.trans (hup.becomes hsound)).trans h₆
  have hmaster : t₆.partition.master = t₃.partition.master :=
    ((h₄.trans (hup.becomes hsound)).trans h₆).master
  refine ⟨h.sound, h.same, h.master, fun n i => ?_, fun q i => ?_,
    ⟨above, (ancestors_congr hmaster _).trans habove, fun a i => ?_⟩, ?_⟩
  · rw [h.named]
    exact Change.allOnto_add
  · rw [h.oneLevel, ← Option.mem_toList]
    exact Change.allOnto_addKeys
  · rw [h.subLevel]
    exact Change.allOnto_addKeys
  · exact hvalues.congr htree.tagged htree.present h₆.same h₆.tagged h₆.present

theorem amend (hp : t.partition.Sound) {id : EntryId} {old new : Entry}
    (hold : t.partition.Carries id old.valuesOf) (dropped added : Option AliasLink) :
    Ensures (amend id old new dropped added) t fun _ t' =>
      t.partition.Amended id new t'.partition := by
  unfold Transaction.amend Climbing.amend
  refine Ensures.bind.2 ((forM_link (fun t ht => dropLink ht) (.refl hp) dropped).mono
    fun _ t₁ h₁ => ?_)
  have hold₁ : t₁.partition.Carries id old.valuesOf := hold.congr h₁.same h₁.tagged h₁.present
  refine Ensures.bind.2 ((reindex h₁.sound hold₁).mono fun _ t₂ ⟨hsound, hup, hvalues⟩ => ?_)
  refine Ensures.bind.2 ((putEntry hsound new).mono fun _ t₃ h₃ => ?_)
  refine (forM_link (fun t ht => addLink ht) (.refl h₃.sound) added).mono fun _ t₄ h₄ => ?_
  have hafter := h₃.trans h₄
  have h := (h₁.trans (hup.becomes hsound)).trans hafter
  refine ⟨h.sound, h.same, h.master, fun n i => iff_of_eq (congrFun (congrFun h.named n) i),
    fun q i => iff_of_eq (congrFun (congrFun h.oneLevel q) i),
    fun a i => iff_of_eq (congrFun (congrFun h.subLevel a) i), ?_⟩
  exact hvalues.congr h₁.tagged h₁.present hafter.same hafter.tagged hafter.present

theorem remove (hp : t.partition.Sound) {id : EntryId} (e : Entry) (link : Option AliasLink) :
    Ensures (remove id e link) t fun _ t' => t.partition.Removed id e t'.partition := by
  unfold Transaction.remove Climbing.remove takeOut
  simp only [liftM_self]
  refine Ensures.bind.2 ((forM_link (fun t ht => dropLink ht) (.refl hp) link).mono
    fun _ t₁ h₁ => ?_)
  refine Ensures.bind.2 (Ensures.get.2 (Ensures.bind.2 ?_))
  refine (forM_dropValues h₁.sound _).mono fun _ t₂ h₂ => ?_
  refine Ensures.bind.2 (Ensures.get.2 (Ensures.bind.2 ((changePresent h₂.sound _).mono
    fun _ t₃ h₃ => ?_)))
  refine Ensures.bind.2 ((changeEntryName h₃.sound _).mono fun _ t₄ h₄ => ?_)
  refine Ensures.bind.2 ((forM_parent h₄.sound _ _).mono fun _ t₅ h₅ => ?_)
  refine Ensures.bind.2 (Ensures.get.2 (Ensures.bind.2 ((changeSubLevel h₅.sound _).mono
    fun _ t₆ h₆ => ?_)))
  refine (removeEntry h₆.sound id).mono fun _ t₇ h₇ => ?_
  have hvalues := (h₁.trans (h₂.upToValues.becomes h₂.sound)).trans h₃
  have h := (((hvalues.trans h₄).trans h₅).trans h₆).trans h₇
  have htagged : ∀ a k i, t₇.partition.Tagged a k i ↔ t.partition.Tagged a k i ∧ i ≠ id := by
    intro a k i
    have h₁t : t₁.partition.Tagged = t.partition.Tagged := h₁.tagged
    rw [h.tagged]
    refine (h₂.tagged a k i).trans ?_
    rw [mem_indexedAttributes, h₁t]
    refine and_congr_right fun hk => not_congr (and_iff_right ?_)
    exact h₁.same.indexed.2 hk.indexed
  have hpresent : ∀ a i, t₇.partition.Present a i ↔ t.partition.Present a i ∧ i ≠ id := by
    intro a i
    have h₁p : t₁.partition.Present = t.partition.Present := h₁.present
    have h₂p : t₂.partition.Present = t₁.partition.Present := by
      rw [h₂.rest]
      rfl
    rw [h.present]
    refine (Change.allOnto_dropAll fun b => ?_).trans ?_
    · exact Index.mem_keys h₂.sound.presence
    · rw [← h₁p, ← h₂p]
      rfl
  refine ⟨h.sound, h.same, h.master, fun n i => ?_, fun q i => ?_, fun a i => ?_,
    .of_dropped htagged hpresent⟩
  · rw [h.named]
    exact Change.allOnto_drop
  · rw [h.oneLevel, ← Option.mem_toList]
    exact Change.allOnto_dropKeys
  · rw [h.subLevel]
    refine (Change.allOnto_dropAll fun b => ?_).trans .rfl
    refine (Index.mem_keys (h₅.sound.tree .subLevel)).trans (iff_of_eq ?_)
    exact congrFun (congrFun ((hvalues.trans h₄).trans h₅).subLevel b) id

end Ensures

end Directory
