import Directory.Proofs.Partition.Rollback

/-!
# What steps change

The entries and indices of a partition as relations, and what each kind of step does to them when it
succeeds.

* `View`: the entries, and the relations of the indices by names, of the tree and of values;
  `View.put`, `changeNames`, `changeOneLevel`, `changeSubLevel`, `changePresent`, `setValues`: the
  effects of steps.
* `Partition.SameSettings`: two partitions agree in everything but entries and tuples.
* `Partition.Becomes`: with the same settings and indices in step, a view becomes another.
* `Ensures.changeEntryName`, `changeOneLevel`, `changeSubLevel`, `putEntry`, `removeEntry`: **each
  step has its effect on the view**; `Ensures.addLink`, `dropLink`, `relink`: steps on alias links
  have none.
-/

namespace Directory

/-! ## Relations -/

/-- What does not change with the tuples of an index. -/
def Index.head {κ : Type} [Ord κ] (x : Index κ) : String × Bool := (x.name, x.ordered)

namespace Partition

/-- The entry is indexed under the normalized name. -/
def Named (p : Partition) (n : String) (id : EntryId) : Prop := (p.system.names .entry).Has n id

/-- The entry is indexed as a child. -/
def OneLevel (p : Partition) (parent id : EntryId) : Prop := (p.system.tree .oneLevel).Has parent id

/-- The entry is indexed as the other one or below it. -/
def SubLevel (p : Partition) (above id : EntryId) : Prop := (p.system.tree .subLevel).Has above id

/-- The attribute has an index. -/
def Indexed (p : Partition) (a : AttributeId) : Prop := p.hasUserIndex a = true

/-- The entry is indexed under a normalized value of the attribute. -/
def Tagged (p : Partition) (a : AttributeId) (k : Value) (id : EntryId) : Prop :=
  ∃ x, p.userIndex? a = some x ∧ x.Has k id

/-- The entry is indexed as having the attribute. -/
def Present (p : Partition) (a : AttributeId) (id : EntryId) : Prop := p.presence.Has a id

end Partition

/-- The entries of a partition, and its indices as relations; those of aliases are left out. -/
structure View where
  master : SortedMap EntryId Entry
  named : String → EntryId → Prop
  oneLevel : EntryId → EntryId → Prop
  subLevel : EntryId → EntryId → Prop
  tagged : AttributeId → Value → EntryId → Prop
  present : AttributeId → EntryId → Prop

namespace View

def put (id : EntryId) (e : Option Entry) (v : View) : View :=
  { v with master := v.master.set id e }

def changeNames (cs : List (Change String)) (v : View) : View :=
  { v with named := Change.allOnto cs v.named }

def changeOneLevel (cs : List (Change EntryId)) (v : View) : View :=
  { v with oneLevel := Change.allOnto cs v.oneLevel }

def changeSubLevel (cs : List (Change EntryId)) (v : View) : View :=
  { v with subLevel := Change.allOnto cs v.subLevel }

def changePresent (cs : List (Change AttributeId)) (v : View) : View :=
  { v with present := Change.allOnto cs v.present }

def setValues (tagged : AttributeId → Value → EntryId → Prop)
    (present : AttributeId → EntryId → Prop) (v : View) : View :=
  { v with tagged := tagged, present := present }

end View

namespace Partition

/-- The view of a partition. -/
def view (p : Partition) : View := ⟨p.master, p.Named, p.OneLevel, p.SubLevel, p.Tagged, p.Present⟩

/-- Everything agrees but entries and tuples. -/
structure SameSettings (p p' : Partition) : Prop where
  config : p'.config = p.config
  schema : p'.schema = p.schema
  suffix : p'.suffix = p.suffix
  nextId : p'.nextId = p.nextId
  heads : ∀ a, (p'.userIndex? a).map Index.head = (p.userIndex? a).map Index.head
  presence : p'.presence.head = p.presence.head

/-- With the same settings and indices in step, the view has become what `f` makes of it. -/
structure Becomes (p : Partition) (f : View → View) (p' : Partition) : Prop where
  sound : p'.Sound
  same : p.SameSettings p'
  view : p'.view = f p.view

/-- Everything agrees but the indices of values. -/
structure UpToValues (p p' : Partition) : Prop where
  rest : p' = { p with user := p'.user, presence := p'.presence }
  heads : ∀ a, (p'.userIndex? a).map Index.head = (p.userIndex? a).map Index.head
  presence : p'.presence.head = p.presence.head

variable {p p' p'' : Partition} {a : AttributeId}

namespace SameSettings

theorem refl (p : Partition) : p.SameSettings p := ⟨rfl, rfl, rfl, rfl, fun _ => rfl, rfl⟩

theorem trans (h : p.SameSettings p') (h' : p'.SameSettings p'') : p.SameSettings p'' where
  config := h'.config.trans h.config
  schema := h'.schema.trans h.schema
  suffix := h'.suffix.trans h.suffix
  nextId := h'.nextId.trans h.nextId
  heads a := (h'.heads a).trans (h.heads a)
  presence := h'.presence.trans h.presence

theorem indexed (h : p.SameSettings p') : p'.Indexed a ↔ p.Indexed a := by
  have := congrArg Option.isSome (h.heads a)
  rw [Option.isSome_map, Option.isSome_map] at this
  rw [Indexed, Indexed, hasUserIndex, hasUserIndex, this]

end SameSettings

theorem indexed_iff : p.Indexed a ↔ ∃ x, p.userIndex? a = some x := Option.isSome_iff_exists

theorem mem_indexedAttributes : a ∈ p.indexedAttributes ↔ p.Indexed a := by
  rw [indexed_iff, indexedAttributes, SortedMap.keys, List.mem_map]
  constructor
  · rintro ⟨⟨b, x⟩, hx, rfl⟩
    exact ⟨x, SortedMap.get?_eq_some_iff.2 hx⟩
  · rintro ⟨x, hx⟩
    exact ⟨(a, x), SortedMap.get?_eq_some_iff.1 hx, rfl⟩

theorem Tagged.indexed {k : Value} {id : EntryId} (h : p.Tagged a k id) : p.Indexed a :=
  have ⟨x, hx, _⟩ := h
  indexed_iff.2 ⟨x, hx⟩

theorem tagged_iff {x : Index Value} (hx : p.userIndex? a = some x) {k : Value} {id : EntryId} :
    p.Tagged a k id ↔ x.Has k id := by
  refine ⟨fun ⟨y, hy, hk⟩ => ?_, fun hk => ⟨x, hx, hk⟩⟩
  rw [hx] at hy
  cases hy
  exact hk

namespace Becomes

variable {f g : View → View}

theorem refl (h : p.Sound) : p.Becomes id p := ⟨h, .refl p, rfl⟩

theorem trans (h : p.Becomes f p') (h' : p'.Becomes g p'') : p.Becomes (g ∘ f) p'' where
  sound := h'.sound
  same := h.same.trans h'.same
  view := by rw [h'.view, h.view, Function.comp_apply]

theorem master (h : p.Becomes f p') : p'.master = (f p.view).master := congrArg View.master h.view

theorem named (h : p.Becomes f p') : p'.Named = (f p.view).named := congrArg View.named h.view

theorem oneLevel (h : p.Becomes f p') : p'.OneLevel = (f p.view).oneLevel :=
  congrArg View.oneLevel h.view

theorem subLevel (h : p.Becomes f p') : p'.SubLevel = (f p.view).subLevel :=
  congrArg View.subLevel h.view

theorem tagged (h : p.Becomes f p') : p'.Tagged = (f p.view).tagged := congrArg View.tagged h.view

theorem present (h : p.Becomes f p') : p'.Present = (f p.view).present :=
  congrArg View.present h.view

end Becomes

namespace UpToValues

theorem refl (p : Partition) : p.UpToValues p := ⟨rfl, fun _ => rfl, rfl⟩

theorem sameSettings (h : p.UpToValues p') : p.SameSettings p' where
  config := by rw [h.rest]
  schema := by rw [h.rest]
  suffix := by rw [h.rest]
  nextId := by rw [h.rest]
  heads := h.heads
  presence := h.presence

theorem becomes (h : p.UpToValues p') (hp : p'.Sound) :
    p.Becomes (View.setValues p'.Tagged p'.Present) p' where
  sound := hp
  same := h.sameSettings
  view := by
    have hmaster : p'.master = p.master := by rw [h.rest]
    have hsystem : p'.system = p.system := by rw [h.rest]
    have hnamed : p'.Named = p.Named := by
      funext n i
      rw [Named, Named, hsystem]
    have honeLevel : p'.OneLevel = p.OneLevel := by
      funext q i
      rw [OneLevel, OneLevel, hsystem]
    have hsubLevel : p'.SubLevel = p.SubLevel := by
      funext a i
      rw [SubLevel, SubLevel, hsystem]
    rw [view, hmaster, hnamed, honeLevel, hsubLevel]
    rfl

end UpToValues

/-! ## Entries -/

section Entries

variable {id : EntryId} {e : Entry}

theorem get?_congr (h : p'.master = p.master) (id : EntryId) : p'.get? id = p.get? id := by
  rw [get?, get?, h]

theorem lookup_eq_ok : p.lookup id = .ok e ↔ p.get? id = some e := by
  unfold lookup
  cases p.get? id with
  | none => exact ⟨fun h => (nomatch h), fun h => nomatch h⟩
  | some _ => exact ⟨fun h => by cases h; rfl, fun h => by cases h; rfl⟩

theorem ancestorsWithin_congr (h : p'.master = p.master) (n : Nat) (parent : Option EntryId) :
    p'.ancestorsWithin n parent = p.ancestorsWithin n parent := by
  induction n generalizing parent with
  | zero => cases parent <;> rfl
  | succ n ih =>
    cases parent with
    | none => rfl
    | some q =>
      have hq : p'.lookup q = p.lookup q := by rw [lookup, lookup, get?_congr h]
      rw [ancestorsWithin, ancestorsWithin, hq]
      simp only [ih]

theorem ancestors_congr (h : p'.master = p.master) (parent : Option EntryId) :
    p'.ancestors parent = p.ancestors parent := by
  rw [ancestors, ancestors, ancestorsWithin_congr h, count, count, h]

end Entries

end Partition

/-! ## Single steps -/

namespace Ensures

open Directory.Partition Transaction

variable {t : Transaction} {Q : Unit → Transaction → Prop}

theorem changeNames (hp : t.partition.Sound) {i : NameIndex} {cs : List (Change String)}
    (h : ∀ x j, x.WellFormed →
      (∀ n id, x.Has n id ↔ Change.allOnto cs (t.partition.system.names i).Has n id) →
      Q () ⟨{ t.partition with system := t.partition.system.setNames i x }, j⟩) :
    Ensures (changeNames i cs) t Q := by
  unfold Transaction.changeNames record
  simp only [Ensures.bind, Ensures.get, Ensures.lift, Ensures.modify, Prod.forall]
  intro p undo hstep
  obtain ⟨⟨x, _⟩, hx, hp'⟩ := Except.bind_eq_ok.1 hstep
  cases hp'
  obtain ⟨hwf, _, _, hhas, _⟩ := Index.apply_eq_ok (hp.names i) hx
  exact h x _ hwf hhas

theorem changeTree (hp : t.partition.Sound) {k : TreeIndex} {cs : List (Change EntryId)}
    (h : ∀ x j, x.WellFormed →
      (∀ a id, x.Has a id ↔ Change.allOnto cs (t.partition.system.tree k).Has a id) →
      Q () ⟨{ t.partition with system := t.partition.system.setTree k x }, j⟩) :
    Ensures (changeTree k cs) t Q := by
  unfold Transaction.changeTree record
  simp only [Ensures.bind, Ensures.get, Ensures.lift, Ensures.modify, Prod.forall]
  intro p undo hstep
  obtain ⟨⟨x, _⟩, hx, hp'⟩ := Except.bind_eq_ok.1 hstep
  cases hp'
  obtain ⟨hwf, _, _, hhas, _⟩ := Index.apply_eq_ok (hp.tree k) hx
  exact h x _ hwf hhas

theorem changePresence (hp : t.partition.Sound) {cs : List (Change AttributeId)}
    (h : ∀ x j, x.WellFormed → x.head = t.partition.presence.head →
      (∀ a id, x.Has a id ↔ Change.allOnto cs t.partition.presence.Has a id) →
      Q () ⟨{ t.partition with presence := x }, j⟩) :
    Ensures (changePresence cs) t Q := by
  unfold Transaction.changePresence record
  simp only [Ensures.bind, Ensures.get, Ensures.lift, Ensures.modify, Prod.forall]
  intro p undo hstep
  obtain ⟨⟨x, _⟩, hx, hp'⟩ := Except.bind_eq_ok.1 hstep
  cases hp'
  obtain ⟨hwf, hname, hordered, hhas, _⟩ := Index.apply_eq_ok hp.presence hx
  exact h x _ hwf (Prod.ext hname hordered) hhas

theorem changeUser (hp : t.partition.Sound) {a : AttributeId} {cs : List (Change Value)}
    (h : ∀ x y j, t.partition.userIndex? a = some x → y.WellFormed → y.head = x.head →
      (∀ k id, y.Has k id ↔ Change.allOnto cs x.Has k id) →
      Q () ⟨{ t.partition with user := t.partition.user.insert a y }, j⟩) :
    Ensures (changeUser a cs) t Q := by
  unfold Transaction.changeUser record
  simp only [Ensures.bind, Ensures.get, Ensures.lift, Ensures.modify, Prod.forall]
  intro p undo hstep
  obtain ⟨x, hx, hstep⟩ := Except.bind_eq_ok.1 hstep
  obtain ⟨⟨y, _⟩, hy, hp'⟩ := Except.bind_eq_ok.1 hstep
  cases hp'
  have hx := userIndex_eq_ok.1 hx
  obtain ⟨hwf, hname, hordered, hhas, _⟩ := Index.apply_eq_ok (hp.user a x hx) hy
  exact h x y _ hx hwf (Prod.ext hname hordered) hhas

theorem changeEntryName (hp : t.partition.Sound) (cs : List (Change String)) :
    Ensures (Transaction.changeNames .entry cs) t fun _ t' =>
      t.partition.Becomes (View.changeNames cs) t'.partition := by
  refine changeNames hp fun x j hx hhas => ?_
  refine ⟨hp.setNames .entry hx, ⟨rfl, rfl, rfl, rfl, fun _ => rfl, rfl⟩, ?_⟩
  have : x.Has = Change.allOnto cs t.partition.Named := by
    funext n id
    exact propext (hhas n id)
  show View.mk _ x.Has _ _ _ _ = _
  rw [this]
  rfl

theorem changeOneLevel (hp : t.partition.Sound) (cs : List (Change EntryId)) :
    Ensures (Transaction.changeTree .oneLevel cs) t fun _ t' =>
      t.partition.Becomes (View.changeOneLevel cs) t'.partition := by
  refine changeTree hp fun x j hx hhas => ?_
  refine ⟨hp.setTree .oneLevel hx, ⟨rfl, rfl, rfl, rfl, fun _ => rfl, rfl⟩, ?_⟩
  have : x.Has = Change.allOnto cs t.partition.OneLevel := by
    funext a id
    exact propext (hhas a id)
  show View.mk _ _ x.Has _ _ _ = _
  rw [this]
  rfl

theorem changeSubLevel (hp : t.partition.Sound) (cs : List (Change EntryId)) :
    Ensures (Transaction.changeTree .subLevel cs) t fun _ t' =>
      t.partition.Becomes (View.changeSubLevel cs) t'.partition := by
  refine changeTree hp fun x j hx hhas => ?_
  refine ⟨hp.setTree .subLevel hx, ⟨rfl, rfl, rfl, rfl, fun _ => rfl, rfl⟩, ?_⟩
  have : x.Has = Change.allOnto cs t.partition.SubLevel := by
    funext a id
    exact propext (hhas a id)
  show View.mk _ _ _ x.Has _ _ = _
  rw [this]
  rfl

theorem changePresent (hp : t.partition.Sound) (cs : List (Change AttributeId)) :
    Ensures (Transaction.changePresence cs) t fun _ t' =>
      t.partition.Becomes (View.changePresent cs) t'.partition := by
  refine changePresence hp fun x j hx hhead hhas => ?_
  refine ⟨hp.setPresence hx, ⟨rfl, rfl, rfl, rfl, fun _ => rfl, hhead⟩, ?_⟩
  have : x.Has = Change.allOnto cs t.partition.Present := by
    funext a id
    exact propext (hhas a id)
  show View.mk _ _ _ _ _ x.Has = _
  rw [this]
  rfl

theorem putEntry (hp : t.partition.Sound) (e : Entry) :
    Ensures (putEntry e) t fun _ t' =>
      t.partition.Becomes (View.put e.id (some e)) t'.partition := by
  unfold Transaction.putEntry record
  simp only [Ensures.bind, Ensures.get, Ensures.modify]
  exact ⟨hp.setEntry .., ⟨rfl, rfl, rfl, rfl, fun _ => rfl, rfl⟩, rfl⟩

theorem removeEntry (hp : t.partition.Sound) (id : EntryId) :
    Ensures (removeEntry id) t fun _ t' =>
      t.partition.Becomes (View.put id none) t'.partition := by
  unfold Transaction.removeEntry record
  simp only [Ensures.bind, Ensures.get, Ensures.modify]
  exact ⟨hp.setEntry .., ⟨rfl, rfl, rfl, rfl, fun _ => rfl, rfl⟩, rfl⟩

theorem transact {α : Type} {steps : TransactionM α} {p : Partition} {Q : α → Partition → Prop} :
    Ensures (transact steps) p Q ↔ Ensures steps (.start p) fun a t => Q a t.partition := by
  constructor
  · intro h a t ht
    refine h a t.partition ?_
    rw [Partition.transact, ht]
    rfl
  · intro h a p' hp'
    rw [Partition.transact] at hp'
    cases hs : steps (.start p) with
    | error e t =>
      rw [hs] at hp'
      cases hp'
    | ok b t =>
      rw [hs] at hp'
      cases hp'
      exact h _ t hs

/-! ## Alias links -/

section Aliases

variable {p : Partition}

theorem changeAliasTree (ht : p.Becomes id t.partition) {k : TreeIndex}
    (hk : k = .oneAlias ∨ k = .subAlias) {cs : List (Change EntryId)} :
    Ensures (Transaction.changeTree k cs) t fun _ t' => p.Becomes id t'.partition :=
  changeTree ht.sound fun x _ hx _ => ht.trans (g := id) <| by
    rcases hk with rfl | rfl <;>
      exact ⟨ht.sound.setTree _ hx, ⟨rfl, rfl, rfl, rfl, fun _ => rfl, rfl⟩, rfl⟩

theorem changeAliasTarget (ht : p.Becomes id t.partition) {cs : List (Change String)} :
    Ensures (Transaction.changeNames .aliasTarget cs) t fun _ t' => p.Becomes id t'.partition :=
  changeNames ht.sound fun _ _ hx _ => ht.trans (g := id)
    ⟨ht.sound.setNames .aliasTarget hx, ⟨rfl, rfl, rfl, rfl, fun _ => rfl, rfl⟩, rfl⟩

theorem addLink (ht : p.Becomes id t.partition) (l : AliasLink) :
    Ensures (addLink l) t fun _ t' => p.Becomes id t'.partition := by
  unfold Transaction.addLink Climbing.addLink
  simp only [outsideAncestors_eq]
  refine Ensures.bind.2 ((changeAliasTarget ht).mono fun _ t ht => ?_)
  split
  · exact Ensures.pure.2 ht
  · refine Ensures.bind.2 (Ensures.get.2 (Ensures.bind.2 (Ensures.lift.2 fun e _ => ?_)))
    split
    · refine Ensures.bind.2 ((changeAliasTree ht (.inl rfl)).mono fun _ t ht => ?_)
      refine Ensures.bind.2 (Ensures.get.2 (Ensures.bind.2 (Ensures.lift.2 fun above _ => ?_)))
      exact changeAliasTree ht (.inr rfl)
    · refine Ensures.bind.2 (Ensures.get.2 (Ensures.bind.2 (Ensures.lift.2 fun above _ => ?_)))
      exact changeAliasTree ht (.inr rfl)

theorem dropLink (ht : p.Becomes id t.partition) (l : AliasLink) :
    Ensures (dropLink l) t fun _ t' => p.Becomes id t'.partition := by
  unfold Transaction.dropLink Climbing.dropLink
  refine Ensures.bind.2 (Ensures.get.2 (Ensures.bind.2 (Ensures.lift.2 fun others _ => ?_)))
  dsimp only
  split
  · exact changeAliasTarget ht
  · have hrest : ∀ (t : Transaction) (above : List EntryId), p.Becomes id t.partition →
        Ensures (do
          Transaction.changeTree .subAlias (above.map (.drop · l.target))
          Transaction.changeNames .aliasTarget [.drop l.targetNormalized l.source]) t
          fun _ t' => p.Becomes id t'.partition := fun t above ht =>
      Ensures.bind.2 ((changeAliasTree ht (.inr rfl)).mono fun _ t ht => changeAliasTarget ht)
    split
    · refine Ensures.bind.2 ((changeAliasTree ht (.inl rfl)).mono fun _ t ht => ?_)
      exact Ensures.bind.2 (Ensures.get.2 (Ensures.bind.2 (Ensures.lift.2 fun _ _ => hrest _ _ ht)))
    · exact Ensures.bind.2 (Ensures.get.2 (Ensures.bind.2 (Ensures.lift.2 fun _ _ => hrest _ _ ht)))

theorem relink (ht : p.Becomes id t.partition) (l : AliasLink) :
    Ensures (relink l) t fun _ t' => p.Becomes id t'.partition := by
  unfold Transaction.relink Climbing.relink
  simp only [Ensures.bind, Ensures.get, Ensures.lift]
  exact fun _ _ l' _ => addLink ht l'

theorem forM_link {f : AliasLink → TransactionM Unit}
    (hf : ∀ t, p.Becomes id t.partition → ∀ l,
      Ensures (f l) t fun _ t' => p.Becomes id t'.partition)
    (ht : p.Becomes id t.partition) :
    (link : Option AliasLink) → Ensures (link.forM f) t fun _ t' => p.Becomes id t'.partition
  | none => Ensures.pure.2 ht
  | some l => hf t ht l

end Aliases

end Ensures

end Directory
