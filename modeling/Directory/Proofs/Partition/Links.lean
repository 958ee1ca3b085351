import Directory.Proofs.Partition.Tree

/-!
# What steps make of the indices of aliases

* `Links`: the indices of aliases as relations; `Links.add`, `Links.drop`: with a link entered, and
  with one taken out.
* `Partition.otherAliases_any_parent`, `otherAliases_any_below`: the questions that decide whether
  another alias still needs a tuple.
* `Ensures.addLink_links`, `dropLink_links`: the steps on links have these effects.
* `Transaction.RetainsAliases`: steps that leave the indices of aliases alone.
-/

namespace Directory

open Relation

/-! ## Relations -/

namespace Partition

/-- The entry is indexed as an alias of the normalized name. -/
def AliasOf (p : Partition) (n : String) (id : EntryId) : Prop :=
  (p.system.names .aliasTarget).Has n id

/-- The entry is indexed as the target of a child of the other one. -/
def OneAlias (p : Partition) (parent target : EntryId) : Prop :=
  (p.system.tree .oneAlias).Has parent target

/-- The entry is indexed as the target of an alias below the other one. -/
def SubAlias (p : Partition) (above target : EntryId) : Prop :=
  (p.system.tree .subAlias).Has above target

end Partition

/-- The indices of aliases as relations. -/
structure Links where
  aliasOf : String → EntryId → Prop
  one : EntryId → EntryId → Prop
  sub : EntryId → EntryId → Prop

namespace Partition

/-- The indices of aliases of a partition. -/
def links (p : Partition) : Links := ⟨p.AliasOf, p.OneAlias, p.SubAlias⟩

theorem above_congr {p p' : Partition} (hmaster : p'.master = p.master) : p'.Above = p.Above := by
  unfold Above
  rw [hasParent_congr hmaster]

/-- The link brings its target among the children of `q`, where it is not one by its name. -/
def BringsOne (p : Partition) (l : AliasLink) (q : EntryId) : Prop :=
  l.parent = some q ∧ ∃ e, p.get? q = some e ∧
    l.targetName.parent?.map Dn.normalized ≠ some e.name.normalized

/-- The link brings its target below `x`, where it is not by its name. -/
def BringsSub (p : Partition) (l : AliasLink) (x : EntryId) : Prop :=
  (∃ q, l.parent = some q ∧ p.Above x q) ∧
    ∃ e, p.get? x = some e ∧ l.targetName.isBelow e.name = false

end Partition

namespace Links

/-- Another alias of the same target. -/
def Other (v : Links) (l : AliasLink) (a : EntryId) : Prop :=
  v.aliasOf l.targetNormalized a ∧ a ≠ l.source

/-- With a link entered. -/
def add (p : Partition) (v : Links) (l : AliasLink) : Links where
  aliasOf n a := (a = l.source ∧ n = l.targetNormalized) ∨ v.aliasOf n a
  one q t := (t = l.target ∧ p.BringsOne l q) ∨ v.one q t
  sub x t := (t = l.target ∧ p.BringsSub l x) ∨ v.sub x t

/-- With a link taken out, except for the tuples that other aliases of the target need. -/
def drop (p : Partition) (v : Links) (l : AliasLink) : Links where
  aliasOf n a := v.aliasOf n a ∧ ¬(a = l.source ∧ n = l.targetNormalized)
  one q t := v.one q t ∧
    ¬((t = l.target ∧ l.parent = some q) ∧ ∀ a, v.Other l a → ¬p.HasParent a q)
  sub x t := v.sub x t ∧
    ¬((t = l.target ∧ ∃ q, l.parent = some q ∧ p.Above x q) ∧ ∀ a, v.Other l a → ¬p.SubLevel x a)

theorem ext' {v w : Links} (haliasOf : ∀ n a, v.aliasOf n a ↔ w.aliasOf n a)
    (hone : ∀ q t, v.one q t ↔ w.one q t) (hsub : ∀ x t, v.sub x t ↔ w.sub x t) : v = w := by
  obtain ⟨a, o, s⟩ := v
  obtain ⟨a', o', s'⟩ := w
  obtain rfl : a = a' := funext₂ fun n i => propext (haliasOf n i)
  obtain rfl : o = o' := funext₂ fun q t => propext (hone q t)
  obtain rfl : s = s' := funext₂ fun x t => propext (hsub x t)
  rfl

variable {p p' : Partition}

theorem add_congr (hmaster : p'.master = p.master) : add p' = add p := by
  funext v l
  have hget := Partition.get?_congr hmaster
  refine ext' (fun _ _ => .rfl) (fun q t => ?_) fun x t => ?_
  · simp only [add, Partition.BringsOne, hget]
  · simp only [add, Partition.BringsSub, Partition.above_congr hmaster, hget]

theorem drop_congr (hmaster : p'.master = p.master) (hsub : p'.SubLevel = p.SubLevel) :
    drop p' = drop p := by
  funext v l
  refine ext' (fun _ _ => .rfl) (fun q t => ?_) fun x t => ?_
  · simp only [drop, Partition.hasParent_congr hmaster]
  · simp only [drop, Partition.above_congr hmaster, hsub]

end Links

/-! ## Steps on links -/

namespace Partition

/-- Nothing changes but the indices of aliases, which become `v`. -/
structure LinksBecome (p : Partition) (v : Links) (p' : Partition) : Prop where
  rest : p.Becomes id p'
  links : p'.links = v

variable {p p' p'' : Partition}

theorem LinksBecome.trans {v w : Links} (h : p.LinksBecome v p') (h' : p'.LinksBecome w p'') :
    p.LinksBecome w p'' := ⟨h.rest.trans h'.rest, h'.links⟩

theorem outsideAncestors_eq_ok {q : EntryId} {name : Dn} {as : List EntryId}
    (h : p.outsideAncestors q name = .ok as) {x : EntryId} :
    x ∈ as ↔ p.Above x q ∧ ∃ e, p.get? x = some e ∧ name.isBelow e.name = false := by
  obtain ⟨up, hup, h⟩ := Except.bind_eq_ok.1 h
  rw [Except.mem_of_filterM_eq_ok h, ancestors_eq_ok hup]
  simp [Except.map_eq_ok, lookup_eq_ok]

theorem otherAliases_eq_ok {l : AliasLink} {es : List Entry} (h : p.otherAliases l = .ok es) :
    (∀ e, e ∈ es ↔ ∃ a, p.links.Other l a ∧ p.get? a = some e) ∧
      ∀ a, p.links.Other l a → p.Stored a := by
  have hmem : ∀ a, a ∈ (p.system.aliasTarget.ids l.targetNormalized).filter (· != l.source) ↔
      p.links.Other l a := fun a => by
    rw [List.mem_filter, Index.mem_ids, bne_iff_ne]
    rfl
  refine ⟨fun e => ?_, fun a ha => ?_⟩
  · rw [Except.mem_of_mapM_eq_ok h]
    simp only [hmem, lookup_eq_ok]
  · obtain ⟨e, he⟩ := Except.exists_mapM_eq_ok.1 ⟨es, h⟩ a ((hmem a).2 ha)
    exact ⟨e, lookup_eq_ok.1 he⟩

/-- One of the other aliases is a child of `q`. -/
theorem otherAliases_any_parent {l : AliasLink} {es : List Entry} (h : p.otherAliases l = .ok es)
    {q : EntryId} : es.any (·.parent == some q) = true ↔
      ∃ a, p.links.Other l a ∧ p.HasParent a q := by
  simp only [List.any_eq_true, (otherAliases_eq_ok h).1, beq_iff_eq, HasParent]
  constructor
  · rintro ⟨e, ⟨a, ha, he⟩, hparent⟩
    exact ⟨a, ha, e, he, hparent⟩
  · rintro ⟨a, ha, e, he, hparent⟩
    exact ⟨e, ⟨a, ha, he⟩, hparent⟩

/-- One of the other aliases lies below `x`, or is `x`. -/
theorem otherAliases_any_below (hown : p.OwnNumbers) {l : AliasLink} {es : List Entry}
    (h : p.otherAliases l = .ok es) {x : EntryId} :
    (es.any fun e => p.system.subLevel.has x e.id) = true ↔
      ∃ a, p.links.Other l a ∧ p.SubLevel x a := by
  obtain ⟨hmem, hstored⟩ := otherAliases_eq_ok h
  simp only [List.any_eq_true, hmem]
  constructor
  · rintro ⟨e, ⟨a, ha, he⟩, hx⟩
    exact ⟨a, ha, hown a e he ▸ Index.has_iff.1 hx⟩
  · rintro ⟨a, ha, hx⟩
    obtain ⟨e, he⟩ := hstored a ha
    exact ⟨e, ⟨a, ha, he⟩, (hown a e he).symm ▸ Index.has_iff.2 hx⟩

end Partition

namespace Ensures

open Directory.Partition Transaction

variable {t : Transaction}

theorem changeAliasTarget_links (hp : t.partition.Sound) (cs : List (Change String)) :
    Ensures (Transaction.changeNames .aliasTarget cs) t fun _ t' => t.partition.LinksBecome
      { t.partition.links with aliasOf := Change.allOnto cs t.partition.AliasOf } t'.partition := by
  refine (Ensures.and (changeAliasTarget (.refl hp)) (changeNames hp fun x j _ hhas => ?_)).mono
    fun _ _ h => ⟨h.1, h.2⟩
  exact Links.ext' hhas (fun _ _ => .rfl) fun _ _ => .rfl

theorem changeOneAlias_links (hp : t.partition.Sound) (cs : List (Change EntryId)) :
    Ensures (Transaction.changeTree .oneAlias cs) t fun _ t' => t.partition.LinksBecome
      { t.partition.links with one := Change.allOnto cs t.partition.OneAlias } t'.partition := by
  refine (Ensures.and (changeAliasTree (.refl hp) (.inl rfl))
    (changeTree hp fun x j _ hhas => ?_)).mono fun _ _ h => ⟨h.1, h.2⟩
  exact Links.ext' (fun _ _ => .rfl) hhas fun _ _ => .rfl

theorem changeSubAlias_links (hp : t.partition.Sound) (cs : List (Change EntryId)) :
    Ensures (Transaction.changeTree .subAlias cs) t fun _ t' => t.partition.LinksBecome
      { t.partition.links with sub := Change.allOnto cs t.partition.SubAlias } t'.partition := by
  refine (Ensures.and (changeAliasTree (.refl hp) (.inr rfl))
    (changeTree hp fun x j _ hhas => ?_)).mono fun _ _ h => ⟨h.1, h.2⟩
  exact Links.ext' (fun _ _ => .rfl) (fun _ _ => .rfl) hhas

theorem addAncestors_links {l : AliasLink} {q : EntryId} (hq : l.parent = some q) {p : Partition}
    (h : p.LinksBecome { p.links.add p l with sub := p.SubAlias } t.partition) :
    Ensures (do
      let above ← (← MonadState.get).partition.outsideAncestors q l.targetName
      Transaction.changeTree .subAlias (above.map (.add · l.target))) t fun _ t' =>
        p.LinksBecome (p.links.add p l) t'.partition := by
  refine Ensures.bind.2 (Ensures.get.2 (Ensures.bind.2 (Ensures.lift.2 fun above habove => ?_)))
  refine (changeSubAlias_links h.rest.sound _).mono fun _ t' h' => ?_
  refine ⟨(h.trans h').rest, h'.links.trans ?_⟩
  have hsub : t.partition.SubAlias = p.SubAlias := congrArg Links.sub h.links
  rw [h.links, hsub]
  refine Links.ext' (fun _ _ => .rfl) (fun _ _ => .rfl) fun x t' => ?_
  refine Change.allOnto_addKeys.trans (or_congr_left (and_congr_right fun _ => ?_))
  rw [outsideAncestors_eq_ok habove, get?_congr h.rest.master, above_congr h.rest.master]
  simp [BringsSub, hq]

/-- **A link is entered.** -/
theorem addLink_links (hp : t.partition.Sound) (l : AliasLink) :
    Ensures (Transaction.addLink l) t fun _ t' =>
      t.partition.LinksBecome (t.partition.links.add t.partition l) t'.partition := by
  unfold Transaction.addLink Climbing.addLink
  simp only [outsideAncestors_eq]
  refine Ensures.bind.2 ((changeAliasTarget_links hp _).mono fun _ t₁ h₁ => ?_)
  split
  · rename_i hnone
    refine Ensures.pure.2 ⟨h₁.rest, h₁.links.trans ?_⟩
    refine Links.ext' (fun n a => Change.allOnto_add) (fun q t => ?_) fun x t => ?_
    · simp [Links.add, BringsOne, hnone]
    · simp [Links.add, BringsSub, hnone]
  · rename_i q hq
    refine Ensures.bind.2 (Ensures.get.2 (Ensures.bind.2 (Ensures.lift.2 fun e he => ?_)))
    have he : t.partition.get? q = some e :=
      (get?_congr h₁.rest.master q).symm.trans (lookup_eq_ok.1 he)
    have hone : t₁.partition.OneAlias = t.partition.OneAlias := congrArg Links.one h₁.links
    -- the ancestors come last, whether the parent has got a tuple or not
    split
    · rename_i hout
      refine Ensures.bind.2 ((changeOneAlias_links h₁.rest.sound _).mono fun _ t₂ h₂ => ?_)
      refine addAncestors_links hq ⟨(h₁.trans h₂).rest, h₂.links.trans ?_⟩
      rw [h₁.links, hone]
      refine Links.ext' (fun n a => Change.allOnto_add) (fun q' t => ?_) fun _ _ => .rfl
      refine Change.allOnto_add.trans (or_congr_left (and_congr_right fun _ => ?_))
      rw [BringsOne, hq, Option.some.injEq, eq_comm (a := q)]
      exact ⟨fun h => ⟨h, e, h ▸ he, hout⟩, And.left⟩
    · rename_i hout
      refine addAncestors_links hq ⟨h₁.rest, h₁.links.trans ?_⟩
      refine Links.ext' (fun n a => Change.allOnto_add) (fun q' t => (or_iff_right ?_).symm)
        fun _ _ => .rfl
      rintro ⟨_, hq', e', he', hne⟩
      cases hq.symm.trans hq'
      cases he.symm.trans he'
      exact hout hne

theorem dropAncestors_links {l : AliasLink} {q : EntryId} (hq : l.parent = some q) {p : Partition}
    (hown : p.OwnNumbers) {others : List Entry} (hothers : p.otherAliases l = .ok others)
    (h : p.LinksBecome { p.links with one := (p.links.drop p l).one } t.partition) :
    Ensures (do
      let p := (← MonadState.get).partition
      let above ← p.ancestors (some q)
      let free := above.filter fun a => !others.any fun o => p.system.subLevel.has a o.id
      Transaction.changeTree .subAlias (free.map (.drop · l.target))
      Transaction.changeNames .aliasTarget [.drop l.targetNormalized l.source]) t fun _ t' =>
        p.LinksBecome (p.links.drop p l) t'.partition := by
  refine Ensures.bind.2 (Ensures.get.2 (Ensures.bind.2 (Ensures.lift.2 fun above habove => ?_)))
  refine Ensures.bind.2 ((changeSubAlias_links h.rest.sound _).mono fun _ t₁ h₁ => ?_)
  refine (changeAliasTarget_links h₁.rest.sound _).mono fun _ t' h' => ?_
  refine ⟨((h.trans h₁).trans h').rest, h'.links.trans ?_⟩
  have hsub : t.partition.SubAlias = p.SubAlias := congrArg Links.sub h.links
  have haliasOf : t₁.partition.AliasOf = p.AliasOf :=
    (congrArg Links.aliasOf h₁.links).trans (congrArg Links.aliasOf h.links)
  have hneeded : ∀ x, (others.any fun o => t.partition.system.subLevel.has x o.id) = true ↔
      ∃ a, p.links.Other l a ∧ p.SubLevel x a := by
    intro x
    rw [← otherAliases_any_below hown hothers]
    have hlevel : ∀ i, t.partition.system.subLevel.has x i = p.system.subLevel.has x i := fun i =>
      Bool.eq_iff_iff.2 (Index.has_iff.trans
        ((iff_of_eq (congrFun (congrFun h.rest.subLevel x) i)).trans Index.has_iff.symm))
    simp only [hlevel]
  rw [h₁.links, h.links, hsub, haliasOf]
  refine Links.ext' (fun n a => Change.allOnto_drop) (fun _ _ => .rfl) fun x t' => ?_
  refine Change.allOnto_dropKeys.trans (and_congr_right fun _ => not_congr ?_)
  rw [List.mem_filter, ancestors_eq_ok habove, Bool.not_eq_true', ← Bool.not_eq_true, hneeded,
    hq, above_congr h.rest.master, not_exists]
  simp only [not_and]
  exact and_assoc.symm

/-- **A link is taken out.** -/
theorem dropLink_links (hp : t.partition.Sound) (hown : t.partition.OwnNumbers) (l : AliasLink) :
    Ensures (Transaction.dropLink l) t fun _ t' =>
      t.partition.LinksBecome (t.partition.links.drop t.partition l) t'.partition := by
  unfold Transaction.dropLink Climbing.dropLink
  refine Ensures.bind.2 (Ensures.get.2 (Ensures.bind.2 (Ensures.lift.2 fun others hothers => ?_)))
  dsimp only
  split
  · rename_i hnone
    refine (changeAliasTarget_links hp _).mono fun _ t' h' => ⟨h'.rest, h'.links.trans ?_⟩
    refine Links.ext' (fun n a => Change.allOnto_drop) (fun q t => ?_) fun x t => ?_
    · simp [Links.drop, hnone]
    · simp [Links.drop, hnone]
  · rename_i q hq
    -- the ancestors and the name come last, whether the parent has lost a tuple or not
    split
    · rename_i hfree
      rw [Bool.not_eq_true', ← Bool.not_eq_true, otherAliases_any_parent hothers] at hfree
      refine Ensures.bind.2 ((changeOneAlias_links hp _).mono fun _ t₁ h₁ => ?_)
      refine dropAncestors_links hq hown hothers ⟨h₁.rest, h₁.links.trans ?_⟩
      refine Links.ext' (fun _ _ => .rfl) (fun q' t => ?_) fun _ _ => .rfl
      refine Change.allOnto_drop.trans (and_congr_right fun _ => not_congr ?_)
      rw [hq, Option.some.injEq, eq_comm (a := q)]
      refine (and_iff_left_of_imp ?_).symm
      rintro ⟨_, rfl⟩ a ha hparent
      exact hfree ⟨a, ha, hparent⟩
    · rename_i hused
      rw [Bool.not_eq_true', Bool.not_eq_false, otherAliases_any_parent hothers] at hused
      obtain ⟨a, ha, hparent⟩ := hused
      refine dropAncestors_links hq hown hothers ⟨.refl hp, ?_⟩
      refine Links.ext' (fun _ _ => .rfl) (fun q' t => (and_iff_left ?_).symm) fun _ _ => .rfl
      rintro ⟨⟨_, hq'⟩, hnone⟩
      cases hq.symm.trans hq'
      exact hnone a ha hparent

end Ensures

/-! ## Steps that leave links alone -/

/-- The indices of aliases. -/
def Partition.aliasIndices (p : Partition) : Index String × Index EntryId × Index EntryId :=
  (p.system.names .aliasTarget, p.system.tree .oneAlias, p.system.tree .subAlias)

theorem Partition.links_congr {p p' : Partition} (h : p'.aliasIndices = p.aliasIndices) :
    p'.links = p.links := by
  obtain ⟨htarget, h⟩ := Prod.ext_iff.1 h
  obtain ⟨hone, hsub⟩ := Prod.ext_iff.1 h
  refine Links.ext' (fun n a => ?_) (fun q t => ?_) fun x t => ?_
  · exact iff_of_eq (congrArg (Index.Has · n a) htarget)
  · exact iff_of_eq (congrArg (Index.Has · q t) hone)
  · exact iff_of_eq (congrArg (Index.Has · x t) hsub)

namespace Transaction

/-- Steps that leave the indices of aliases alone. -/
def RetainsAliases {α : Type} (m : TransactionM α) : Prop :=
  Retains (fun t => t.partition.aliasIndices) m

namespace RetainsAliases

theorem step {δ : Type} (apply : Partition → Except Error (Partition × δ)) (u : δ → Undo)
    (h : ∀ p p' d, apply p = .ok (p', d) → p'.aliasIndices = p.aliasIndices) :
    RetainsAliases (do let (p, d) ← apply (← MonadState.get).partition; record p (u d)) := by
  intro t
  unfold record
  simp only [Ensures.bind, Ensures.get, Ensures.lift, Ensures.modify, Prod.forall]
  exact fun p' d hp' => h _ p' d hp'

theorem changeEntryName (cs : List (Change String)) : RetainsAliases (changeNames .entry cs) := by
  refine step (·.applyNames .entry cs) (.names .entry) fun p p' undo happly => ?_
  obtain ⟨_, _, hp'⟩ := Except.bind_eq_ok.1 happly
  cases hp'
  rfl

theorem changeTree {k : TreeIndex} (hk : k = .oneLevel ∨ k = .subLevel)
    (cs : List (Change EntryId)) : RetainsAliases (changeTree k cs) := by
  refine step (·.applyTree k cs) (.tree k) fun p p' undo happly => ?_
  obtain ⟨_, _, hp'⟩ := Except.bind_eq_ok.1 happly
  cases hp'
  rcases hk with rfl | rfl <;> rfl

theorem changePresence (cs : List (Change AttributeId)) : RetainsAliases (changePresence cs) := by
  refine step (·.applyPresence cs) .presence fun p p' undo happly => ?_
  obtain ⟨_, _, hp'⟩ := Except.bind_eq_ok.1 happly
  cases hp'
  rfl

theorem changeUser (a : AttributeId) (cs : List (Change Value)) :
    RetainsAliases (changeUser a cs) := by
  refine step (·.applyUser a cs) (.user a) fun p p' undo happly => ?_
  obtain ⟨_, _, happly⟩ := Except.bind_eq_ok.1 happly
  obtain ⟨_, _, hp'⟩ := Except.bind_eq_ok.1 happly
  cases hp'
  rfl

theorem putEntry (e : Entry) : RetainsAliases (putEntry e) := by
  intro t
  unfold Transaction.putEntry record
  simp only [Ensures.bind, Ensures.get, Ensures.modify]
  rfl

theorem removeEntry (id : EntryId) : RetainsAliases (removeEntry id) := by
  intro t
  unfold Transaction.removeEntry record
  simp only [Ensures.bind, Ensures.get, Ensures.modify]
  rfl

theorem updateUser (a : AttributeId) (cs : List (Change Value)) :
    RetainsAliases (updateUser a cs) := .ite (changeUser a cs) (.pure ())

theorem reindexAttribute (id : EntryId) (old new : Entry) (a : AttributeId) :
    RetainsAliases (reindexAttribute id old new a) :=
  .bind .get fun _ => .ite (.pure _) <| .bind (.lift _) fun _ => .bind (.lift _) fun _ =>
    .bind (updateUser _ _) fun _ => .pure _

theorem reindex (id : EntryId) (old new : Entry) : RetainsAliases (reindex id old new) :=
  .bind (.mapM (reindexAttribute id old new) _) fun _ => .ite (changePresence _) (.pure ())

theorem dropValues (id : EntryId) (a : AttributeId) : RetainsAliases (dropValues id a) :=
  .bind .get fun _ => .bind (.lift _) fun _ => updateUser _ _

theorem forM_oneLevel (c : EntryId → Change EntryId) (parent : Option EntryId) :
    RetainsAliases (parent.forM fun q => Transaction.changeTree .oneLevel [c q]) :=
  .forM_option (fun _ => changeTree (.inl rfl) _) parent

theorem moveMember (mv : Partition.Move) (m : EntryId) : RetainsAliases (moveMember mv m) := by
  unfold Transaction.moveMember
  refine .bind .get fun _ => .bind (.lift _) fun current => .bind (.lift _) fun moved => ?_
  refine .ite (.bind (reindex _ _ _) fun _ => ?_) ?_ <;>
    exact .bind (putEntry moved) fun _ => .pure _

theorem reparent (mv : Partition.Move) : RetainsAliases (reparent mv) :=
  .ite (.bind (changeTree (.inl rfl) _) fun _ => changeTree (.inr rfl) _) (.pure ())

theorem enter (e : Entry) : RetainsAliases (enter e none) :=
  .bind (putEntry e) fun _ => .bind (changeEntryName _) fun _ => .bind (forM_oneLevel _ _) fun _ =>
    .bind .get fun _ => .bind (.lift _) fun _ => .bind (changeTree (.inr rfl) _) fun _ =>
    .bind (reindex _ _ _) fun _ => .pure ()

theorem takeOut (id : EntryId) (e : Entry) : RetainsAliases (takeOut id e) :=
  .bind .get fun _ => .bind (.forM (dropValues id) _) fun _ => .bind .get fun _ =>
    .bind (changePresence _) fun _ => .bind (changeEntryName _) fun _ =>
    .bind (forM_oneLevel _ _) fun _ => .bind .get fun _ => .bind (changeTree (.inr rfl) _) fun _ =>
    removeEntry id

theorem mapM_moveMember (mv : Partition.Move) (ms : List EntryId) :
    RetainsAliases (ms.mapM (Transaction.moveMember mv)) := .mapM (moveMember mv) ms

theorem links {α : Type} {m : TransactionM α} (h : RetainsAliases m) (t : Transaction) :
    Ensures m t fun _ t' => t'.partition.links = t.partition.links :=
  (h t).mono fun _ _ => Partition.links_congr

end RetainsAliases

end Transaction

end Directory
