import Directory.Proofs.Partition.AliasTuples

/-!
# The indices of alias scopes

* `Partition.Points`: the aliases and their targets, from the indices of aliases and of names.
* `Partition.NeedsOne`, `Partition.NeedsSub`: what the indices of scopes have to hold for them.
* `Links.OneExact`, `Links.SubCovers`, `Links.SubSound`: that they hold exactly this, all of this,
  and nothing else; how this lasts when links are taken out and entered.
* `Links.Unnested`: no alias lies below another alias of the same target.
* `Partition.ReachedBy.alias_scopes`: **what the indices of scopes hold** after every history.
-/

namespace Directory

open Relation

/-! ## What the links need -/

namespace Partition

/-- The links have the first entry as an alias of the name of the second one. -/
def Points (p : Partition) (v : Links) (a t : EntryId) : Prop := ∃ n, v.aliasOf n a ∧ p.Named n t

/-- The target is not among the children of `q`, but the alias is. -/
def NeedsOne (p : Partition) (v : Links) (q t : EntryId) : Prop :=
  ∃ a, p.Points v a t ∧ p.HasParent a q ∧ ¬p.HasParent t q

/-- The target does not lie below `x`, but the alias does. -/
def NeedsSub (p : Partition) (v : Links) (x t : EntryId) : Prop :=
  ∃ a, p.Points v a t ∧ (p.Above x a ∧ x ≠ a) ∧ ¬(p.Above x t ∧ x ≠ t)

variable {p p' : Partition} {v : Links} {l : AliasLink} {e : Entry} {k : Nat} {n m : String}
  {a t x q id : EntryId}

theorem Ordered.named_unique (h : p.Ordered k) (ha : p.Named n a) (ht : p.Named n t) : a = t := by
  obtain ⟨e, he, hn⟩ := (h.arranged.named n a).1 ha
  obtain ⟨f, hf, hn'⟩ := (h.arranged.named n t).1 ht
  refine h.wellNamed.distinct a t e f he hf ?_
  exact Dn.key_eq_of_normalized_eq (h.wellNamed.plain a e he) (h.wellNamed.plain t f hf)
    (hn.symm.trans hn')

theorem Ordered.name_unique (h : p.Ordered k) (hn : p.Named n a) (hm : p.Named m a) : n = m := by
  obtain ⟨e, he, rfl⟩ := (h.arranged.named n a).1 hn
  obtain ⟨f, hf, rfl⟩ := (h.arranged.named m a).1 hm
  cases he.symm.trans hf
  rfl

theorem Arranged.strictlyAbove_iff (h : p.Arranged) (he : p.get? id = some e) :
    (∃ q, e.parent = some q ∧ p.Above x q) ↔ p.Above x id ∧ x ≠ id := by
  rw [above_iff he]
  constructor
  · rintro ⟨q, hq, hway⟩
    refine ⟨.inr ⟨q, hq, hway⟩, ?_⟩
    rintro rfl
    exact h.acyclic x (.head' ⟨e, he, hq⟩ hway)
  · rintro ⟨hway, hne⟩
    exact hway.resolve_left hne

/-! ### Taking a link out -/

theorem Recorded.points_drop (hp : p.Ordered k) (hl : p.Recorded e l) :
    p.Points (v.drop p l) a t ↔ p.Points v a t ∧ ¬(a = l.source ∧ t = l.target) := by
  constructor
  · rintro ⟨n, ⟨ha, hne⟩, hn⟩
    refine ⟨⟨n, ha, hn⟩, ?_⟩
    rintro ⟨hsource, rfl⟩
    exact hne ⟨hsource, hp.name_unique hn hl.named⟩
  · rintro ⟨⟨n, ha, hn⟩, hne⟩
    refine ⟨n, ⟨ha, ?_⟩, hn⟩
    rintro ⟨hsource, rfl⟩
    exact hne ⟨hsource, hp.named_unique hn hl.named⟩

theorem Recorded.other_iff (hp : p.Ordered k) (hl : p.Recorded e l) :
    v.Other l a ↔ p.Points v a l.target ∧ a ≠ l.source := by
  constructor
  · rintro ⟨ha, hne⟩
    exact ⟨⟨_, ha, hl.named⟩, hne⟩
  · rintro ⟨⟨n, ha, hn⟩, hne⟩
    exact ⟨hp.name_unique hn hl.named ▸ ha, hne⟩

/-! ### Entering a link -/

theorem Admitted.points_add (hp : p.Ordered k) (hl : p.Admitted e l) :
    p.Points (v.add p l) a t ↔ (a = l.source ∧ t = l.target) ∨ p.Points v a t := by
  constructor
  · rintro ⟨n, ⟨rfl, rfl⟩ | ha, hn⟩
    · exact .inl ⟨rfl, hp.named_unique hn hl.named⟩
    · exact .inr ⟨n, ha, hn⟩
  · rintro (⟨rfl, rfl⟩ | ⟨n, ha, hn⟩)
    · exact ⟨_, .inl ⟨rfl, rfl⟩, hl.named⟩
    · exact ⟨n, .inr ha, hn⟩

theorem Admitted.bringsOne_iff (hp : p.Ordered k) (he : p.get? l.source = some e)
    (hl : p.Admitted e l) :
    p.BringsOne l q ↔ p.HasParent l.source q ∧ ¬p.HasParent l.target q := by
  obtain ⟨f, hf, hname, _⟩ := hl.target
  rw [BringsOne, hl.parent, hasParent_iff he, hname]
  refine and_congr_right fun hq => ?_
  obtain ⟨g, hg⟩ := hp.arranged.parents _ q ⟨e, he, hq⟩
  rw [← hp.wellNamed.parent?_iff hp.arranged hf hg]
  simp [hg]

theorem Admitted.bringsSub_iff (hp : p.Ordered k) (he : p.get? l.source = some e)
    (hl : p.Admitted e l) : p.BringsSub l x ↔
      (p.Above x l.source ∧ x ≠ l.source) ∧ ¬(p.Above x l.target ∧ x ≠ l.target) := by
  obtain ⟨f, hf, hname, _⟩ := hl.target
  rw [BringsSub, hl.parent, hp.arranged.strictlyAbove_iff he, hname]
  refine and_congr_right ?_
  rintro ⟨hway, hne⟩
  obtain ⟨g, hg⟩ : p.Stored x := by
    rcases ReflTransGen.cases_tail hway with heq | ⟨j, _, hstep⟩
    · exact absurd heq hne
    · exact hp.arranged.parents j x hstep
  rw [← hp.wellNamed.isBelow_iff hp.arranged hf hg]
  simp [hg]

/-! ### Links that stay -/

theorem StandsFor.named (h : p.StandsFor a n t) (hp : p.Arranged) : p.Named n t := by
  obtain ⟨f, hf, hname, _⟩ := h.target
  exact (hp.named n t).2 ⟨f, hf, hname.symm⟩

theorem Steady.hasParent_iff (h : p.Steady p' a) (ha : p.Stored a) :
    p'.HasParent a q ↔ p.HasParent a q := by
  obtain ⟨e, he⟩ := ha
  obtain ⟨e', he', _, hparent, _⟩ := h.record e he
  rw [Partition.hasParent_iff he', Partition.hasParent_iff he, hparent]

section Kept

variable {k' : Nat} {w : Write} {dropped added : List AliasLink}

theorem Relinked.points_kept (h : p.Relinked w dropped added p') (hl : p.Linked)
    (hp : p.Ordered k) (hv : v = p.links.dropAll p dropped) (hpoints : p.Points v a t) :
    (p.Stored a ∧ p.Steady p' a) ∧ p.Stored t ∧ p.Steady p' t := by
  obtain ⟨n, ha, hn⟩ := hpoints
  rw [hv, h.kept_iff hl] at ha
  obtain ⟨t', hstands⟩ := hl n a ha.1
  obtain rfl := hp.named_unique (hstands.named hp.arranged) hn
  obtain ⟨hsource, htarget⟩ := h.kept n a t' ha.1 hstands ha.2
  obtain ⟨e, he, _⟩ := hstands.source
  obtain ⟨f, hf, _⟩ := hstands.target
  exact ⟨⟨⟨e, he⟩, hsource⟩, ⟨f, hf⟩, htarget⟩

theorem Relinked.points_kept_iff (h : p.Relinked w dropped added p') (hl : p.Linked)
    (hp : p.Ordered k) (hp' : p'.Ordered k') (hv : v = p.links.dropAll p dropped) :
    p'.Points v a t ↔ p.Points v a t := by
  have hstands : ∀ n, v.aliasOf n a → ∃ t, p.StandsFor a n t ∧ p'.StandsFor a n t := by
    intro n ha
    rw [hv, h.kept_iff hl] at ha
    obtain ⟨t, hstands⟩ := hl n a ha.1
    obtain ⟨hsource, htarget⟩ := h.kept n a t ha.1 hstands ha.2
    exact ⟨t, hstands, hsource.standsFor htarget hstands⟩
  refine exists_congr fun n => and_congr_right fun ha => ?_
  obtain ⟨t', hbefore, hafter⟩ := hstands n ha
  constructor
  · intro hn
    exact hp'.named_unique (hafter.named hp'.arranged) hn ▸ hbefore.named hp.arranged
  · intro hn
    exact hp.named_unique (hbefore.named hp.arranged) hn ▸ hafter.named hp'.arranged

theorem Relinked.needsOne_kept (h : p.Relinked w dropped added p') (hl : p.Linked)
    (hp : p.Ordered k) (hp' : p'.Ordered k') (hv : v = p.links.dropAll p dropped) :
    p'.NeedsOne v = p.NeedsOne v := by
  funext q t
  refine propext (exists_congr fun a => ?_)
  rw [h.points_kept_iff hl hp hp' hv]
  refine and_congr_right fun hpoints => ?_
  obtain ⟨⟨hstored, hsource⟩, hstored', htarget⟩ := h.points_kept hl hp hv hpoints
  rw [hsource.hasParent_iff hstored, htarget.hasParent_iff hstored']

theorem Relinked.needsSub_kept (h : p.Relinked w dropped added p') (hl : p.Linked)
    (hp : p.Ordered k) (hp' : p'.Ordered k') (hv : v = p.links.dropAll p dropped) :
    p'.NeedsSub v = p.NeedsSub v := by
  funext x t
  refine propext (exists_congr fun a => ?_)
  rw [h.points_kept_iff hl hp hp' hv]
  refine and_congr_right fun hpoints => ?_
  obtain ⟨⟨_, hsource⟩, _, htarget⟩ := h.points_kept hl hp hv hpoints
  rw [hsource.above, htarget.above]

end Kept

end Partition

/-! ## Exact indices -/

namespace Links

variable {p p' : Partition} {v : Links} {l : AliasLink} {e : Entry} {k : Nat}

/-- The index of one level holds exactly what the links need. -/
def OneExact (p : Partition) (v : Links) : Prop := ∀ q t, v.one q t ↔ p.NeedsOne v q t

/-- The index of the levels below holds all that the links need. -/
def SubCovers (p : Partition) (v : Links) : Prop := ∀ x t, p.NeedsSub v x t → v.sub x t

/-- The index of the levels below holds nothing but what the links need. -/
def SubSound (p : Partition) (v : Links) : Prop := ∀ x t, v.sub x t → p.NeedsSub v x t

/-- No alias lies below another alias of the same target. -/
def Unnested (p : Partition) (v : Links) : Prop :=
  ∀ a b t, p.Points v a t → p.Points v b t → p.Above b a → b = a

theorem OneExact.drop (h : v.OneExact p) (hp : p.Ordered k) (he : p.get? l.source = some e)
    (hl : p.Recorded e l) : (v.drop p l).OneExact p := by
  intro q t
  have hparent : l.parent = some q ↔ p.HasParent l.source q := by
    rw [hl.parent, Partition.hasParent_iff he]
  show (v.one q t ∧ _) ↔ _
  rw [h q t, hparent]
  simp only [Partition.NeedsOne, hl.points_drop hp, hl.other_iff hp]
  constructor
  · rintro ⟨⟨a, ha, haq, htq⟩, hfree⟩
    by_cases hsame : a = l.source ∧ t = l.target
    · -- another alias of the target among the children keeps the tuple
      obtain ⟨rfl, rfl⟩ := hsame
      have hother : ∃ b, (p.Points v b l.target ∧ b ≠ l.source) ∧ p.HasParent b q :=
        Classical.byContradiction fun hnone =>
          hfree ⟨⟨rfl, haq⟩, fun b hb hbq => hnone ⟨b, hb, hbq⟩⟩
      obtain ⟨b, ⟨hb, hne⟩, hbq⟩ := hother
      exact ⟨b, ⟨hb, fun heq => hne heq.1⟩, hbq, htq⟩
    · exact ⟨a, ⟨ha, hsame⟩, haq, htq⟩
  · rintro ⟨a, ⟨ha, hne⟩, haq, htq⟩
    refine ⟨⟨a, ha, haq, htq⟩, ?_⟩
    rintro ⟨⟨rfl, _⟩, hnone⟩
    exact hnone a ⟨ha, fun heq => hne ⟨heq, rfl⟩⟩ haq

theorem SubCovers.drop (h : v.SubCovers p) (hp : p.Ordered k) (hl : p.Recorded e l) :
    (v.drop p l).SubCovers p := by
  rintro x t ⟨a, ha, ⟨hway, hne⟩, hout⟩
  obtain ⟨ha, hsame⟩ := (hl.points_drop hp).1 ha
  refine ⟨h x t ⟨a, ha, ⟨hway, hne⟩, hout⟩, ?_⟩
  rintro ⟨⟨rfl, _⟩, hnone⟩
  have hother : v.Other l a := (hl.other_iff hp).2 ⟨ha, fun heq => hsame ⟨heq, rfl⟩⟩
  have hstored : p.Stored a := by
    rcases ReflTransGen.cases_head hway with heq | ⟨q, ⟨e, he, _⟩, _⟩
    · exact absurd heq.symm hne
    · exact ⟨e, he⟩
  exact hnone a hother ((hp.arranged.subLevel x a).2 ⟨hstored, hway⟩)

/-- The test for another alias below `x` does not take `x` itself for one, if none of them lies
below another. -/
theorem SubSound.drop (h : v.SubSound p) (hp : p.Ordered k) (he : p.get? l.source = some e)
    (hl : p.Recorded e l) (hunnested : v.Unnested p) : (v.drop p l).SubSound p := by
  rintro x t ⟨hsub, hfree⟩
  obtain ⟨a, ha, ⟨hway, hne⟩, hout⟩ := h x t hsub
  by_cases hsame : a = l.source ∧ t = l.target
  · obtain ⟨rfl, rfl⟩ := hsame
    have habove : ∃ q, l.parent = some q ∧ p.Above x q := by
      rw [hl.parent, hp.arranged.strictlyAbove_iff he]
      exact ⟨hway, hne⟩
    have hother : ∃ b, v.Other l b ∧ p.SubLevel x b := Classical.byContradiction fun hnone =>
      hfree ⟨⟨rfl, habove⟩, fun b hb hbx => hnone ⟨b, hb, hbx⟩⟩
    obtain ⟨b, hb, hbx⟩ := hother
    obtain ⟨hb, hbl⟩ := (hl.other_iff hp).1 hb
    have hbway := ((hp.arranged.subLevel x b).1 hbx).2
    refine ⟨b, (hl.points_drop hp).2 ⟨hb, fun heq => hbl heq.1⟩, ⟨hbway, ?_⟩, hout⟩
    rintro rfl
    exact hne (hunnested l.source x l.target ha hb hway)
  · exact ⟨a, (hl.points_drop hp).2 ⟨ha, hsame⟩, ⟨hway, hne⟩, hout⟩

theorem Unnested.drop (h : v.Unnested p) (hp : p.Ordered k) (hl : p.Recorded e l) :
    (v.drop p l).Unnested p := fun a b t ha hb =>
  h a b t ((hl.points_drop hp).1 ha).1 ((hl.points_drop hp).1 hb).1

theorem OneExact.add (h : v.OneExact p) (hp : p.Ordered k) (he : p.get? l.source = some e)
    (hl : p.Admitted e l) : (v.add p l).OneExact p := by
  intro q t
  show (_ ∨ v.one q t) ↔ _
  rw [h q t, hl.bringsOne_iff hp he]
  simp only [Partition.NeedsOne, hl.points_add hp]
  constructor
  · rintro (⟨rfl, hq⟩ | ⟨a, ha, hq⟩)
    · exact ⟨l.source, .inl ⟨rfl, rfl⟩, hq⟩
    · exact ⟨a, .inr ha, hq⟩
  · rintro ⟨a, ⟨rfl, rfl⟩ | ha, hq⟩
    · exact .inl ⟨rfl, hq⟩
    · exact .inr ⟨a, ha, hq⟩

theorem SubCovers.add (h : v.SubCovers p) (hp : p.Ordered k) (he : p.get? l.source = some e)
    (hl : p.Admitted e l) : (v.add p l).SubCovers p := by
  rintro x t ⟨a, ha, hx⟩
  rcases (hl.points_add hp).1 ha with ⟨rfl, rfl⟩ | ha
  · exact .inl ⟨rfl, (hl.bringsSub_iff hp he).2 hx⟩
  · exact .inr (h x t ⟨a, ha, hx⟩)

theorem SubSound.add (h : v.SubSound p) (hp : p.Ordered k) (he : p.get? l.source = some e)
    (hl : p.Admitted e l) : (v.add p l).SubSound p := by
  rintro x t (⟨rfl, hx⟩ | hsub)
  · exact ⟨l.source, (hl.points_add hp).2 (.inl ⟨rfl, rfl⟩), (hl.bringsSub_iff hp he).1 hx⟩
  · obtain ⟨a, ha, hx⟩ := h x t hsub
    exact ⟨a, (hl.points_add hp).2 (.inr ha), hx⟩

end Links

/-! ## After a write -/

namespace Partition

variable {p p' : Partition} {w : Write} {dropped added : List AliasLink} {k k' : Nat}

/-- What lasts while links are taken out, and does not depend on what the write changes in the tree,
and lasts while links are entered, lasts through the write. -/
theorem Relinked.scopes (h : p.Relinked w dropped added p') {I I' : Links → Prop}
    (hdrop : ∀ v, I v → ∀ l ∈ dropped, I (v.drop p l))
    (hkept : I (p.links.dropAll p dropped) → I' (p.links.dropAll p dropped))
    (hadd : ∀ v, I' v → ∀ l ∈ added, I' (v.add p' l)) (hp : I p.links) : I' p'.links := by
  rw [h.links]
  exact List.foldlRecOn added _ (hkept (List.foldlRecOn dropped _ hp hdrop)) hadd

theorem Relinked.oneExact (h : p.Relinked w dropped added p') (hl : p.Linked) (hp : p.Ordered k)
    (hp' : p'.Ordered k') (hone : p.links.OneExact p) : p'.links.OneExact p' := by
  refine h.scopes (I := (·.OneExact p)) (fun v hv l hl' => ?_) (fun hv q t => ?_)
    (fun v hv l hl' => ?_) hone
  · obtain ⟨e, he, hrecorded⟩ := h.recorded l hl'
    exact hv.drop hp he hrecorded
  · rw [h.needsOne_kept hl hp hp' rfl]
    exact hv q t
  · obtain ⟨e, he, _, hadmitted⟩ := h.admitted l hl'
    exact hv.add hp' he hadmitted

theorem Relinked.subCovers (h : p.Relinked w dropped added p') (hl : p.Linked) (hp : p.Ordered k)
    (hp' : p'.Ordered k') (hsub : p.links.SubCovers p) : p'.links.SubCovers p' := by
  refine h.scopes (I := (·.SubCovers p)) (fun v hv l hl' => ?_) (fun hv x t => ?_)
    (fun v hv l hl' => ?_) hsub
  · obtain ⟨e, _, hrecorded⟩ := h.recorded l hl'
    exact hv.drop hp hrecorded
  · rw [h.needsSub_kept hl hp hp' rfl]
    exact hv x t
  · obtain ⟨e, he, _, hadmitted⟩ := h.admitted l hl'
    exact hv.add hp' he hadmitted

theorem Relinked.subSound (h : p.Relinked w dropped added p') (hl : p.Linked) (hp : p.Ordered k)
    (hp' : p'.Ordered k') (hunnested : p.links.Unnested p) (hsub : p.links.SubSound p) :
    p'.links.SubSound p' := by
  refine h.scopes (I := fun v => v.SubSound p ∧ v.Unnested p) (fun v hv l hl' => ?_)
    (fun hv x t => ?_) (fun v hv l hl' => ?_) ⟨hsub, hunnested⟩
  · obtain ⟨e, he, hrecorded⟩ := h.recorded l hl'
    exact ⟨hv.1.drop hp he hrecorded hv.2, hv.2.drop hp hrecorded⟩
  · rw [h.needsSub_kept hl hp hp' rfl]
    exact hv.1 x t
  · obtain ⟨e, he, _, hadmitted⟩ := h.admitted l hl'
    exact hv.add hp' he hadmitted

/-! ## After every history -/

variable {c : Config} {ws : List Write}

/-- No write of the history has met an alias that lies below another alias of the same target. -/
def NeverNested (c : Config) (ws : List Write) : Prop :=
  ∀ ws₁ w (q : Partition), ws₁ ++ [w] <+: ws → q.ReachedBy c ws₁ → q.links.Unnested q

/-- The index of one level is exact, and the index of the levels below holds all that the aliases
need. It holds nothing else if no write has met nested aliases of one target. -/
theorem ReachedBy.scopes (h : p.ReachedBy c ws) (hws : ∀ w ∈ ws, w.Parsed) :
    p.links.OneExact p ∧ p.links.SubCovers p ∧ (NeverNested c ws → p.links.SubSound p) := by
  refine h.along_relinked (I := fun ws p =>
    p.links.OneExact p ∧ p.links.SubCovers p ∧ (NeverNested c ws → p.links.SubSound p)) hws
    (fun p₀ hp₀ => ?_)
    fun ws₁ w q k k' dropped added hq hordered hordered' hl hrelinked ⟨hone, hcovers, hsound⟩ => ?_
  · obtain ⟨haliasOf, hone, hsub⟩ := ofConfig_unlinked hp₀
    have hpoints : ∀ a t, ¬p₀.Points p₀.links a t := fun a _ ⟨n, ha, _⟩ => haliasOf n a ha
    exact ⟨fun q t => iff_of_false (hone q t) fun ⟨a, ha, _⟩ => hpoints a t ha,
      fun x t ⟨a, ha, _⟩ => absurd ha (hpoints a t), fun _ x t hxt => absurd hxt (hsub x t)⟩
  · refine ⟨hrelinked.oneExact hl hordered hordered' hone,
      hrelinked.subCovers hl hordered hordered' hcovers, fun hnever => ?_⟩
    have hnever₁ : NeverNested c ws₁ := fun ws₂ w' q' hw' =>
      hnever ws₂ w' q' (hw'.trans (List.prefix_append ..))
    exact hrelinked.subSound hl hordered hordered' (hnever ws₁ w q List.prefix_rfl hq)
      (hsound hnever₁)

/-- **The indices of alias scopes.** After every history whose names have been read, the index of
one level holds exactly the targets of aliases among the children of an entry that are not children
of it themselves, and the index of the levels below holds all targets of aliases below an entry that
do not lie below it themselves. It holds nothing else if no write of the history has met an alias
below another alias of the same target. So what a scope takes from the aliases in it is not in the
scope by its own place. -/
theorem ReachedBy.alias_scopes (h : p.ReachedBy c ws) (hws : ∀ w ∈ ws, w.Parsed) (d : Direction) :
    (∀ q t, (q, t) ∈ p.system.oneAlias.tables.tuples d ↔ p.NeedsOne p.links q t) ∧
    (∀ x t, p.NeedsSub p.links x t → (x, t) ∈ p.system.subAlias.tables.tuples d) ∧
    (NeverNested c ws →
      ∀ x t, (x, t) ∈ p.system.subAlias.tables.tuples d → p.NeedsSub p.links x t) ∧
    (∀ q t, (q, t) ∈ p.system.oneAlias.tables.tuples d →
      (q, t) ∉ p.system.oneLevel.tables.tuples d) ∧
    (NeverNested c ws → ∀ x t, (x, t) ∈ p.system.subAlias.tables.tuples d →
      (x, t) ∉ p.system.subLevel.tables.tuples d) := by
  obtain ⟨_, _, hordered⟩ := h.ordered hws
  obtain ⟨hone, hcovers, hsound⟩ := h.scopes hws
  have htuple : ∀ (i : TreeIndex) x t, (x, t) ∈ (p.system.tree i).tables.tuples d ↔
      (p.system.tree i).Has x t := fun i _ _ => Index.mem_tuples (hordered.valued.sound.tree i)
  have hsub : NeverNested c ws →
      ∀ x t, (x, t) ∈ p.system.subAlias.tables.tuples d → p.NeedsSub p.links x t :=
    fun hnever x t hxt => hsound hnever x t ((htuple .subAlias x t).1 hxt)
  refine ⟨fun q t => (htuple .oneAlias q t).trans (hone q t),
    fun x t hneeds => (htuple .subAlias x t).2 (hcovers x t hneeds), hsub, fun q t hq hlevel => ?_,
    fun hnever x t hx hlevel => ?_⟩
  · obtain ⟨_, _, _, hout⟩ := (hone q t).1 ((htuple .oneAlias q t).1 hq)
    exact hout ((hordered.arranged.oneLevel q t).1 ((htuple .oneLevel q t).1 hlevel))
  · obtain ⟨a, ⟨n, ha, hn⟩, ⟨hway, _⟩, hout⟩ := hsub hnever x t hx
    have hxt := ((hordered.arranged.subLevel x t).1 ((htuple .subLevel x t).1 hlevel)).2
    -- an alias does not lie below its target
    obtain ⟨t', hstands⟩ := h.linked hws n a ha
    obtain rfl := hordered.named_unique hn (hstands.named hordered.arranged)
    refine hout ⟨hxt, ?_⟩
    rintro rfl
    exact hstands.outside hway

/-- Whether aliases lie below one another can be read off the indices. -/
theorem ReachedBy.unnested (h : p.ReachedBy c ws) (hws : ∀ w ∈ ws, w.Parsed)
    (hindex : ∀ x ∈ p.system.aliasTarget.tables.tuples .forward,
      ∀ y ∈ p.system.aliasTarget.tables.tuples .forward,
        p.system.subLevel.has x.2 y.2 = true → x.2 = y.2) : p.links.Unnested p := by
  obtain ⟨_, _, hordered⟩ := h.ordered hws
  rintro a b t ⟨n, ha, _⟩ ⟨m, hb, _⟩ hway
  obtain ⟨_, hstands⟩ := h.linked hws n a ha
  obtain ⟨e, he, _⟩ := hstands.source
  refine hindex (m, b) (Tables.mem_byKey.2 hb) (n, a) (Tables.mem_byKey.2 ha) ?_
  exact Index.has_iff.2 ((hordered.arranged.subLevel b a).2 ⟨⟨e, he⟩, hway⟩)

end Partition

/-! ### Two aliases of one target -/

namespace Sample

/-- Another alias of the second unit in the first one. -/
def otherLink : Entry :=
  ((Entry.ofName ((unit "A").child ⟨⟨"cn"⟩, "Other"⟩)).putValues
    "objectClass" [.text "alias"]).putValues
    "aliasedObjectName" [.text "ou=B,dc=example,dc=com"]

/-- The two aliases are stored, and the first of them goes. -/
def sharedWrites : List Write := linkWrites ++ [.add otherLink, .delete 4]

theorem sharedWrites_parsed : ∀ w ∈ sharedWrites, w.Parsed := by
  have hother : otherLink.name.Parsed :=
    parsed_of_parse "cn=Other,ou=A,dc=example,dc=com" (by decide +kernel)
  exact List.forall_mem_append.2 ⟨linkWrites_parsed,
    List.forall_mem_cons.2 ⟨hother, List.forall_mem_singleton.2 trivial⟩⟩

/-- At no time does one of the aliases lie below the other. -/
theorem sharedWrites_neverNested : Partition.NeverNested .standard sharedWrites := by
  have hindex : ∀ k < 6,
      ∀ x ∈ (after (sharedWrites.take k)).system.aliasTarget.tables.tuples .forward,
      ∀ y ∈ (after (sharedWrites.take k)).system.aliasTarget.tables.tuples .forward,
        (after (sharedWrites.take k)).system.subLevel.has x.2 y.2 = true → x.2 = y.2 := by
    decide +kernel
  intro ws₁ w q hinit hq
  have hinit₁ := (List.prefix_append ws₁ [w]).trans hinit
  have hlength : ws₁.length < 6 := by
    have hle := hinit.length_le
    rwa [List.length_append] at hle
  have hafter : after (sharedWrites.take ws₁.length) = q := by
    rw [← List.prefix_iff_eq_take.1 hinit₁]
    exact hq.unique (after_reachedBy ws₁ hq.adds)
  refine hq.unnested (fun w' hw' => sharedWrites_parsed w' (hinit₁.subset hw')) ?_
  rw [← hafter]
  exact hindex _ hlength

end Sample

/-- When the first alias has gone, the second one still brings its target into the scopes of the
unit. -/
theorem Partition.alias_scopes_sample :
    let p := Sample.after Sample.sharedWrites
    Partition.NeverNested .standard Sample.sharedWrites ∧
      p.system.aliasTarget.tables.tuples .forward = [("ou=b,dc=example,dc=com", 5)] ∧
      (2, 3) ∈ p.system.oneAlias.tables.tuples .forward ∧ p.NeedsOne p.links 2 3 ∧
      (2, 3) ∈ p.system.subAlias.tables.tuples .forward ∧ p.NeedsSub p.links 2 3 := by
  intro p
  obtain ⟨hleft, hone, hsub⟩ :
      p.system.aliasTarget.tables.tuples .forward = [("ou=b,dc=example,dc=com", 5)] ∧
      (2, 3) ∈ p.system.oneAlias.tables.tuples .forward ∧
      (2, 3) ∈ p.system.subAlias.tables.tuples .forward := by
    decide +kernel
  obtain ⟨hneedsOne, _, hneedsSub, _⟩ := ReachedBy.alias_scopes
    (Sample.after_reachedBy Sample.sharedWrites (by decide)) Sample.sharedWrites_parsed .forward
  have hnever := Sample.sharedWrites_neverNested
  exact ⟨hnever, hleft, hone, (hneedsOne 2 3).1 hone, hsub, hneedsSub hnever 2 3 hsub⟩

/-! ### A tuple that outlives its alias -/

namespace Sample

/-- The values of an alias of the first unit. -/
def aliasOfA : List Modification := [
  ⟨.add, .objectClass, [.text "Alias"]⟩,
  ⟨.add, .aliasedObjectName, [.text "ou=a,dc=example,dc=com"]⟩]

/-- An alias of the first unit in the second one. -/
def backLink : Entry :=
  ((Entry.ofName ((unit "B").child ⟨⟨"cn"⟩, "Link"⟩)).putValues
    "objectClass" [.text "Alias"]).putValues
    "aliasedObjectName" [.text "ou=a,dc=example,dc=com"]

/-- The second unit becomes an alias of the first one itself, before the alias in it goes. -/
def nestedWrites : List Write := [
  .add (.ofName suffix), .add (.ofName (unit "A")), .add (.ofName (unit "B")), .add backLink,
  .modify 3 aliasOfA, .delete 4]

theorem nestedWrites_parsed : ∀ w ∈ nestedWrites, w.Parsed := by
  have hlink : backLink.name.Parsed :=
    parsed_of_parse "cn=Link,ou=B,dc=example,dc=com" (by decide +kernel)
  simp only [nestedWrites, List.forall_mem_cons]
  exact ⟨suffix_parsed, unitA_parsed, unitB_parsed, hlink, trivial, trivial, fun _ h => nomatch h⟩

end Sample

/-- The first unit is still indexed below the second one, where no alias is left. -/
theorem Partition.nested_aliases_sample :
    let p := Sample.after Sample.nestedWrites
    p.ReachedBy .standard Sample.nestedWrites ∧ (∀ w ∈ Sample.nestedWrites, w.Parsed) ∧
      (∀ d, (3, 2) ∈ p.system.subAlias.tables.tuples d) ∧ ¬p.NeedsSub p.links 3 2 := by
  intro p
  obtain ⟨hforward, hreverse, htuples⟩ : (3, 2) ∈ p.system.subAlias.tables.tuples .forward ∧
      (3, 2) ∈ p.system.subAlias.tables.tuples .reverse ∧
      p.system.aliasTarget.tables.tuples .forward = [("ou=a,dc=example,dc=com", 3)] := by
    decide +kernel
  have hsub : ∀ d, (3, 2) ∈ p.system.subAlias.tables.tuples d := by
    intro d
    cases d with
    | forward => exact hforward
    | reverse => exact hreverse
  refine ⟨Sample.after_reachedBy _ (by decide), Sample.nestedWrites_parsed, hsub, ?_⟩
  rintro ⟨a, ⟨n, ha, _⟩, ⟨_, hne⟩, _⟩
  have htuple : (n, a) ∈ p.system.aliasTarget.tables.tuples .forward := Tables.mem_byKey.2 ha
  rw [htuples, List.mem_singleton, Prod.mk.injEq] at htuple
  exact hne htuple.2.symm

end Directory
