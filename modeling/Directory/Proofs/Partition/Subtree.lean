import Directory.Proofs.Partition.Lookup
import Directory.Proofs.Partition.NoTrace

/-!
# What a move does to a subtree

* `Dn.Rehung`: a name with another end, in place of one with the normalized relative names of the
  old place.
* `Entry.Gains`: an entry with the value of a relative name, unless it had it in some spelling;
  `Entry.withNameValue_gains`.
* `Partition.Rewritten.above_inside`, `above_outside`: what is above a member afterwards, inside the
  subtree and outside of it.
* `Partition.MovedSubtree`, `Partition.Reachable.moved_subtree`: **the entries and the index of the
  tree that a move leaves**.
-/

namespace Directory

open Relation

/-! ## Names and values -/

/-- The first name ends in the normalized relative names of `base`, and the second has `base'` in
place of that end. -/
def Dn.Rehung (base base' d d' : Dn) : Prop :=
  ∃ rs ss, d.rdns = rs ++ ss ∧ Dn.key ⟨ss⟩ = base.key ∧ d'.rdns = rs ++ base'.rdns

theorem Dn.rebase?_rehung {base base' d d' : Dn} (h : d.rebase? base base' = some d') :
    Dn.Rehung base base' d d' := by
  obtain ⟨k, above, habove, hkey, rfl⟩ := rebase?_iff_above.1 h
  obtain ⟨_, rfl⟩ := above?_eq_some.1 habove
  exact ⟨_, _, (List.take_append_drop k d.rdns).symm, hkey, rfl⟩

theorem Dn.Rehung.self {d base' d' : Dn} (h : Dn.Rehung d base' d d') : d' = base' := by
  obtain ⟨rs, ss, hd, hkey, hd'⟩ := h
  have hlength := congrArg List.length hkey
  have hnil : rs = [] := by
    simp only [key, List.length_map, hd, List.length_append] at hlength
    exact List.length_eq_zero_iff.1 (by omega)
  obtain ⟨rs'⟩ := d'
  rw [hnil] at hd'
  exact congrArg Dn.mk hd'

/-- The second entry has the attributes of the first and the value of the relative name, unless the
first has a value of the same normal form. -/
def Entry.Gains (p : Partition) (r : Rdn) (e e' : Entry) : Prop :=
  ∃ k, p.schema.normalize r.type (.text r.value) = .ok k ∧
    ((p.IsForm r.type (e.valuesOf r.type) k ∧ e'.attributes = e.attributes) ∨
      (¬p.IsForm r.type (e.valuesOf r.type) k ∧
        e'.attributes = e.attributes.insert r.type (e.valuesOf r.type ++ [.text r.value])))

theorem Entry.withNameValue_gains {p : Partition} {e e' : Entry} {r : Rdn}
    (h : e.withNameValue p = .ok e') (hr : e.name.rdn? = some r) : e.Gains p r e' := by
  unfold withNameValue at h
  rw [hr] at h
  obtain ⟨k, hk, h⟩ := Except.bind_eq_ok.1 h
  obtain ⟨held, hheld, h⟩ := Except.bind_eq_ok.1 h
  have hform : held.contains k = true ↔ p.IsForm r.type (e.valuesOf r.type) k :=
    SortedSet.contains_iff.trans (Partition.mem_normalizeAll hheld)
  refine ⟨k, hk, ?_⟩
  split at h
  · rename_i hcontains
    cases h
    exact .inl ⟨hform.1 hcontains, rfl⟩
  · rename_i hcontains
    cases h
    have hnew : ¬p.IsForm r.type (e.valuesOf r.type) k := fun hk => hcontains (hform.2 hk)
    refine .inr ⟨hnew, ?_⟩
    have hmem : (e.valuesOf r.type).contains (.text r.value) = false := by
      refine Bool.eq_false_iff.2 fun hmem => hnew ⟨_, ?_, hk⟩
      exact List.contains_iff_mem.1 hmem
    show e.attributes.insert r.type (if (e.valuesOf r.type).contains _ then _ else _) = _
    rw [hmem]
    rfl

namespace Partition

variable {p p' : Partition} {id : EntryId} {rdn : Option Rdn} {mv : Move}

theorem movedEntry_gains {m : EntryId} {current moved : Entry} {r : Rdn}
    (h : Transaction.movedEntry p mv m current = .ok moved) (hm : m = mv.top.id)
    (hr : moved.name.rdn? = some r) : current.Gains p r moved := by
  unfold Transaction.movedEntry at h
  split at h
  · rw [if_pos hm] at h
    obtain ⟨e, he, h⟩ := Except.bind_eq_ok.1 h
    obtain ⟨_, _, h⟩ := Except.bind_eq_ok.1 h
    cases h
    rw [(Entry.withNameValue_eq_ok he).2.1] at hr
    exact (Entry.withNameValue_gains he hr :)
  · cases h

theorem newParentFor_named {e : Entry} {old q : EntryId} {parent : Option Dn}
    (h : p.newParentFor e old parent = .ok q) :
    (parent = none → q = old) ∧ ∀ name, parent = some name → p.idOf? name = some q := by
  cases parent with
  | none =>
    cases h
    exact ⟨fun _ => rfl, nofun⟩
  | some name =>
    refine ⟨nofun, ?_⟩
    rintro _ ⟨⟩
    unfold newParentFor at h
    dsimp only at h
    split at h
    · rename_i q' hq'
      split at h
      · cases h
      · obtain ⟨f, _, h⟩ := Except.bind_eq_ok.1 h
        split at h
        · cases h
        · cases h
          exact hq'
    · cases h

/-! ## Ways up -/

theorem Reachable.arranged (h : p.Reachable) : p.Arranged :=
  have ⟨_, _, hp⟩ := h
  hp.arranged

theorem Arranged.mem_subLevel (h : p.Arranged) (hp : p.Sound) {d : Direction} {a i : EntryId} :
    (a, i) ∈ p.system.subLevel.tables.tuples d ↔ p.Stored i ∧ p.Above a i :=
  (Index.mem_tuples (hp.tree .subLevel)).trans (h.subLevel a i)

namespace Rewritten

variable {a i : EntryId}

/-- Inside the subtree the ways up stay. -/
theorem above_inside (h' : p.Rewritten mv p') (h : p.Arranged) (hown : p.OwnNumbers)
    (hmv : p.Planned id rdn mv) (hi : p.Above id i) (ha : p.Above id a) :
    p'.Above a i ↔ p.Above a i := by
  rw [h'.above_iff h hown hmv hi]
  constructor
  · rintro (hway | ⟨hway, _⟩)
    · exact absurd (hway.trans ha) (h.not_above_parent hown hmv)
    · exact hway
  · intro hway
    refine .inr ⟨hway, fun hold => ?_⟩
    exact h.acyclic id (.head' (hmv.hasParent_iff.2 rfl) (hold.trans ha))

/-- Outside the subtree exactly the new parent and what is above it are above a member. -/
theorem above_outside (h' : p.Rewritten mv p') (h : p.Arranged) (hown : p.OwnNumbers)
    (hmv : p.Planned id rdn mv) (hi : p.Above id i) (ha : ¬p.Above id a) :
    p'.Above a i ↔ p.Above a mv.parent := by
  rw [h'.above_iff h hown hmv hi]
  refine or_iff_left ?_
  rintro ⟨hway, hold⟩
  rcases ReflTransGen.total_of_right_unique p.hasParent_unique hi hway with hfrom | hbelow
  · rcases ReflTransGen.cases_head hfrom with rfl | ⟨q, hq, hfrom⟩
    · exact ha .refl
    · exact hold (hmv.hasParent_iff.1 hq ▸ hfrom)
  · exact ha hbelow

end Rewritten

/-! ## The write -/

/-- The entry `id`, which was `top`, has gone below `q` with the relative name `r` and is now called
`name`.

* Every entry of its subtree, itself among them, has the new name of the moved one in place of the
  old one, and keeps its number; all but the moved entry keep their attributes and their parent.
* The moved entry has the new parent, and of its attributes only the value of `r` may be new.
* All other entries are as they were.
* The index of the tree says of a member and something outside of the subtree whether that is the
  new parent or something above it, and of all other pairs what it said. -/
structure MovedSubtree (p : Partition) (id : EntryId) (top : Entry) (q : EntryId) (r : Rdn)
    (name : Dn) (p' : Partition) : Prop where
  members : ∀ m e, p.get? m = some e → p.Above id m → ∃ e', p'.get? m = some e' ∧
    Dn.Rehung top.name name e.name e'.name ∧ e'.id = e.id ∧
    (m ≠ id → e'.parent = e.parent ∧ e'.attributes = e.attributes)
  moved : ∃ top', p'.get? id = some top' ∧ top'.name = name ∧ top'.parent = some q ∧
    top.Gains p r top'
  others : ∀ i, ¬p.Above id i → p'.get? i = p.get? i
  crossing : ∀ d x m, p.Stored m → p.Above id m → ¬p.Above id x →
    ((x, m) ∈ p'.system.subLevel.tables.tuples d ↔ p.Above x q)
  pairs : ∀ d x m, ¬(p.Above id m ∧ ¬p.Above id x) →
    ((x, m) ∈ p'.system.subLevel.tables.tuples d ↔ (x, m) ∈ p.system.subLevel.tables.tuples d)

theorem Relocated.movedSubtree {n : Nat} (hp : p.Valued n) (harranged : p.Arranged)
    (hmv : p.Planned id rdn mv) {r : Rdn} (hr : mv.name.rdn? = some r) (h : p.Relocated mv p')
    (hsound' : p'.Sound) : p.MovedSubtree id mv.top mv.parent r mv.name p' := by
  have hrewritten := h.rewritten
  have htop := hmv.top_id hp.own
  have harranged' := harranged.relocated hp.own hmv h
  have hmembers : ∀ m, m ∈ mv.members ↔ p.Stored m ∧ p.Above id m := fun m =>
    harranged.mem_members hmv
  refine ⟨fun m e he hm => ?_, ?_, fun i hi => ?_, fun d x m hstored hm hx => ?_,
    fun d x m hne => ?_⟩
  · obtain ⟨current, e', ⟨hcurrent, hentry⟩, he'⟩ :=
      hrewritten.moved m ((hmembers m).2 ⟨⟨e, he⟩, hm⟩)
    obtain rfl : e = current := Option.some.inj (he.symm.trans hcurrent)
    obtain ⟨hid, hrebase, _, hother⟩ := movedEntry_eq_ok hentry
    exact ⟨e', he', Dn.rebase?_rehung hrebase, hid, fun hne => hother (htop ▸ hne)⟩
  · obtain ⟨current, top', ⟨hcurrent, hentry⟩, htop'⟩ :=
      hrewritten.moved id ((hmembers id).2 ⟨⟨_, hmv.top⟩, .refl⟩)
    obtain rfl : mv.top = current := Option.some.inj (hmv.top.symm.trans hcurrent)
    obtain ⟨_, hrebase, hself, _⟩ := movedEntry_eq_ok hentry
    have hname : top'.name = mv.name := (Dn.rebase?_rehung hrebase).self
    exact ⟨top', htop', hname, (hself htop.symm).1,
      movedEntry_gains hentry htop.symm (hname ▸ hr)⟩
  · exact hrewritten.others i fun hi' => hi ((hmembers i).1 hi').2
  · rw [harranged'.mem_subLevel hsound', hrewritten.stored_iff,
      hrewritten.above_outside harranged hp.own hmv hm hx]
    exact and_iff_right hstored
  · rw [harranged'.mem_subLevel hsound', harranged.mem_subLevel hp.sound, hrewritten.stored_iff]
    refine and_congr_right fun _ => ?_
    by_cases hm : p.Above id m
    · exact hrewritten.above_inside harranged hp.own hmv hm
        (Classical.not_not.1 fun hx => hne ⟨hm, hx⟩)
    · exact (hrewritten.redirects hp.own hmv).way_iff hm

/-- **What a move leaves**, when it succeeds: the subtree is where it was to go, below the given
parent or the old one, and called by the given relative name or by the old one. -/
theorem Reachable.moved_subtree (h : p.Reachable) {parent : Option Dn}
    (hok : moveAndRename id parent rdn p = .ok () p') :
    ∃ top oldParent q f r, p.get? id = some top ∧ top.parent = some oldParent ∧
      (parent = none → q = oldParent) ∧ (∀ name, parent = some name → p.idOf? name = some q) ∧
      p.get? q = some f ∧ (rdn <|> top.name.rdn?) = some r ∧
      p.MovedSubtree id top q r (f.name.child r) p' := by
  obtain ⟨n, hp⟩ := h.valued
  obtain ⟨mv, hplan, hrelocated⟩ :=
    ensures_moveAndRename hp.sound hp.own hp.values id parent rdn () p' hok
  have hmv := planMove_eq_ok hplan
  obtain ⟨f, r, hf, hr, hname⟩ := hmv.name
  obtain ⟨hstays, hgoes⟩ := newParentFor_named (planMove_cases hplan).2.2.2.1
  have hsound' := hp.sound.ensures_moveAndRename id parent rdn () p' hok
  have hrdn : mv.name.rdn? = some r := by
    rw [hname]
    rfl
  have hmoved := hrelocated.movedSubtree hp h.arranged hmv hrdn hsound'
  exact ⟨mv.top, mv.oldParent, mv.parent, f, r, hmv.top, hmv.oldParent, hstays, hgoes, hf, hr,
    hname ▸ hmoved⟩

end Partition

/-- The second unit goes below the first one, with a new name and with the person below it. -/
theorem Partition.moved_subtree_sample : Sample.partition.Reachable ∧ ∃ p' e e',
    moveAndRename 3 (some (Sample.unit "A")) (some ⟨⟨"ou"⟩, "C"⟩) Sample.partition = .ok () p' ∧
      Sample.partition.get? 4 = some e ∧ p'.get? 4 = some e' ∧ e'.parent = some 3 ∧
      e'.attributes = e.attributes ∧ (2, 4) ∈ p'.system.subLevel.tables.tuples .forward := by
  have hok := errorOf?_eq_none.1 (by decide +kernel :
    errorOf? (moveAndRename 3 (some (Sample.unit "A")) (some ⟨⟨"ou"⟩, "C"⟩))
      Sample.partition = none)
  obtain ⟨_, _, q, f, _, _, _, _, hgoes, hf, _, hmoved⟩ :=
    Reachable.moved_subtree Sample.reachable hok
  have hunit : Sample.partition.idOf? (Sample.unit "A") = some 2 := by decide +kernel
  obtain rfl : q = 2 := Option.some.inj ((hgoes _ rfl).symm.trans hunit)
  obtain ⟨e, he, _, hparent, _⟩ := Sample.person_stored
  have hbelow : Sample.partition.Above 3 4 := .single ⟨e, he, hparent⟩
  have houtside : ¬Sample.partition.Above 3 2 := by
    intro habove
    have hhas := Index.has_iff.2 ((Sample.reachable.arranged.subLevel 3 2).2 ⟨⟨f, hf⟩, habove⟩)
    exact absurd hhas (by decide +kernel)
  obtain ⟨e', he', _, _, hkept⟩ := hmoved.members 4 e he hbelow
  obtain ⟨hparent', hattributes⟩ := hkept (by decide)
  exact ⟨Sample.reachable, _, e, e', hok, he, he', hparent'.trans hparent, hattributes,
    (hmoved.crossing .forward 2 4 ⟨e, he⟩ hbelow houtside).2 .refl⟩

end Directory
