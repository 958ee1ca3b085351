import Mathlib.Data.List.Perm.Subperm
import Mathlib.Logic.Relation
import Directory.Proofs.Partition.Values

/-!
# The indices of the tree in step with the entries

* `Partition.HasParent`, `Partition.Above`: the parents that the entries hold, and the ways up that
  they make.
* `Partition.WayUp`: the rounds of the way up without a bound; `ancestorsWithin_eq_ok`: with a bound
  it comes to the same end if the rounds are no more than that.
* `Partition.ancestors_eq_ok`: the ancestors of an entry are what lies on its way up.
* `Partition.Arranged`: parents are stored, no way up leads back, and the indices of names and of
  the tree hold exactly the names, the parents and the ways up.
* `Redirects`: a relation that differs from another in what follows one point; what becomes of its
  ways when a subtree moves.
* `Partition.Rewritten.member`, `redirects`, `parents`, `acyclic`, `above_iff`: what a move makes of
  its members, of the parents and of the ways up.
* `Partition.Arranged.added`, `removed`, `relocated`: the indices stay in step;
  `Partition.ReachedBy.arranged`: **they are so after every history**.
-/

namespace Directory

open Relation

/-! ## Ways that are redirected at one point -/

/-- The relations agree on what follows a point other than `t`. -/
def Redirects {α : Type} (t : α) (r r' : α → α → Prop) : Prop := ∀ i, i ≠ t → ∀ q, r' i q ↔ r i q

namespace Redirects

variable {α : Type} {t i a : α} {r r' : α → α → Prop}

theorem symm (h : Redirects t r r') : Redirects t r' r := fun i hi q => (h i hi q).symm

theorem way_iff (h : Redirects t r r') (hi : ¬ReflTransGen r i t) :
    ReflTransGen r' i a ↔ ReflTransGen r i a := by
  constructor
  · intro hway
    induction hway using ReflTransGen.head_induction_on with
    | refl => exact .refl
    | head hstep _ ih =>
      have hstep := (h _ (fun e => hi (e ▸ .refl)) _).1 hstep
      exact .head hstep (ih fun hj => hi (.head hstep hj))
  · intro hway
    induction hway using ReflTransGen.head_induction_on with
    | refl => exact .refl
    | head hstep _ ih =>
      exact .head ((h _ (fun e => hi (e ▸ .refl)) _).2 hstep) (ih fun hj => hi (.head hstep hj))

theorem way_to (h : Redirects t r r') (hi : ReflTransGen r i t) : ReflTransGen r' i t := by
  induction hi using ReflTransGen.head_induction_on with
  | refl => exact .refl
  | @head j k hstep _ ih =>
    by_cases hj : j = t
    · rw [hj]
    · exact .head ((h j hj k).2 hstep) ih

theorem way_or (h : Redirects t r r') (hi : ReflTransGen r i a) :
    ReflTransGen r' i a ∨ (ReflTransGen r i t ∧ ReflTransGen r t a) := by
  induction hi using ReflTransGen.head_induction_on with
  | refl => exact .inl .refl
  | @head j k hstep hway ih =>
    by_cases hj : j = t
    · exact .inr ⟨hj ▸ .refl, hj ▸ .head hstep hway⟩
    · rcases ih with hway' | ⟨hto, hfrom⟩
      · exact .inl (.head ((h j hj k).2 hstep) hway')
      · exact .inr ⟨.head hstep hto, hfrom⟩

/-- No way leads back if none does so from where `t` is redirected to. -/
theorem acyclic (h : Redirects t r r') (hr : ∀ i, ¬TransGen r i i)
    (ht : ∀ q, r' t q → ¬ReflTransGen r q t) (i : α) : ¬TransGen r' i i := by
  have htop : ¬TransGen r' t t := by
    intro hcycle
    obtain ⟨q, hstep, hback⟩ := TransGen.head'_iff.1 hcycle
    exact ht q hstep ((h.way_iff (ht q hstep)).1 hback)
  intro hcycle
  obtain ⟨j, hstep, hback⟩ := TransGen.head'_iff.1 hcycle
  by_cases hi : i = t
  · exact htop (hi ▸ hcycle)
  · rcases h.symm.way_or hback with hback | ⟨hto, hfrom⟩
    · exact hr i (.head' ((h i hi j).1 hstep) hback)
    · exact htop (TransGen.trans_right hfrom (.head' hstep hto))

/-- Ways through `t` when what follows `t` becomes `q'` instead of `q`. -/
theorem moved_iff (h : Redirects t r r') (hr : ∀ i, ¬TransGen r i i)
    (hunique : Relator.RightUnique r) (hunique' : Relator.RightUnique r') {q q' : α}
    (hq : r t q) (hq' : r' t q') (hback : ¬ReflTransGen r q' t) (hi : ReflTransGen r i t) :
    ReflTransGen r' i a ↔ ReflTransGen r q' a ∨ (ReflTransGen r i a ∧ ¬ReflTransGen r q a) := by
  have hto := h.way_to hi
  constructor
  · intro hway
    by_cases hold : ReflTransGen r i a ∧ ¬ReflTransGen r q a
    · exact .inr hold
    · refine .inl ((h.way_iff hback).1 ?_)
      rcases ReflTransGen.total_of_right_unique hunique' hto hway with hfrom | hbelow
      · rcases ReflTransGen.cases_head hfrom with rfl | ⟨j, hj, hfrom⟩
        · exact absurd ⟨hi, fun hqt => hr t (.head' hq hqt)⟩ hold
        · exact hunique' hj hq' ▸ hfrom
      · have hbelow := h.symm.way_to hbelow
        rcases h.symm.way_or hway with hway | ⟨_, hfrom⟩
        · exact absurd ⟨hway, fun hqa => hr t (.head' hq (hqa.trans hbelow))⟩ hold
        · rcases ReflTransGen.cases_head hfrom with rfl | ⟨j, hj, hfrom⟩
          · exact absurd ⟨hi, fun hqt => hr t (.head' hq hqt)⟩ hold
          · exact hunique' hj hq' ▸ hfrom
  · rintro (hnew | ⟨hway, hold⟩)
    · exact hto.trans (.head hq' ((h.way_iff hback).2 hnew))
    · rcases h.way_or hway with hway | ⟨_, hfrom⟩
      · exact hway
      · rcases ReflTransGen.cases_head hfrom with rfl | ⟨j, hj, hfrom⟩
        · exact hto
        · exact absurd (hunique hj hq ▸ hfrom) hold

end Redirects

/-! ## Parents -/

namespace Partition

/-- The number is that of an entry. -/
def Stored (p : Partition) (id : EntryId) : Prop := ∃ e, p.get? id = some e

/-- The entry has the parent. -/
def HasParent (p : Partition) (id parent : EntryId) : Prop :=
  ∃ e, p.get? id = some e ∧ e.parent = some parent

/-- A way up, perhaps without a step, leads from the entry to `above`. -/
def Above (p : Partition) (above id : EntryId) : Prop := ReflTransGen p.HasParent id above

variable {p p' : Partition} {id : EntryId} {e : Entry}

theorem mem_keys : id ∈ p.master.keys ↔ p.Stored id := by
  rw [SortedMap.keys, List.mem_map]
  constructor
  · rintro ⟨⟨_, e⟩, h, rfl⟩
    exact ⟨e, SortedMap.get?_eq_some_iff.2 h⟩
  · rintro ⟨e, he⟩
    exact ⟨(id, e), SortedMap.get?_eq_some_iff.1 he, rfl⟩

theorem length_le_count {ids : List EntryId} (hnodup : ids.Nodup) (h : ∀ i ∈ ids, p.Stored i) :
    ids.length ≤ p.count := by
  have hsub : ids ⊆ p.master.keys := fun i hi => mem_keys.2 (h i hi)
  have hle := (List.subperm_of_subset hnodup hsub).length_le
  rwa [SortedMap.keys, List.length_map] at hle

theorem hasParent_unique (p : Partition) : Relator.RightUnique p.HasParent := by
  rintro i q q' ⟨e, he, hq⟩ ⟨e', he', hq'⟩
  rw [he] at he'
  cases he'
  exact Option.some.inj (hq.symm.trans hq')

theorem hasParent_iff (he : p.get? id = some e) {q : EntryId} :
    p.HasParent id q ↔ e.parent = some q := by
  constructor
  · rintro ⟨e', he', hq⟩
    rw [he] at he'
    cases he'
    exact hq
  · exact fun hq => ⟨e, he, hq⟩

theorem above_iff (he : p.get? id = some e) {a : EntryId} :
    p.Above a id ↔ a = id ∨ ∃ q, e.parent = some q ∧ p.Above a q := by
  rw [Above, ReflTransGen.cases_head_iff, eq_comm]
  simp only [hasParent_iff he]
  rfl

theorem hasParent_congr (hmaster : p'.master = p.master) : p'.HasParent = p.HasParent := by
  funext i q
  rw [HasParent, HasParent, get?_congr hmaster]

theorem hasParent_amended {old : Entry} (hold : p.get? e.id = some old)
    (hparent : e.parent = old.parent) (hmaster : p'.master = p.master.insert e.id e) :
    p'.HasParent = p.HasParent := by
  funext i q
  by_cases hi : i = e.id
  · subst hi
    rw [hasParent_iff (get?_inserted hmaster), hasParent_iff hold, hparent]
  · rw [HasParent, HasParent, get?_inserted_of_ne hmaster hi]

theorem exists_of_amended {old : Entry} (hold : p.get? e.id = some old) (hname : e.name = old.name)
    (hparent : e.parent = old.parent) (hmaster : p'.master = p.master.insert e.id e) {i : EntryId}
    {f : Entry} (hf : p'.get? i = some f) :
    ∃ f', p.get? i = some f' ∧ f'.name = f.name ∧ f'.parent = f.parent := by
  rcases get?_inserted_cases hmaster hf with ⟨rfl, rfl⟩ | ⟨_, hf⟩
  · exact ⟨old, hold, hname.symm, hparent.symm⟩
  · exact ⟨f, hf, rfl, rfl⟩

theorem Stored.ne (h : p.Stored i) (hfree : p.get? id = none) : i ≠ id := by
  rintro rfl
  obtain ⟨f, hf⟩ := h
  cases hfree.symm.trans hf

theorem stored_inserted (hmaster : p'.master = p.master.insert e.id e) (h : p.Stored id) :
    p'.Stored id := by
  by_cases hi : id = e.id
  · exact ⟨e, hi ▸ get?_inserted hmaster⟩
  · rwa [Stored, get?_inserted_of_ne hmaster hi]

theorem stored_of_newEntry {e' : Entry} (h : p.newEntry e = .ok e') {q : EntryId}
    (hq : e'.parent = some q) : p.Stored q := by
  rcases parentFor_eq_ok (newEntry_eq_ok h).2.2.1 with ⟨hnone, _⟩ | ⟨q', f, hsome, _, hf, _⟩
  · cases hnone.symm.trans hq
  · cases hsome.symm.trans hq
    exact ⟨f, hf⟩

/-- A change of one entry redirects the ways up at it. -/
theorem redirects_of_get? (h : ∀ i, i ≠ id → p'.get? i = p.get? i) :
    Redirects id p.HasParent p'.HasParent := by
  intro i hi q
  rw [HasParent, h i hi]
  rfl

theorem not_above_of_leaf (h : ∀ i, ¬p.HasParent i id) {i : EntryId} (hi : i ≠ id) :
    ¬p.Above id i := by
  intro hway
  rcases ReflTransGen.cases_tail hway with heq | ⟨j, _, hstep⟩
  · exact hi heq.symm
  · exact h j hstep

/-! ## The way up, round by round -/

section Rounds

variable {parent : Option EntryId} {as : List EntryId} {a : EntryId}

/-- Followed from `parent`, the way up ends after one round for each of these entries: the entry is
noted, and the way goes on from its parent. -/
inductive WayUp (p : Partition) : (parent : Option EntryId) → List EntryId → Prop
  | top : WayUp p none []
  | step {id : EntryId} {e : Entry} {as : List EntryId} (he : p.get? id = some e)
      (h : WayUp p e.parent as) : WayUp p (some id) (id :: as)

/-- The bound on the rounds matters only to ways that have more. -/
theorem ancestorsWithin_eq_ok {n : Nat} :
    p.ancestorsWithin n parent = .ok as ↔ p.WayUp parent as ∧ as.length ≤ n := by
  constructor
  · intro h
    induction n generalizing parent as with
    | zero =>
      cases parent with
      | none =>
        cases h
        exact ⟨.top, Nat.le_refl 0⟩
      | some id => cases h
    | succ n ih =>
      cases parent with
      | none =>
        cases h
        exact ⟨.top, Nat.zero_le _⟩
      | some id =>
        obtain ⟨e, he, h⟩ := Except.bind_eq_ok.1 h
        obtain ⟨rest, hrest, h⟩ := Except.bind_eq_ok.1 h
        cases h
        obtain ⟨hway, hlength⟩ := ih hrest
        exact ⟨.step (lookup_eq_ok.1 he) hway, Nat.succ_le_succ hlength⟩
  · rintro ⟨hway, hlength⟩
    induction hway generalizing n with
    | top => rw [ancestorsWithin]
    | @step id e as he _ ih =>
      obtain ⟨n, rfl⟩ := Nat.exists_eq_add_of_le' (Nat.zero_lt_of_lt hlength)
      rw [ancestorsWithin, lookup_eq_ok.2 he, Except.ok_bind, ih (Nat.le_of_succ_le_succ hlength)]
      rfl

namespace WayUp

theorem mem_iff (h : p.WayUp parent as) : a ∈ as ↔ ∃ q, parent = some q ∧ p.Above a q := by
  induction h with
  | top => simp
  | step he _ ih =>
    rw [List.mem_cons, ih, ← above_iff he]
    simp

theorem pairwise (h : p.WayUp parent as) : as.Pairwise (TransGen p.HasParent) := by
  induction h with
  | top => exact .nil
  | step he h ih =>
    refine .cons (fun a ha => ?_) ih
    obtain ⟨q, hq, habove⟩ := h.mem_iff.1 ha
    exact .head' ⟨_, he, hq⟩ habove

theorem stored (h : p.WayUp parent as) : ∀ a ∈ as, p.Stored a := by
  induction h with
  | top => exact List.forall_mem_nil _
  | step he _ ih => exact List.forall_mem_cons.2 ⟨⟨_, he⟩, ih⟩

end WayUp

/-- The ancestors are what lies on the way up. -/
theorem ancestors_eq_ok (h : p.ancestors parent = .ok as) :
    a ∈ as ↔ ∃ q, parent = some q ∧ p.Above a q :=
  have ⟨hway, _⟩ := ancestorsWithin_eq_ok.1 h
  hway.mem_iff

end Rounds

/-! ## Indices of the tree -/

/-- The entries make a forest, and the indices of names and of the tree hold what it is. -/
structure Arranged (p : Partition) : Prop where
  parents : ∀ i q, p.HasParent i q → p.Stored q
  acyclic : ∀ i, ¬TransGen p.HasParent i i
  named : ∀ n i, p.Named n i ↔ ∃ e, p.get? i = some e ∧ n = e.name.normalized
  oneLevel : ∀ q i, p.OneLevel q i ↔ p.HasParent i q
  subLevel : ∀ a i, p.SubLevel a i ↔ p.Stored i ∧ p.Above a i

/-! ## Subtrees that move -/

section Moves

variable {rdn : Option Rdn} {mv : Move}

namespace Planned

theorem top_id (hmv : p.Planned id rdn mv) (hown : p.OwnNumbers) : mv.top.id = id :=
  hown id mv.top hmv.top

theorem parent_stored (hmv : p.Planned id rdn mv) : p.Stored mv.parent :=
  have ⟨e, _, he, _⟩ := hmv.name
  ⟨e, he⟩

theorem hasParent_iff (hmv : p.Planned id rdn mv) {q : EntryId} :
    p.HasParent id q ↔ q = mv.oldParent := by
  rw [Partition.hasParent_iff hmv.top, hmv.oldParent, Option.some.injEq]
  exact eq_comm

end Planned

namespace Arranged

theorem mem_members (h : p.Arranged) (hmv : p.Planned id rdn mv) {i : EntryId} :
    i ∈ mv.members ↔ p.Stored i ∧ p.Above id i := by
  rw [hmv.members, Index.mem_ids, ← h.subLevel id i]
  rfl

/-- The new parent does not lie below the moved entry; for the old one that holds anyway. -/
theorem not_above_parent (h : p.Arranged) (hown : p.OwnNumbers) (hmv : p.Planned id rdn mv) :
    ¬p.Above id mv.parent := by
  intro hway
  rcases hmv.parent with heq | hsub
  · exact h.acyclic id (.head' (hmv.hasParent_iff.2 rfl) (heq ▸ hway))
  · rw [hmv.top_id hown, h.subLevel] at hsub
    exact hsub ⟨hmv.parent_stored, hway⟩

end Arranged

/-- The members have the records that the move makes of theirs, and other entries keep theirs. -/
structure Rewritten (p : Partition) (mv : Move) (p' : Partition) : Prop where
  others : ∀ i, i ∉ mv.members → p'.get? i = p.get? i
  moved : ∀ m ∈ mv.members, ∃ current moved, p.Moves mv m current moved ∧ p'.get? m = some moved

namespace Rewritten

/-- What a member was and is: the name has another end, and only the moved entry another parent. -/
theorem member (h' : p.Rewritten mv p') (hown : p.OwnNumbers) (hmv : p.Planned id rdn mv)
    {i : EntryId} (hi : i ∈ mv.members) :
    ∃ e e', p.get? i = some e ∧ p'.get? i = some e' ∧
      e.name.rebase? mv.top.name mv.name = some e'.name ∧
      (i = id → e'.parent = some mv.parent) ∧ (i ≠ id → e'.parent = e.parent) := by
  obtain ⟨current, moved, ⟨hcurrent, hmoved⟩, hget⟩ := h'.moved i hi
  obtain ⟨_, hrebase, htop, hother⟩ := movedEntry_eq_ok hmoved
  rw [hmv.top_id hown] at htop hother
  exact ⟨current, moved, hcurrent, hget, hrebase, fun hi => (htop hi).1, fun hi => (hother hi).1⟩

theorem stored_iff (h' : p.Rewritten mv p') {i : EntryId} : p'.Stored i ↔ p.Stored i := by
  by_cases hi : i ∈ mv.members
  · obtain ⟨current, moved, hmoves, hmoved⟩ := h'.moved i hi
    exact ⟨fun _ => ⟨current, hmoves.1⟩, fun _ => ⟨moved, hmoved⟩⟩
  · rw [Stored, Stored, h'.others i hi]

theorem redirects (h' : p.Rewritten mv p') (hown : p.OwnNumbers) (hmv : p.Planned id rdn mv) :
    Redirects id p.HasParent p'.HasParent := by
  intro i hi q
  by_cases hmem : i ∈ mv.members
  · obtain ⟨e, e', he, he', _, _, hparent⟩ := h'.member hown hmv hmem
    rw [hasParent_iff he', hasParent_iff he, hparent hi]
  · rw [HasParent, h'.others i hmem]
    rfl

theorem hasParent_top (h' : p.Rewritten mv p') (hown : p.OwnNumbers) (hmv : p.Planned id rdn mv)
    (hid : id ∈ mv.members) {q : EntryId} : p'.HasParent id q ↔ q = mv.parent := by
  obtain ⟨e, e', _, he', _, hparent, _⟩ := h'.member hown hmv hid
  rw [hasParent_iff he', hparent rfl, Option.some.injEq]
  exact eq_comm

/-- All parents are stored once the records are rewritten. -/
theorem parents (h' : p.Rewritten mv p') (h : p.Arranged) (hown : p.OwnNumbers)
    (hmv : p.Planned id rdn mv) {i q : EntryId} (hq : p'.HasParent i q) : p'.Stored q := by
  rw [h'.stored_iff]
  by_cases hi : i = id
  · have hid : id ∈ mv.members := (h.mem_members hmv).2 ⟨⟨_, hmv.top⟩, .refl⟩
    exact (h'.hasParent_top hown hmv hid).1 (hi ▸ hq) ▸ hmv.parent_stored
  · exact h.parents i q ((h'.redirects hown hmv i hi q).1 hq)

/-- No way up leads back once the records are rewritten, whatever has become of the indices. -/
theorem acyclic (h' : p.Rewritten mv p') (h : p.Arranged) (hown : p.OwnNumbers)
    (hmv : p.Planned id rdn mv) (i : EntryId) : ¬TransGen p'.HasParent i i := by
  refine (h'.redirects hown hmv).acyclic h.acyclic (fun q hq => ?_) i
  have hid : id ∈ mv.members := (h.mem_members hmv).2 ⟨⟨_, hmv.top⟩, .refl⟩
  exact (h'.hasParent_top hown hmv hid).1 hq ▸ h.not_above_parent hown hmv

/-- Above a member is what is above the new parent, and what was above it but not above the old
parent. -/
theorem above_iff (h' : p.Rewritten mv p') (h : p.Arranged) (hown : p.OwnNumbers)
    (hmv : p.Planned id rdn mv) {i a : EntryId} (hi : p.Above id i) :
    p'.Above a i ↔ p.Above a mv.parent ∨ (p.Above a i ∧ ¬p.Above a mv.oldParent) := by
  have hid : id ∈ mv.members := (h.mem_members hmv).2 ⟨⟨_, hmv.top⟩, .refl⟩
  exact (h'.redirects hown hmv).moved_iff h.acyclic p.hasParent_unique p'.hasParent_unique
    (hmv.hasParent_iff.2 rfl) ((h'.hasParent_top hown hmv hid).2 rfl)
    (h.not_above_parent hown hmv) hi

end Rewritten

namespace Relocated

theorem rewritten (h' : p.Relocated mv p') : p.Rewritten mv p' := ⟨h'.others, h'.moved⟩

/-- The index of names holds the new names if it held the old ones. -/
theorem named_iff (h' : p.Relocated mv p')
    (h : ∀ n i, p.Named n i ↔ ∃ e, p.get? i = some e ∧ n = e.name.normalized) {n : String}
    {i : EntryId} : p'.Named n i ↔ ∃ e, p'.get? i = some e ∧ n = e.name.normalized := by
  rw [h'.named, h]
  by_cases hi : i ∈ mv.members
  · obtain ⟨current, moved, hmoves, hget⟩ := h'.moved i hi
    simp only [hi, true_and, hget, hmoves.1]
    constructor
    · rintro (⟨c, m, hm, rfl⟩ | ⟨⟨e, he, rfl⟩, hne⟩)
      · exact ⟨moved, rfl, by rw [(hmoves.unique hm).2]⟩
      · exact absurd ⟨current, moved, hmoves, by cases he; rfl⟩ hne
    · rintro ⟨e, he, rfl⟩
      cases he
      exact .inl ⟨current, moved, hmoves, rfl⟩
  · simp [hi, h'.others i hi]

end Relocated

end Moves

/-! ## What writes leave -/

namespace Arranged

theorem bare (c : Config) (suffix : Dn) : (bare c suffix).Arranged where
  parents i q h := by
    obtain ⟨e, he, _⟩ := h
    cases he
  acyclic i h := by
    obtain ⟨q, ⟨e, he, _⟩, _⟩ := TransGen.head'_iff.1 h
    cases he
  named n i := ⟨fun h => absurd h Index.not_has_empty, fun ⟨_, he, _⟩ => nomatch he⟩
  oneLevel q i := ⟨fun h => absurd h Index.not_has_empty, fun ⟨_, he, _⟩ => nomatch he⟩
  subLevel a i := ⟨fun h => absurd h Index.not_has_empty, fun ⟨⟨_, he⟩, _⟩ => nomatch he⟩

theorem skipped (h : p.Arranged) : Arranged { p with nextId := p.nextId + 1 } :=
  ⟨h.parents, h.acyclic, h.named, h.oneLevel, h.subLevel⟩

theorem acyclic_inserted (h : p.Arranged) (hfree : p.get? e.id = none)
    (hparent : ∀ q, e.parent = some q → p.Stored q)
    (hmaster : p'.master = p.master.insert e.id e) (i : EntryId) : ¬TransGen p'.HasParent i i := by
  have hredirects : Redirects e.id p.HasParent p'.HasParent :=
    redirects_of_get? fun i => get?_inserted_of_ne hmaster
  refine hredirects.acyclic h.acyclic (fun q hq => ?_) i
  refine not_above_of_leaf (fun j hstep => (h.parents j _ hstep).ne hfree rfl) ?_
  exact (hparent q ((hasParent_iff (get?_inserted hmaster)).1 hq)).ne hfree

theorem parents_inserted (h : p.Arranged) (hparent : ∀ q, e.parent = some q → p.Stored q)
    (hmaster : p'.master = p.master.insert e.id e) {i q : EntryId} (hq : p'.HasParent i q) :
    p'.Stored q := by
  refine stored_inserted hmaster ?_
  by_cases hi : i = e.id
  · exact hparent q ((hasParent_iff (get?_inserted hmaster)).1 (hi ▸ hq))
  · exact h.parents i q ((redirects_of_get? (fun i => get?_inserted_of_ne hmaster) i hi q).1 hq)

/-- An entry whose number was free and whose parent is stored. -/
theorem added (h : p.Arranged) (hfree : p.get? e.id = none)
    (hparent : ∀ q, e.parent = some q → p.Stored q) (h' : p.Entered e p') : p'.Arranged := by
  have hself : p'.get? e.id = some e := get?_inserted h'.master
  have hother : ∀ i, i ≠ e.id → p'.get? i = p.get? i := fun i => get?_inserted_of_ne h'.master
  have hredirects : Redirects e.id p.HasParent p'.HasParent := redirects_of_get? hother
  have hnone : ∀ q, ¬p.HasParent e.id q := fun q ⟨f, hf, _⟩ => Stored.ne ⟨f, hf⟩ hfree rfl
  have havoid : ∀ i, i ≠ e.id → ¬p.Above e.id i := fun i =>
    not_above_of_leaf fun j hstep => (h.parents j _ hstep).ne hfree rfl
  refine ⟨fun i q hq => ?_, h.acyclic_inserted hfree hparent h'.master, fun n i => ?_,
    fun q i => ?_, fun a i => ?_⟩
  · exact h.parents_inserted hparent h'.master hq
  · rw [h'.named, h.named]
    by_cases hi : i = e.id
    · subst hi
      simp [hself, hfree]
    · simp [hother i hi, hi]
  · rw [h'.oneLevel, h.oneLevel]
    by_cases hi : i = e.id
    · subst hi
      rw [hasParent_iff hself]
      simp [hnone q]
    · rw [hredirects i hi q]
      simp [hi]
  · obtain ⟨above, habove, hsub⟩ := h'.subLevel
    rw [hsub, h.subLevel]
    by_cases hi : i = e.id
    · subst hi
      rw [above_iff hself, List.mem_cons, ancestors_eq_ok habove]
      simp [Stored, hself, hfree]
    · rw [Above, Above, hredirects.way_iff (havoid i hi), Stored, Stored, hother i hi]
      simp [hi]

theorem amended (h : p.Arranged) {old : Entry} (hold : p.get? e.id = some old)
    (hname : e.name = old.name) (hparent : e.parent = old.parent) (h' : p.Amended e.id e p') :
    p'.Arranged := by
  have hself : p'.get? e.id = some e := get?_inserted h'.master
  have hother : ∀ i, i ≠ e.id → p'.get? i = p.get? i := fun i => get?_inserted_of_ne h'.master
  have hhas : p'.HasParent = p.HasParent := hasParent_amended hold hparent h'.master
  have hstored : ∀ i, p'.Stored i ↔ p.Stored i := by
    intro i
    by_cases hi : i = e.id
    · subst hi
      simp [Stored, hself, hold]
    · rw [Stored, Stored, hother i hi]
  refine ⟨fun i q hq => ?_, fun i => ?_, fun n i => ?_, fun q i => ?_, fun a i => ?_⟩
  · exact (hstored q).2 (h.parents i q (hhas ▸ hq))
  · rw [hhas]
    exact h.acyclic i
  · rw [h'.named, h.named]
    by_cases hi : i = e.id
    · subst hi
      simp [hself, hold, hname]
    · rw [hother i hi]
  · rw [h'.oneLevel, h.oneLevel, hhas]
  · rw [h'.subLevel, h.subLevel, hstored, Above, Above, hhas]

/-- An entry without children. -/
theorem removed (h : p.Arranged) (he : p.get? id = some e) (hchildren : ∀ i, ¬p.OneLevel id i)
    (h' : p.Removed id e p') : p'.Arranged := by
  have hself : p'.get? id = none := get?_erased h'.master
  have hother : ∀ i, i ≠ id → p'.get? i = p.get? i := fun i => get?_erased_of_ne h'.master
  have hredirects : Redirects id p.HasParent p'.HasParent := redirects_of_get? hother
  have hnone : ∀ q, ¬p'.HasParent id q := by
    rintro q ⟨f, hf, _⟩
    rw [hself] at hf
    cases hf
  have hleaf : ∀ i, ¬p.HasParent i id := fun i hi => hchildren i ((h.oneLevel id i).2 hi)
  have havoid : ∀ i, i ≠ id → ¬p.Above id i := fun i => not_above_of_leaf hleaf
  refine ⟨fun i q hq => ?_, ?_, fun n i => ?_, fun q i => ?_, fun a i => ?_⟩
  · have hi : i ≠ id := fun hi => hnone q (hi ▸ hq)
    have hq := (hredirects i hi q).1 hq
    rw [Stored, hother q fun e => hleaf i (e ▸ hq)]
    exact h.parents i q hq
  · exact hredirects.acyclic h.acyclic fun q hq => absurd hq (hnone q)
  · rw [h'.named, h.named]
    by_cases hi : i = id
    · subst hi
      simp [hself, he]
    · simp [hother i hi, hi]
  · rw [h'.oneLevel, h.oneLevel]
    by_cases hi : i = id
    · subst hi
      rw [hasParent_iff he]
      simp [hnone q]
    · rw [hredirects i hi q]
      simp [hi]
  · rw [h'.subLevel, h.subLevel]
    by_cases hi : i = id
    · subst hi
      simp [Stored, hself]
    · rw [Above, Above, hredirects.way_iff (havoid i hi), Stored, Stored, hother i hi]
      simp [hi]

/-- A subtree under another parent, which does not lie in it, or with another name. -/
theorem relocated (h : p.Arranged) (hown : p.OwnNumbers) {rdn : Option Rdn} {mv : Move}
    (hmv : p.Planned id rdn mv) (h' : p.Relocated mv p') : p'.Arranged := by
  have hmembers : ∀ i, i ∈ mv.members ↔ p.Stored i ∧ p.Above id i := fun i => h.mem_members hmv
  have hredirects : Redirects id p.HasParent p'.HasParent := h'.rewritten.redirects hown hmv
  have hold : ∀ q, p.HasParent id q ↔ q = mv.oldParent := fun q => hmv.hasParent_iff
  have hnew : ∀ q, p'.HasParent id q ↔ q = mv.parent := fun q =>
    h'.rewritten.hasParent_top hown hmv ((hmembers id).2 ⟨⟨_, hmv.top⟩, .refl⟩)
  have hstays : mv.parent = mv.oldParent → p'.HasParent = p.HasParent := by
    intro heq
    funext i q
    by_cases hi : i = id
    · rw [hi, hnew, hold, heq]
    · exact propext (hredirects i hi q)
  refine ⟨fun i q => h'.rewritten.parents h hown hmv, h'.rewritten.acyclic h hown hmv,
    fun n i => h'.named_iff h.named, fun q i => ?_, fun a i => ?_⟩
  · by_cases heq : mv.parent = mv.oldParent
    · rw [(h'.stays heq).1, h.oneLevel, hstays heq]
    · rw [h'.oneLevel heq, h.oneLevel, hmv.id_eq]
      by_cases hi : i = id
      · rw [hi, hnew, hold]
        simp
      · rw [hredirects i hi q]
        simp [hi]
  · rw [h'.rewritten.stored_iff]
    by_cases heq : mv.parent = mv.oldParent
    · rw [(h'.stays heq).2, h.subLevel, Above, Above, hstays heq]
    · rw [h'.subLevel heq, h.subLevel, hmembers, ancestors_eq_ok hmv.ancestors,
        ancestors_eq_ok hmv.oldAncestors]
      simp only [Option.some.injEq, exists_eq_left']
      by_cases hi : p.Above id i
      · rw [h'.rewritten.above_iff h hown hmv hi]
        by_cases hs : p.Stored i <;> simp [hi, hs]
      · have hway : p'.Above a i ↔ p.Above a i := hredirects.way_iff hi
        rw [hway]
        simp [hi]

theorem write {n : Nat} (h : p.Arranged) (hp : p.Valued n) {w : Write}
    (hn : n + w.isAdd.toNat < UInt64.size) (h' : p.Leaves w p') : p'.Arranged := by
  cases h' with
  | refused w => exact h
  | skipped e => exact h.skipped
  | @added e e' p' he h' =>
    exact h.skipped.added (e := { e' with id := p.nextId }) (hp.get?_nextId hn)
      (fun q hq => stored_of_newEntry he hq) h'
  | @amended id ms old new p' hold hnew hcheck h' =>
    obtain ⟨hid, hname, hparent⟩ := modifiedBy_eq_ok hnew
    have hid : new.id = id := hid.trans (hp.own id old hold)
    subst hid
    exact h.amended hold hname hparent h'
  | removed he hchildren h' => exact h.removed he hchildren h'
  | relocated _ hmv h' => exact h.relocated hp.own (planMove_eq_ok hmv) h'
  | indexAdded h' =>
    have hmaster : p'.master = p.master := by rw [h'.rest]
    have hsystem : p'.system = p.system := by rw [h'.rest]
    have hget : ∀ i, p'.get? i = p.get? i := get?_congr hmaster
    have hhas := hasParent_congr hmaster
    refine ⟨fun i q hq => ?_, fun i => ?_, fun n i => ?_, fun q i => ?_, fun a i => ?_⟩
    · rw [Stored, hget]
      exact h.parents i q (hhas ▸ hq)
    · rw [hhas]
      exact h.acyclic i
    · rw [Named, hsystem, hget]
      exact h.named n i
    · rw [OneLevel, hsystem, hhas]
      exact h.oneLevel q i
    · rw [SubLevel, hsystem, Stored, hget, Above, hhas]
      exact h.subLevel a i

end Arranged

/-- After every history the indices of the tree are in step with the entries. -/
theorem ReachedBy.arranged {c : Config} {ws : List Write} (h : p.ReachedBy c ws) : p.Arranged := by
  obtain ⟨_, _, _, hp⟩ := h.induction (I := fun n p => p.Valued n ∧ p.Arranged) (fun _ => True)
    (fun _ _ => trivial) (fun _ => trivial) (fun suffix _ _ => ⟨.bare c suffix, .bare c suffix⟩)
    fun n p w _ hn ⟨hp, hp'⟩ => by
      have hleaves := hp.leaves w hn
      obtain ⟨m, hm, hw⟩ := hp.write hn hleaves
      exact ⟨m, hm, hw, hp'.write hp hn hleaves⟩
  exact hp

end Partition

end Directory
