import Directory.Proofs.Partition.AliasScopes

/-!
# Children of aliases

An addition and a move put nothing below an alias. That an entry which already has children becomes
an alias is checked nowhere.

* `Partition.parentFor_isAlias`, `Partition.planMove_isAlias`: the parent that an entry gets is no
  alias.
* `Write.Covers`: a write makes an entry with a child an alias.
* `Partition.ReachedBy.alias_children`: **no alias has children after a history without such a
  write, and only these writes give children to an alias**.
-/

namespace Directory

/-- The write modifies the entry, or it moves or renames it. -/
def Write.Reworks (w : Write) (a : EntryId) : Prop :=
  (∃ ms, w = .modify a ms) ∨ ∃ parent rdn, w.relocation? = some (a, parent, rdn)

/-- The write reworks an entry with a child, which was no alias and is one afterwards. -/
def Write.Covers (p : Partition) (w : Write) (a i : EntryId) : Prop :=
  w.Reworks a ∧ p.HasParent i a ∧ ¬p.IsAlias a ∧ (w.after p).IsAlias a

namespace Partition

variable {p p' q : Partition} {c : Config} {ws ws₁ : List Write} {w : Write} {e : Entry} {n : Nat}
  {a i id : EntryId}

/-! ## New parents -/

/-- A new entry is put below an entry that is no alias. -/
theorem parentFor_isAlias {name : Dn} (h : p.parentFor name = .ok (some a)) :
    p.Stored a ∧ ¬p.IsAlias a := by
  rcases parentFor_eq_ok h with ⟨hnone, _⟩ | ⟨_, f, ha, _, hf, _, hnot⟩
  · cases hnone
  · cases ha
    exact ⟨⟨f, hf⟩, fun halias => Bool.false_ne_true (hnot.symm.trans ((isAlias_iff hf).1 halias))⟩

/-- A move leaves an entry with its parent, or brings it below an entry that is no alias. -/
theorem planMove_isAlias {parent : Option Dn} {rdn : Option Rdn} {mv : Move}
    (h : p.planMove id parent rdn = .ok mv) : mv.parent = mv.oldParent ∨ ¬p.IsAlias mv.parent := by
  obtain ⟨_, _, _, hparent, _⟩ := planMove_cases h
  refine (newParentFor_eq_ok hparent).imp_right ?_
  rintro ⟨_, f, hf, hnot⟩ halias
  exact Bool.false_ne_true (hnot.symm.trans ((isAlias_iff hf).1 halias))

theorem Rewritten.isAlias_iff {rdn : Option Rdn} {mv : Move} (h : p.Rewritten mv p')
    (hown : p.OwnNumbers) (hmv : p.Planned id rdn mv) (ha : a ≠ id) :
    p'.IsAlias a ↔ p.IsAlias a := by
  by_cases hmem : a ∈ mv.members
  · obtain ⟨current, moved, ⟨hcurrent, hmoved⟩, hget⟩ := h.moved a hmem
    have hattributes : moved.attributes = current.attributes :=
      ((movedEntry_eq_ok hmoved).2.2.2 (hmv.top_id hown ▸ ha)).2
    have hsame : moved.isAlias = current.isAlias := by
      simp only [Entry.isAlias, Entry.hasAliasClass, Entry.aliasTarget?, Entry.valuesOf,
        hattributes]
    rw [Partition.isAlias_iff hget, Partition.isAlias_iff hcurrent, hsame]
  · exact isAlias_congr (h.others a hmem)

/-! ## One write -/

theorem Entered.child_of_alias {e' : Entry}
    (h' : Entered { p with nextId := p.nextId + 1 } { e' with id := p.nextId } p')
    (ht : p.Arranged) (hfree : p.get? p.nextId = none) (he : p.newEntry e = .ok e')
    (hchild : p'.HasParent i a) (halias : p'.IsAlias a) : p.HasParent i a ∧ p.IsAlias a := by
  have hother : ∀ j, j ≠ p.nextId → p'.get? j = p.get? j := fun j hj =>
    get?_inserted_of_ne h'.master hj
  have hwas : p.Stored a → p.IsAlias a := fun hstored =>
    (isAlias_congr (hother a (hstored.ne hfree))).1 halias
  by_cases hi : i = p.nextId
  · -- the new entry is the child: its parent was looked at
    subst hi
    have hparent : e'.parent = some a := (hasParent_iff (get?_inserted h'.master)).1 hchild
    obtain ⟨hstored, hnot⟩ := parentFor_isAlias (hparent ▸ (newEntry_eq_ok he).2.2.1)
    exact absurd (hwas hstored) hnot
  · have hold : p.HasParent i a := (redirects_of_get? hother i hi a).1 hchild
    exact ⟨hold, hwas (ht.parents i a hold)⟩

theorem Rewritten.child_of_top {rdn : Option Rdn} {mv : Move} (h : p.Rewritten mv p')
    (ht : p.Arranged) (hown : p.OwnNumbers) (hmv : p.Planned id rdn mv)
    (hchild : p'.HasParent i id) : p.HasParent i id := by
  refine (h.redirects hown hmv i ?_ id).1 hchild
  rintro rfl
  exact h.acyclic ht hown hmv i (.single hchild)

theorem Relocated.child_of_alias {parent : Option Dn} {rdn : Option Rdn} {mv : Move}
    (h' : p.Relocated mv p') (ht : p.Arranged) (hown : p.OwnNumbers)
    (hmv : p.planMove id parent rdn = .ok mv) (ha : a ≠ id) (hchild : p'.HasParent i a)
    (halias : p'.IsAlias a) : p.HasParent i a ∧ p.IsAlias a := by
  have hplan := planMove_eq_ok hmv
  have hrewritten := h'.rewritten
  have hwas : p.IsAlias a := (hrewritten.isAlias_iff hown hplan ha).1 halias
  refine ⟨?_, hwas⟩
  by_cases hi : i = id
  · subst hi
    have hmem : i ∈ mv.members := (ht.mem_members hplan).2 ⟨⟨_, hplan.top⟩, .refl⟩
    have hparent := (hrewritten.hasParent_top hown hplan hmem).1 hchild
    rcases planMove_isAlias hmv with hstays | hnot
    · exact hplan.hasParent_iff.2 (hparent.trans hstays)
    · exact absurd (hparent ▸ hwas) hnot
  · exact (hrewritten.redirects hown hplan i hi a).1 hchild

/-- Where an alias has a child after a write, it had the child before; it was an alias, or the write
reworks it. -/
theorem Valued.child_of_alias (h : p.Valued n) (ht : p.Arranged)
    (hn : n + w.isAdd.toNat < UInt64.size) (h' : p.Leaves w p') (hchild : p'.HasParent i a)
    (halias : p'.IsAlias a) : p.HasParent i a ∧ (p.IsAlias a ∨ w.Reworks a) := by
  cases h' with
  | refused w => exact ⟨hchild, .inl halias⟩
  | skipped e => exact ⟨hchild, .inl halias⟩
  | added he h' => exact (h'.child_of_alias ht (h.get?_nextId hn) he hchild halias).imp_right .inl
  | @amended id ms old new _ hold hnew hcheck h' =>
    obtain ⟨hid, _, hparent⟩ := modifiedBy_eq_ok hnew
    have hnumber : new.id = id := hid.trans (h.own id old hold)
    subst hnumber
    refine ⟨hasParent_amended hold hparent h'.master ▸ hchild, ?_⟩
    by_cases ha : a = new.id
    · exact .inr (.inl ⟨ms, ha ▸ rfl⟩)
    · exact .inl ((isAlias_congr (get?_inserted_of_ne h'.master ha)).1 halias)
  | @removed id e _ he hchildren h' =>
    obtain ⟨f, hf, hparent⟩ := hchild
    obtain ⟨g, hg, halias⟩ := halias
    exact ⟨⟨f, (get?_of_erased h'.master hf).2, hparent⟩,
      .inl ⟨g, (get?_of_erased h'.master hg).2, halias⟩⟩
  | @relocated _ id parent rdn mv _ hw hmv h' =>
    by_cases ha : a = id
    · subst ha
      exact ⟨h'.rewritten.child_of_top ht h.own (planMove_eq_ok hmv) hchild,
        .inr (.inr ⟨parent, rdn, hw⟩)⟩
    · exact (h'.child_of_alias ht h.own hmv ha hchild halias).imp_right .inl
  | indexAdded h' =>
    have hmaster : p'.master = p.master := by rw [h'.rest]
    exact ⟨hasParent_congr hmaster ▸ hchild, .inl ((isAlias_congr (get?_congr hmaster a)).1 halias)⟩

theorem Valued.child_of_reworked (h : p.Valued n) (ht : p.Arranged) (h' : p.Leaves w p')
    (hw : w.Reworks a) (hchild : p.HasParent i a) : p'.HasParent i a := by
  cases h' with
  | refused w => exact hchild
  | skipped e => exact hchild
  | amended hold hnew hcheck h' =>
    obtain ⟨hid, _, hparent⟩ := modifiedBy_eq_ok hnew
    rw [← hid.trans (h.own _ _ hold)] at hold
    rw [hasParent_amended hold hparent h'.master]
    exact hchild
  | relocated hmoves hmv h' =>
    refine (h'.rewritten.redirects h.own (planMove_eq_ok hmv) i ?_ a).2 hchild
    rintro rfl
    rcases hw with ⟨ms, rfl⟩ | ⟨parent, rdn, hw⟩
    · cases hmoves
    · cases hmoves.symm.trans hw
      exact ht.acyclic _ (.single hchild)
  | added _ _ | removed _ _ _ | indexAdded _ =>
    rcases hw with ⟨ms, hw⟩ | ⟨parent, rdn, hw⟩ <;> cases hw

/-! ## Histories -/

/-- Some write of the history has made an alias of the entry while it had the child. -/
def Covered (c : Config) (ws : List Write) (a i : EntryId) : Prop :=
  ∃ ws₁ w p, ws₁ ++ [w] <+: ws ∧ p.ReachedBy c ws₁ ∧ w.Covers p a i

theorem Covered.mono (h : Covered c ws₁ a i) (hinit : ws₁ <+: ws) : Covered c ws a i := by
  obtain ⟨ws₂, w, q, hw, hq, hcovers⟩ := h
  exact ⟨ws₂, w, q, hw.trans hinit, hq, hcovers⟩

/-- A child of an alias was its child when a write of the history made an alias of it. -/
theorem ReachedBy.covered (h : p.ReachedBy c ws) (hchild : p.HasParent i a)
    (halias : p.IsAlias a) : Covered c ws a i := by
  refine h.along (I := fun ws p => p.HasParent i a → p.IsAlias a → Covered c ws a i)
    (fun p₀ hp₀ hchild _ => ?_) (fun ws₁ w q _ hq hnext ih hchild halias => ?_) hchild halias
  · obtain ⟨e, he, _⟩ := hchild
    rw [get?, (ofConfig_empty hp₀).1] at he
    cases he
  · obtain ⟨n, hroom, hvalued, hleaves⟩ := hq.leaves hnext
    obtain ⟨hbefore, hwas⟩ := hvalued.child_of_alias hq.arranged hroom hleaves hchild halias
    by_cases hold : q.IsAlias a
    · exact (ih hbefore hold).mono (List.prefix_append ..)
    · exact ⟨ws₁, w, q, List.prefix_rfl, hq, hwas.resolve_left hold, hbefore, hold, halias⟩

/-- **Children of aliases.** A child of an alias was its child when a modification, a move or a
renaming of its parent made an alias of that. So no alias has children at any time of a history
exactly if no write of the history does this to an entry with children. -/
theorem ReachedBy.alias_children (h : p.ReachedBy c ws) :
    (∀ i a, p.HasParent i a → p.IsAlias a → Covered c ws a i) ∧
    ((∀ ws₁ (q : Partition), ws₁ <+: ws → q.ReachedBy c ws₁ →
      ∀ i a, q.HasParent i a → ¬q.IsAlias a) ↔
      ∀ a i, ¬Covered c ws a i) := by
  refine ⟨fun i a => h.covered, fun hnever a i => ?_, fun hnone ws₁ q hinit hq i a hchild halias =>
    hnone a i ((hq.covered hchild halias).mono hinit)⟩
  rintro ⟨ws₁, w, q, hinit, hq, hreworks, hchild, _, halias⟩
  have hnext : (w.after q).ReachedBy c (ws₁ ++ [w]) :=
    hq.next (Nat.lt_of_le_of_lt hinit.sublist.countP_le h.adds)
  obtain ⟨n, _, hvalued, hleaves⟩ := hq.leaves hnext
  exact hnever _ _ hinit hnext i a (hvalued.child_of_reworked hq.arranged hleaves hreworks hchild)
    halias

end Partition

/-! ### A unit that becomes an alias -/

namespace Sample

/-- The second unit becomes an alias of the first one while it has a child. -/
def coverWrites : List Write := [
  .add (.ofName suffix), .add (.ofName (unit "A")), .add (.ofName (unit "B")),
  .add (.ofName ((unit "B").child ⟨⟨"cn"⟩, "Ann"⟩)), .modify 3 aliasOfA]

theorem coverWrites_reachedBy : (after coverWrites).ReachedBy .standard coverWrites :=
  after_reachedBy coverWrites (by decide)

theorem coverWrites_parsed : ∀ w ∈ coverWrites, w.Parsed := by
  have hperson : ((unit "B").child ⟨⟨"cn"⟩, "Ann"⟩).Parsed :=
    parsed_of_parse "cn=Ann,ou=B,dc=example,dc=com" (by decide +kernel)
  simp only [coverWrites, List.forall_mem_cons]
  exact ⟨suffix_parsed, unitA_parsed, unitB_parsed, hperson, trivial, fun _ h => nomatch h⟩

theorem coverWrites_child : (after coverWrites).HasParent 4 3 := by
  have h : ((after coverWrites).get? 4).any (·.parent == some 3) = true := by decide +kernel
  obtain ⟨e, he, hparent⟩ := (Option.any_eq_true _ _).1 h
  exact ⟨e, he, beq_iff_eq.1 hparent⟩

theorem coverWrites_alias : (after coverWrites).IsAlias 3 := by
  have h : ((after coverWrites).get? 3).any Entry.isAlias = true := by decide +kernel
  obtain ⟨e, he, halias⟩ := (Option.any_eq_true _ _).1 h
  exact ⟨e, he, halias⟩

end Sample

/-- The modification is what has given the alias its child. -/
theorem Partition.covered_child_sample :
    (Sample.after Sample.coverWrites).ReachedBy .standard Sample.coverWrites ∧
      Partition.Covered .standard Sample.coverWrites 3 4 :=
  ⟨Sample.coverWrites_reachedBy, (Partition.ReachedBy.alias_children Sample.coverWrites_reachedBy).1
    4 3 Sample.coverWrites_child Sample.coverWrites_alias⟩

/-- An alias with a child. -/
theorem Partition.alias_child_sample :
    let p := Sample.after Sample.coverWrites
    p.ReachedBy .standard Sample.coverWrites ∧ (∀ w ∈ Sample.coverWrites, w.Parsed) ∧
      p.IsAlias 3 ∧ p.HasParent 4 3 :=
  ⟨Sample.coverWrites_reachedBy, Sample.coverWrites_parsed, Sample.coverWrites_alias,
    Sample.coverWrites_child⟩

end Directory
