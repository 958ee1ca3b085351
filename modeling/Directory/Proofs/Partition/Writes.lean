import Directory.Proofs.Partition.Refusal
import Directory.Proofs.Partition.Relocation

/-!
# What writes leave

What each write leaves when it succeeds, in terms of the partition before it.

* `Partition.ensures_add`, `ensures_modify`, `ensures_delete`, `ensures_moveAndRename`: the record
  that the write computes, and what its transaction leaves.
* `Partition.Planned`, `Partition.planMove_eq_ok`: what a move has been checked for.
* `Partition.IndexAdded`, `Partition.ensures_addIndex`: a new index holds what the entries hold.
-/

namespace Directory

namespace Partition

/-! ## Checks -/

section Checks

variable {p : Partition} {e : Entry} {id : EntryId}

theorem checkValues_eq_ok (h : p.checkValues e = .ok ()) {a : AttributeId} {v : Value}
    (hv : v ∈ e.valuesOf a) : ∃ k, p.schema.normalize a v = .ok k := by
  cases hget : e.attributes.get? a with
  | none =>
    rw [Entry.valuesOf, SortedMap.getD, hget] at hv
    cases hv
  | some vs =>
    rw [Entry.valuesOf, SortedMap.getD, hget, Option.getD_some] at hv
    have hb := Except.forM_eq_ok.1 h (a, vs) (SortedMap.get?_eq_some_iff.1 hget)
    obtain ⟨s, hs, _⟩ := Except.map_eq_ok.1 hb
    obtain ⟨ks, hks, _⟩ := Except.bind_eq_ok.1 hs
    exact Except.exists_mapM_eq_ok.1 ⟨ks, hks⟩ v hv

theorem parentFor_eq_ok {name : Dn} {parent : Option EntryId}
    (h : p.parentFor name = .ok parent) :
    (parent = none ∧ name.normalized = p.suffix.normalized) ∨
      ∃ q e, parent = some q ∧ p.idOf? (name.parent?.getD .root) = some q ∧ p.get? q = some e ∧
        name.isBelow p.suffix = true ∧ e.isAlias = false := by
  unfold parentFor at h
  split at h
  · rename_i hn
    cases h
    exact .inl ⟨rfl, hn⟩
  · split at h
    · cases h
    · rename_i hbelow
      have hbelow : name.isBelow p.suffix = true := by simpa using hbelow
      dsimp only at h
      split at h
      · rename_i q hq
        obtain ⟨e, he, h⟩ := Except.bind_eq_ok.1 h
        split at h
        · cases h
        · rename_i halias
          cases h
          exact .inr ⟨q, e, rfl, hq, lookup_eq_ok.1 he, hbelow, Bool.eq_false_iff.2 halias⟩
      · cases h

theorem newEntry_eq_ok {e' : Entry} (h : p.newEntry e = .ok e') :
    p.idOf? e.name = none ∧ e'.name = e.name ∧ p.parentFor e.name = .ok e'.parent ∧
      p.checkValues e' = .ok () := by
  unfold newEntry at h
  split at h
  · cases h
  · rename_i hfree
    obtain ⟨parent, hparent, h⟩ := Except.bind_eq_ok.1 h
    obtain ⟨e₁, he₁, h⟩ := Except.bind_eq_ok.1 h
    obtain ⟨_, hcheck, h⟩ := Except.bind_eq_ok.1 h
    cases h
    refine ⟨?_, (Entry.withNameValue_eq_ok he₁).2.1, hparent, hcheck⟩
    simpa using hfree

theorem removable_eq_ok {link : Option AliasLink} (h : p.removable id = .ok (e, link)) :
    p.get? id = some e ∧ ∀ i, ¬p.OneLevel id i := by
  unfold removable at h
  obtain ⟨e', he, h⟩ := Except.bind_eq_ok.1 h
  dsimp only at h
  split at h
  · cases h
  · rename_i hchildren
    split at h
    · cases h
    · obtain ⟨_, _, h⟩ := Except.bind_eq_ok.1 h
      cases h
      exact ⟨lookup_eq_ok.1 he, Index.countOf_eq_zero.1 (Nat.eq_zero_of_not_pos hchildren)⟩

theorem modified_eq_ok {e' : Entry} {m : Modification} (h : e.modified p m = .ok e') :
    e'.id = e.id ∧ e'.name = e.name ∧ e'.parent = e.parent := by
  obtain ⟨held, _, h⟩ := Except.bind_eq_ok.1 h
  obtain ⟨kept, _, h⟩ := Except.bind_eq_ok.1 h
  cases h
  exact ⟨rfl, rfl, rfl⟩

theorem modifiedBy_eq_ok {e' : Entry} {ms : List Modification} (h : e.modifiedBy p ms = .ok e') :
    e'.id = e.id ∧ e'.name = e.name ∧ e'.parent = e.parent := by
  induction ms generalizing e with
  | nil =>
    cases h
    exact ⟨rfl, rfl, rfl⟩
  | cons m ms ih =>
    obtain ⟨e₁, he₁, h⟩ := Except.bind_eq_ok.1 h
    obtain ⟨hid, hname, hparent⟩ := modified_eq_ok he₁
    obtain ⟨hid', hname', hparent'⟩ := ih h
    exact ⟨hid'.trans hid, hname'.trans hname, hparent'.trans hparent⟩

theorem newParentFor_eq_ok {old q : EntryId} {parent : Option Dn}
    (h : p.newParentFor e old parent = .ok q) :
    q = old ∨ (¬p.SubLevel e.id q ∧ ∃ f, p.get? q = some f ∧ f.isAlias = false) := by
  cases parent with
  | none =>
    cases h
    exact .inl rfl
  | some name =>
    unfold newParentFor at h
    dsimp only at h
    split at h
    · split at h
      · cases h
      · rename_i q' _ hbelow
        obtain ⟨f, hf, h⟩ := Except.bind_eq_ok.1 h
        split at h
        · cases h
        · rename_i halias
          cases h
          exact .inr ⟨fun hsub => hbelow (Index.has_iff.2 hsub), f, lookup_eq_ok.1 hf,
            Bool.eq_false_iff.2 halias⟩
    · cases h

/-- All that a planned move has come from. -/
theorem planMove_cases {parent : Option Dn} {rdn : Option Rdn} {mv : Move}
    (h : p.planMove id parent rdn = .ok mv) :
    mv.id = id ∧ p.get? id = some mv.top ∧ mv.top.parent = some mv.oldParent ∧
      p.newParentFor mv.top mv.oldParent parent = .ok mv.parent ∧
      (∃ e r, p.get? mv.parent = some e ∧ (rdn <|> mv.top.name.rdn?) = some r ∧
        mv.name = e.name.child r) ∧
      (mv.name.normalized = mv.top.name.normalized ∨ p.idOf? mv.name = none) ∧
      mv.members = p.system.subLevel.ids id ∧ p.linksToMove mv.members = .ok mv.links ∧
      p.ancestors (some mv.oldParent) = .ok mv.oldAncestors ∧
      p.ancestors (some mv.parent) = .ok mv.ancestors := by
  unfold planMove Climbing.planMove at h
  obtain ⟨e, he, h⟩ := Except.bind_eq_ok.1 h
  split at h
  · rename_i old hold
    obtain ⟨q, hq, h⟩ := Except.bind_eq_ok.1 h
    split at h
    · rename_i r hr
      obtain ⟨e', he', h⟩ := Except.bind_eq_ok.1 h
      dsimp only at h
      split at h
      · cases h
      · rename_i hfree
        obtain ⟨links, hlinks, h⟩ := Except.bind_eq_ok.1 h
        obtain ⟨olds, holds, h⟩ := Except.bind_eq_ok.1 h
        obtain ⟨news, hnews, h⟩ := Except.bind_eq_ok.1 h
        cases h
        refine ⟨rfl, lookup_eq_ok.1 he, hold, hq, ⟨e', r, lookup_eq_ok.1 he', hr, rfl⟩, ?_, rfl,
          hlinks, holds, hnews⟩
        by_cases hn : (e'.name.child r).normalized = e.name.normalized
        · exact .inl hn
        · refine .inr ?_
          simpa [hn] using hfree
    · cases h
  · cases h

/-- What a move has been checked for; `rdn` is the new relative name, if there is one. -/
structure Planned (p : Partition) (id : EntryId) (rdn : Option Rdn) (mv : Move) : Prop where
  id_eq : mv.id = id
  top : p.get? id = some mv.top
  oldParent : mv.top.parent = some mv.oldParent
  parent : mv.parent = mv.oldParent ∨ ¬p.SubLevel mv.top.id mv.parent
  name : ∃ e r, p.get? mv.parent = some e ∧ (rdn <|> mv.top.name.rdn?) = some r ∧
    mv.name = e.name.child r
  free : mv.name.normalized = mv.top.name.normalized ∨ p.idOf? mv.name = none
  members : mv.members = p.system.subLevel.ids id
  oldAncestors : p.ancestors (some mv.oldParent) = .ok mv.oldAncestors
  ancestors : p.ancestors (some mv.parent) = .ok mv.ancestors

theorem planMove_eq_ok {parent : Option Dn} {rdn : Option Rdn} {mv : Move}
    (h : p.planMove id parent rdn = .ok mv) : p.Planned id rdn mv := by
  obtain ⟨hid, htop, hold, hparent, hname, hfree, hmembers, _, holds, hnews⟩ := planMove_cases h
  exact ⟨hid, htop, hold, (newParentFor_eq_ok hparent).imp_right And.left, hname, hfree, hmembers,
    holds, hnews⟩

end Checks

end Partition

/-! ## Writes -/

namespace Partition

open Transaction

variable {p : Partition}

theorem ensures_add (hp : p.Sound) (hfree : p.Carries p.nextId fun _ => []) (e : Entry) :
    Ensures (add e) p fun _ p' => ∃ e', p.newEntry e = .ok e' ∧
      Entered { p with nextId := p.nextId + 1 } { e' with id := p.nextId } p' := by
  unfold Partition.add Climbing.add takeId
  simp only [liftM_self, transact_eq, Ensures.bind, Ensures.get, Ensures.modify, Ensures.pure,
    Ensures.lift, Ensures.transact]
  intro e' he' link _
  have hnew : Sound { p with nextId := p.nextId + 1 } := ⟨hp.1, hp.2, hp.3, hp.4⟩
  have hfree' : Carries { p with nextId := p.nextId + 1 } p.nextId fun _ => [] :=
    ⟨hfree.tags, hfree.present⟩
  exact (Ensures.enter (t := .start { p with nextId := p.nextId + 1 }) hnew
    (e := { e' with id := p.nextId }) hfree' link).mono fun _ _ h => ⟨e', he', h⟩

theorem ensures_modify (hp : p.Sound) (hvalues : p.ValuesIndexed) (id : EntryId)
    (ms : List Modification) :
    Ensures (Partition.modify id ms) p fun _ p' => ∃ old new, p.get? id = some old ∧
      old.modifiedBy p ms = .ok new ∧ p.checkValues new = .ok () ∧ p.Amended id new p' := by
  unfold Partition.modify Climbing.modify
  simp only [transact_eq, Ensures.bind, Ensures.get, Ensures.lift]
  intro old hold new hnew _ hcheck oldLink _ newLink _
  have hold := lookup_eq_ok.1 hold
  have hcarries : p.Carries id old.valuesOf := valuesOf_some hold ▸ hvalues id
  split <;> rw [Ensures.transact] <;>
    exact (Ensures.amend (t := .start p) hp hcarries _ _).mono
      fun _ _ h => ⟨old, new, hold, hnew, hcheck, h⟩

theorem ensures_delete (hp : p.Sound) (id : EntryId) :
    Ensures (delete id) p fun _ p' => ∃ e, p.get? id = some e ∧ (∀ i, ¬p.OneLevel id i) ∧
      p.Removed id e p' := by
  unfold Partition.delete Climbing.delete
  simp only [transact_eq, Ensures.bind, Ensures.get, Ensures.lift]
  intro (e, link) he
  obtain ⟨hget, hchildren⟩ := removable_eq_ok he
  rw [Ensures.transact]
  exact (Ensures.remove (t := .start p) hp e link).mono fun _ _ h => ⟨e, hget, hchildren, h⟩

theorem ensures_moveAndRename (hp : p.Sound) (hown : p.OwnNumbers) (hvalues : p.ValuesIndexed)
    (id : EntryId) (parent : Option Dn) (rdn : Option Rdn) :
    Ensures (moveAndRename id parent rdn) p fun _ p' => ∃ mv,
      p.planMove id parent rdn = .ok mv ∧ p.Relocated mv p' := by
  unfold Partition.moveAndRename Climbing.moveAndRename
  simp only [planMove_eq, transact_eq, Ensures.bind, Ensures.get, Ensures.lift]
  intro mv hmv
  have hmembers : mv.members.Nodup := (planMove_eq_ok hmv).members ▸ Index.nodup_ids
  rw [Ensures.transact]
  exact (Ensures.relocate (t := .start p) hp hown hvalues hmembers).mono fun _ _ h => ⟨mv, hmv, h⟩

/-! ## New indices -/

/-- An index of an attribute is new and holds what the entries hold. -/
structure IndexAdded (p : Partition) (a : AttributeId) (p' : Partition) : Prop where
  sound : p'.Sound
  missing : ¬p.Indexed a
  rest : p' = { p with presence := p'.presence, user := p'.user }
  presence : p'.presence.head = p.presence.head
  index : (p'.userIndex? a).map Index.head = some (a.name, p.schema.isOrdered a)
  others : ∀ b, b ≠ a → p'.userIndex? b = p.userIndex? b
  tagged : ∀ k i, p'.Tagged a k i ↔ ∃ e ∈ p.master.values, i = e.id ∧ p.IsForm a (e.valuesOf a) k
  present : ∀ b i, p'.Present b i ↔
    (b = a ∧ ∃ e ∈ p.master.values, i = e.id ∧ e.valuesOf a ≠ []) ∨ p.Present b i

theorem has_iff {e : Entry} {a : AttributeId} : e.has a = true ↔ e.valuesOf a ≠ [] := by
  unfold Entry.has Entry.get? Entry.valuesOf SortedMap.getD
  cases e.attributes.get? a with
  | none => simp
  | some vs => cases vs <;> simp

theorem tuplesOf_eq_ok {a : AttributeId} {es : List Entry} {values : List (Change Value)}
    {present : List (Change AttributeId)} (h : p.tuplesOf a es = .ok (values, present)) :
    (∀ k i, .add k i ∈ values ↔ ∃ e ∈ es, i = e.id ∧ p.IsForm a (e.valuesOf a) k) ∧
      (∀ k i, .drop k i ∉ values) ∧
      (∀ b i, .add b i ∈ present ↔ b = a ∧ ∃ e ∈ es, i = e.id ∧ e.valuesOf a ≠ []) ∧
      ∀ b i, .drop b i ∉ present := by
  induction es generalizing values present with
  | nil =>
    cases h
    simp
  | cons e es ih =>
    obtain ⟨s, hs, h⟩ := Except.bind_eq_ok.1 h
    obtain ⟨⟨vs, bs⟩, hrest, h⟩ := Except.bind_eq_ok.1 h
    cases h
    obtain ⟨hadd, hdrop, hadd', hdrop'⟩ := ih hrest
    refine ⟨fun k i => ?_, fun k i => ?_, fun b i => ?_, fun b i => ?_⟩
    · simp only [List.mem_append, hadd, List.mem_cons, exists_eq_or_imp, List.mem_map]
      refine or_congr_left ⟨?_, ?_⟩
      · rintro ⟨l, hl, h⟩
        cases h
        exact ⟨rfl, (mem_normalizeAll hs).1 hl⟩
      · rintro ⟨rfl, hk⟩
        exact ⟨k, (mem_normalizeAll hs).2 hk, rfl⟩
    · rw [List.mem_append, List.mem_map, not_or]
      exact ⟨fun ⟨l, _, h⟩ => (nomatch h), hdrop k i⟩
    · simp only [List.mem_cons, exists_eq_or_imp]
      by_cases hv : e.valuesOf a = []
      · rw [if_neg fun hh => has_iff.1 hh hv, hadd']
        simp [hv]
      · rw [if_pos (has_iff.2 hv), List.mem_cons, hadd', Change.add.injEq]
        by_cases hb : b = a <;> simp [hb, hv]
    · split
      · exact fun h => hdrop' b i ((List.mem_cons.1 h).resolve_left fun h => nomatch h)
      · exact hdrop' b i

theorem ensures_addIndex (hp : p.Sound) (attr : String) :
    Ensures (addIndex attr) p fun _ p' =>
      p' = p ∨ p.IndexAdded (.ofName attr) p' := by
  unfold addIndex
  refine Ensures.bind.2 (Ensures.get.2 ?_)
  dsimp only
  split
  · exact Ensures.pure.2 (.inl rfl)
  · rename_i hmissing
    refine Ensures.bind.2 (Ensures.lift.2 fun (values, present) htuples => ?_)
    refine Ensures.bind.2 (Ensures.lift.2 fun (x, _) hx => ?_)
    refine Ensures.bind.2 (Ensures.lift.2 fun (y, _) hy => ?_)
    refine Ensures.bind.2 (Ensures.set.2 (Ensures.pure.2 (.inr ?_)))
    obtain ⟨hadd, hdrop, hadd', hdrop'⟩ := tuplesOf_eq_ok htuples
    obtain ⟨hwf, hname, hordered, hhas, _⟩ := Index.apply_eq_ok (Index.wellFormed_empty ..) hx
    obtain ⟨hwf', hname', hordered', hhas', _⟩ := Index.apply_eq_ok hp.presence hy
    have hself := SortedMap.get?_insert_self p.user (.ofName attr) x
    refine ⟨(hp.insertUser _ hwf).setPresence hwf', fun h => ?_, rfl,
      Prod.ext hname' hordered', ?_, fun b hb => ?_, fun k i => ?_, fun b i => ?_⟩
    · obtain ⟨z, hz⟩ := indexed_iff.1 h
      rw [hmissing] at hz
      cases hz
    · show (SortedMap.get? _ _).map _ = _
      rw [hself, Option.map_some, Index.head, hname, hordered]
      rfl
    · exact SortedMap.get?_insert_of_ne x hb
    · have htagged : x.Has k i ↔ _ :=
        (hhas k i).trans (Change.allOnto_iff fun _ => hdrop k i)
      rw [hadd] at htagged
      refine Iff.trans ⟨fun ⟨z, hz, hk⟩ => ?_, fun hk => ⟨x, hself, hk⟩⟩
        (htagged.trans (or_iff_left fun h => Index.not_has_empty h.1))
      have hz : (p.user.insert _ x).get? _ = some z := hz
      rw [hself] at hz
      cases hz
      exact hk
    · refine (hhas' b i).trans ((Change.allOnto_iff fun _ => hdrop' b i).trans ?_)
      rw [hadd']
      exact or_congr_right (and_iff_left (hdrop' b i))

end Partition

end Directory
