import Directory.Proofs.Partition.Rollback

/-!
# Refused writes

* `Transaction.Reversible.enter`, `amend`, `remove`, `relocate`: the transactions can be taken back.
* `Partition.add_refused`, `modify_refused`, `delete_refused`, `moveAndRename_refused`,
  `addIndex_refused`: **a refused write leaves a partition as it was**; at most a new entry has used
  a number up.
-/

namespace Directory

/-! ## The steps of writes -/

namespace Transaction.Reversible

theorem addLink (l : AliasLink) : Reversible (addLink l) := by
  unfold Transaction.addLink Climbing.addLink
  simp only [outsideAncestors_eq]
  refine bind (changeNames _ _) fun _ => ?_
  split
  · exact pure ()
  · refine bind get fun t => bind (lift _) fun e => ?_
    have hrest : Reversible (do
        let above ← (← MonadState.get).partition.outsideAncestors ‹EntryId› l.targetName
        Transaction.changeTree .subAlias (above.map (.add · l.target))) :=
      bind get fun _ => bind (lift _) fun _ => changeTree _ _
    exact ite (bind (changeTree _ _) fun _ => hrest) hrest

theorem dropLink (l : AliasLink) : Reversible (dropLink l) := by
  unfold Transaction.dropLink Climbing.dropLink
  refine bind get fun t => bind (lift _) fun others => ?_
  dsimp only
  split
  · exact changeNames _ _
  · refine ite (bind (changeTree _ _) fun _ => ?_) ?_ <;>
      exact bind get fun t => bind (lift _) fun above =>
        bind (changeTree _ _) fun _ => changeNames _ _

theorem relink (l : AliasLink) : Reversible (relink l) :=
  bind get fun _ => bind (lift _) fun _ => bind (lift _) fun _ => addLink _

theorem updateUser (a : AttributeId) (cs : List (Change Value)) : Reversible (updateUser a cs) :=
  ite (changeUser a cs) (pure ())

theorem reindexAttribute (id : EntryId) (old new : Entry) (a : AttributeId) :
    Reversible (reindexAttribute id old new a) :=
  bind get fun _ => ite (pure _) <| bind (lift _) fun _ => bind (lift _) fun _ =>
    bind (updateUser _ _) fun _ => pure _

theorem reindex (id : EntryId) (old new : Entry) : Reversible (reindex id old new) :=
  bind (mapM (reindexAttribute id old new) _) fun _ => ite (changePresence _) (pure ())

theorem dropValues (id : EntryId) (a : AttributeId) : Reversible (dropValues id a) :=
  bind get fun _ => bind (lift _) fun _ => updateUser _ _

/-! ### Whole transactions -/

theorem enter (e : Entry) (link : Option AliasLink) : Reversible (enter e link) :=
  bind (putEntry e) fun _ => bind (changeNames _ _) fun _ =>
    bind (forM_option (fun _ => changeTree _ _) _) fun _ => bind get fun _ => bind (lift _) fun _ =>
    bind (changeTree _ _) fun _ => bind (reindex _ _ _) fun _ => forM_option addLink link

theorem amend (id : EntryId) (old new : Entry) (dropped added : Option AliasLink) :
    Reversible (amend id old new dropped added) :=
  bind (forM_option dropLink dropped) fun _ => bind (reindex id old new) fun _ =>
    bind (putEntry new) fun _ => forM_option addLink added

theorem takeOut (id : EntryId) (e : Entry) : Reversible (takeOut id e) :=
  bind get fun _ => bind (forM (dropValues id) _) fun _ => bind get fun _ =>
    bind (changePresence _) fun _ => bind (changeNames _ _) fun _ =>
    bind (forM_option (fun _ => changeTree _ _) _) fun _ => bind get fun _ =>
    bind (changeTree _ _) fun _ => removeEntry id

theorem remove (id : EntryId) (e : Entry) (link : Option AliasLink) :
    Reversible (remove id e link) :=
  bind (forM_option dropLink link) fun _ => takeOut id e

theorem moveMember (mv : Partition.Move) (m : EntryId) : Reversible (moveMember mv m) := by
  unfold Transaction.moveMember
  refine bind get fun _ => bind (lift _) fun current => bind (lift _) fun moved => ?_
  refine ite (bind (reindex _ _ _) fun _ => ?_) ?_ <;>
    exact bind (putEntry moved) fun _ => pure _

theorem reparent (mv : Partition.Move) : Reversible (reparent mv) :=
  ite (bind (changeTree _ _) fun _ => changeTree _ _) (pure ())

theorem relocate (mv : Partition.Move) : Reversible (relocate mv) :=
  bind (forM dropLink _) fun _ => bind (mapM (moveMember mv) _) fun _ =>
    bind (changeNames _ _) fun _ => bind (reparent mv) fun _ => forM relink _

end Transaction.Reversible

/-! ## The writes -/

section Writes

variable {p : Partition} {Q : Partition → Prop}

theorem Refuses.transact {α : Type} {steps : TransactionM α}
    (hsteps : Transaction.Reversible steps) (hp : p.Sound) (h : Q p) :
    Refuses (Partition.transact steps) p Q :=
  fun _ _ he => Partition.transact_error hsteps hp he ▸ h

namespace Partition

open Transaction

theorem add_refused (hp : p.Sound) (e : Entry) :
    Refuses (add e) p fun p' => p' = p ∨ p' = { p with nextId := p.nextId + 1 } := by
  unfold add Climbing.add takeId
  have hnew : Sound { p with nextId := p.nextId + 1 } := ⟨hp.1, hp.2, hp.3, hp.4⟩
  simp only [liftM_self, Refuses.bind, Refuses.get, Refuses.modify, Refuses.pure, Ensures.bind, Ensures.get,
    Ensures.modify, Ensures.pure, Ensures.lift, true_and, and_true]
  refine ⟨.lift (.inl rfl), fun e' _ => ⟨.lift (.inr rfl), fun link _ => ⟨?_, ?_⟩⟩⟩
  · exact .transact (.enter _ _) hnew (.inr rfl)
  · exact fun _ _ _ => trivial

theorem modify_refused (hp : p.Sound) (id : EntryId) (ms : List Modification) :
    Refuses (modify id ms) p (· = p) := by
  unfold modify Climbing.modify
  simp only [Refuses.bind, Refuses.get, Ensures.get, Ensures.lift, true_and]
  refine ⟨.lift rfl, fun old _ => ⟨.lift rfl, fun new _ => ⟨.lift rfl, fun _ _ => ⟨.lift rfl,
    fun oldLink _ => ⟨.lift rfl, fun newLink _ => ?_⟩⟩⟩⟩⟩
  split <;> exact .transact (.amend _ _ _ _ _) hp rfl

theorem delete_refused (hp : p.Sound) (id : EntryId) : Refuses (delete id) p (· = p) := by
  unfold delete Climbing.delete
  simp only [Refuses.bind, Refuses.get, Ensures.get, Ensures.lift, true_and]
  exact ⟨.lift rfl, fun _ _ => .transact (.remove _ _ _) hp rfl⟩

theorem moveAndRename_refused (hp : p.Sound) (id : EntryId) (parent : Option Dn)
    (rdn : Option Rdn) : Refuses (moveAndRename id parent rdn) p (· = p) := by
  unfold moveAndRename Climbing.moveAndRename
  simp only [planMove_eq, Refuses.bind, Refuses.get, Ensures.get, Ensures.lift, true_and]
  exact ⟨.lift rfl, fun _ _ => .transact (.relocate _) hp rfl⟩

theorem addIndex_refused (attr : String) : Refuses (addIndex attr) p (· = p) := by
  unfold addIndex
  simp only [Refuses.bind, Refuses.get, Ensures.get, true_and]
  split
  · exact Refuses.pure.2 trivial
  · simp only [Refuses.bind, Refuses.set, Refuses.pure, Ensures.set, Ensures.lift, and_true]
    exact ⟨.lift rfl, fun _ _ => ⟨.lift rfl, fun _ _ => ⟨.lift rfl, fun _ _ => trivial⟩⟩⟩

end Partition

end Writes

end Directory
