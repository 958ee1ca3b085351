import Directory.Proofs.Partition.AliasTuples
import Directory.Proofs.Partition.Complaints

/-!
# Signs of indices out of step

Some errors say that the indices contradict the entries or each other. What is left of them once the
indices are in step is read off the writes.

* `Acyclic.ancestors_complains`: a way up that does not lead back ends within the number of entries.
* `Transaction.Careful`: steps on tables in step that leave the entries alone and are refused with
  harmless errors only.
* `Partition.Ordered.complains`: **a write is refused with such an error only at an alias that is
  not indexed**.
* `Partition.ReachedBy.aliases_indexed`: which aliases are indexed after a history, and what writes
  can therefore be refused with.
-/

namespace Directory

open Relation

/-! ## Ways up -/

/-- No way up leads back. -/
def Acyclic (master : SortedMap EntryId Entry) : Prop :=
  ∀ i, ¬TransGen (fun i q => ∃ e, master.get? i = some e ∧ e.parent = some q) i i

namespace Partition

variable {p : Partition}

theorem Arranged.acyclic_master (h : p.Arranged) : Acyclic p.master := h.acyclic

/-- A way up that does not end within `n` entries passes `n` entries. -/
theorem exists_passed {n : Nat} {parent : Option EntryId} {j : EntryId}
    (h : p.ancestorsWithin n parent = .error (.parentCycle j)) :
    ∃ passed : List EntryId, passed.length = n ∧ passed.Pairwise (TransGen p.HasParent) ∧
      ∀ i ∈ passed, p.Stored i ∧ ∃ q, parent = some q ∧ p.Above i q := by
  induction n generalizing parent with
  | zero => exact ⟨[], rfl, .nil, by simp⟩
  | succ n ih =>
    cases parent with
    | none => cases h
    | some q =>
      rw [ancestorsWithin] at h
      cases he : p.lookup q with
      | error err =>
        rw [he] at h
        cases h
        exact absurd rfl (p.lookup_complains q _ he)
      | ok e =>
        rw [he, Except.ok_bind] at h
        have hget := lookup_eq_ok.1 he
        cases hrest : p.ancestorsWithin n e.parent with
        | ok rest =>
          rw [hrest] at h
          cases h
        | error err =>
          rw [hrest] at h
          cases h
          obtain ⟨passed, hlength, hpairwise, hpassed⟩ := ih hrest
          have hbeyond : ∀ i ∈ passed, TransGen p.HasParent q i := by
            intro i hi
            obtain ⟨_, q', hq', hway⟩ := hpassed i hi
            exact .head' ⟨e, hget, hq'⟩ hway
          refine ⟨q :: passed, congrArg Nat.succ hlength, .cons hbeyond hpairwise, fun i hi => ?_⟩
          rcases List.mem_cons.1 hi with rfl | hi
          · exact ⟨⟨e, hget⟩, i, rfl, .refl⟩
          · exact ⟨(hpassed i hi).1, q, rfl, (hbeyond i hi).to_reflTransGen⟩

theorem ancestorsWithin_complains (n : Nat) (parent : Option EntryId) :
    Objections (p.ancestorsWithin n parent) fun e => e.Harmless ∨ ∃ j, e = .parentCycle j := by
  induction n generalizing parent with
  | zero =>
    cases parent with
    | none => exact .ok
    | some q => exact .error (.inr ⟨q, rfl⟩)
  | succ n ih =>
    cases parent with
    | none => exact .ok
    | some q =>
      exact .bind ((p.lookup_complains q).mono fun _ => .inl) fun e _ =>
        .bind (ih e.parent) fun _ _ => .ok

end Partition

/-- Where no way up leads back, each one ends within the number of entries. -/
theorem Acyclic.ancestors_complains {p : Partition} (h : Acyclic p.master)
    (parent : Option EntryId) : Objections (p.ancestors parent) Error.Harmless := by
  intro e he
  rcases p.ancestorsWithin_complains _ parent e he with hharmless | ⟨j, rfl⟩
  · exact hharmless
  · obtain ⟨passed, hlength, hpairwise, hpassed⟩ := Partition.exists_passed he
    have hnodup : passed.Nodup := hpairwise.imp fun {i j} hway heq => by
      subst heq
      exact h i hway
    have hle := Partition.length_le_count hnodup fun i hi => (hpassed i hi).1
    rw [hlength] at hle
    exact absurd hle (Nat.not_succ_le_self _)

theorem Acyclic.outsideAncestors_complains {p : Partition} (h : Acyclic p.master)
    (parent : EntryId) (name : Dn) :
    Objections (p.outsideAncestors parent name) Error.Harmless :=
  (h.ancestors_complains _).bind fun as _ =>
    .filterM (fun a => (p.lookup_complains a).bind fun _ _ => .ok) as

/-! ## Careful steps -/

theorem Index.apply_complains {κ : Type} [Ord κ] [Std.TransOrd κ] [Std.LawfulEqOrd κ]
    {x : Index κ} (h : x.WellFormed) (cs : List (Change κ)) :
    Objections (x.apply cs) Error.Harmless := by
  obtain ⟨y, undo, hy, _⟩ := Index.apply_spec h cs
  rw [hy]
  exact .ok

namespace Transaction

/-- On tables in step, and on entries of which `C` holds, the steps keep the tables in step, leave
the entries alone, and are refused with harmless errors only. -/
def Careful {α : Type} (C : SortedMap EntryId Entry → Prop) (m : TransactionM α) : Prop :=
  ∀ t : Transaction, t.partition.Sound → C t.partition.master →
    Complains m t Error.Harmless ∧
      Ensures m t fun _ t' => t'.partition.Sound ∧ t'.partition.master = t.partition.master

namespace Careful

variable {α β : Type} {C : SortedMap EntryId Entry → Prop} {m m' : TransactionM α}

theorem pure (a : α) : Careful C (pure a) := fun _ ht _ => ⟨.pure, Ensures.pure.2 ⟨ht, rfl⟩⟩

theorem lift {x : Except Error α} (hx : Objections x Error.Harmless) : Careful C (liftM x) :=
  fun _ ht _ => ⟨.lift hx, Ensures.lift.2 fun _ _ => ⟨ht, rfl⟩⟩

theorem ask {f : Transaction → TransactionM α}
    (hf : ∀ t : Transaction, t.partition.Sound → C t.partition.master → Careful C (f t)) :
    Careful C (get >>= f) := fun t ht hC =>
  have ⟨hcomplains, hensures⟩ := hf t ht hC t ht hC
  ⟨.bind .get (Ensures.get.2 hcomplains), Ensures.bind.2 (Ensures.get.2 hensures)⟩

/-- What comes after careful steps may rely on what they keep. -/
theorem bind_complains {f : α → TransactionM β} (hm : Careful C m) {t : Transaction}
    (ht : t.partition.Sound) (hC : C t.partition.master)
    (hf : ∀ a t', t'.partition.Sound → t'.partition.master = t.partition.master →
      Complains (f a) t' Error.Harmless) : Complains (m >>= f) t Error.Harmless :=
  .bind (hm t ht hC).1 ((hm t ht hC).2.mono fun a t' h => hf a t' h.1 h.2)

theorem complains (hm : Careful C m) {t : Transaction} (ht : t.partition.Sound)
    (hC : C t.partition.master) : Complains m t Error.Harmless := (hm t ht hC).1

theorem bind {f : α → TransactionM β} (hm : Careful C m) (hf : ∀ a, Careful C (f a)) :
    Careful C (m >>= f) := fun t ht hC =>
  ⟨hm.bind_complains ht hC fun a t' ht' hmaster => (hf a t' ht' (hmaster ▸ hC)).1,
    Ensures.bind.2 ((hm t ht hC).2.mono fun a t' ⟨ht', hmaster⟩ =>
      (hf a t' ht' (hmaster ▸ hC)).2.mono fun _ _ h => ⟨h.1, h.2.trans hmaster⟩)⟩

theorem ite {c : Prop} [Decidable c] (hm : Careful C m) (hm' : Careful C m') :
    Careful C (if c then m else m') := by
  split
  · exact hm
  · exact hm'

theorem composes : Composes fun m => Careful C m := ⟨pure, bind⟩

theorem forM {f : α → TransactionM Unit} (hf : ∀ a, Careful C (f a)) (xs : List α) :
    Careful C (xs.forM f) := composes.forM hf xs

theorem forM_option {f : α → TransactionM Unit} (hf : ∀ a, Careful C (f a)) (x? : Option α) :
    Careful C (x?.forM f) := composes.forM_option hf x?

theorem mapM {f : α → TransactionM β} (hf : ∀ a, Careful C (f a)) (xs : List α) :
    Careful C (xs.mapM f) := composes.mapM hf xs

/-! ### The steps -/

theorem step {δ : Type} (apply : Partition → Except Error (Partition × δ)) (u : δ → Undo)
    (hreversible :
      Reversible (do let (p, d) ← apply (← MonadState.get).partition; record p (u d)))
    (happly : ∀ p, p.Sound → Objections (apply p) Error.Harmless)
    (hmaster : ∀ p p' d, apply p = .ok (p', d) → p'.master = p.master) :
    Careful C (do let (p, d) ← apply (← MonadState.get).partition; record p (u d)) := by
  intro t ht hC
  have hretains : Ensures (do let (p, d) ← apply (← MonadState.get).partition; record p (u d) :
      TransactionM Unit) t fun _ t' => t'.partition.master = t.partition.master := by
    unfold record
    simp only [Ensures.bind, Ensures.get, Ensures.lift, Ensures.modify, Prod.forall]
    exact fun p' d hp' => hmaster _ p' d hp'
  refine ⟨?_, (hreversible.ensures_sound ht).and hretains⟩
  exact .bind .get (Ensures.get.2 (.bind (.lift (happly _ ht)) (Ensures.lift.2 fun _ _ => .modify)))

theorem changeNames (i : NameIndex) (cs : List (Change String)) :
    Careful C (changeNames i cs) := by
  refine step (·.applyNames i cs) (.names i) (.changeNames i cs)
    (fun p hp => (Index.apply_complains (hp.names i) cs).bind fun _ _ => .ok) fun p p' d h => ?_
  obtain ⟨_, _, hp'⟩ := Except.bind_eq_ok.1 h
  cases hp'
  rfl

theorem changeTree (k : TreeIndex) (cs : List (Change EntryId)) : Careful C (changeTree k cs) := by
  refine step (·.applyTree k cs) (.tree k) (.changeTree k cs)
    (fun p hp => (Index.apply_complains (hp.tree k) cs).bind fun _ _ => .ok) fun p p' d h => ?_
  obtain ⟨_, _, hp'⟩ := Except.bind_eq_ok.1 h
  cases hp'
  rfl

theorem changePresence (cs : List (Change AttributeId)) : Careful C (changePresence cs) := by
  refine step (·.applyPresence cs) .presence (.changePresence cs)
    (fun p hp => (Index.apply_complains hp.presence cs).bind fun _ _ => .ok) fun p p' d h => ?_
  obtain ⟨_, _, hp'⟩ := Except.bind_eq_ok.1 h
  cases hp'
  rfl

theorem changeUser (a : AttributeId) (cs : List (Change Value)) : Careful C (changeUser a cs) := by
  refine step (·.applyUser a cs) (.user a) (.changeUser a cs)
    (fun p hp => (p.userIndex_complains a).bind fun x hx =>
      (Index.apply_complains (hp.user a x (Partition.userIndex_eq_ok.1 hx)) cs).bind fun _ _ => .ok)
    fun p p' d h => ?_
  obtain ⟨_, _, h⟩ := Except.bind_eq_ok.1 h
  obtain ⟨_, _, hp'⟩ := Except.bind_eq_ok.1 h
  cases hp'
  rfl

theorem updateUser (a : AttributeId) (cs : List (Change Value)) : Careful C (updateUser a cs) :=
  ite (changeUser a cs) (pure ())

theorem reindex (id : EntryId) (old new : Entry) : Careful C (reindex id old new) := by
  have hattribute : ∀ a, Careful C (reindexAttribute id old new a) := fun a =>
    ask fun t _ _ => ite (pure _) <| bind (lift (t.partition.normalizeAll_complains _ _)) fun _ =>
      bind (lift (t.partition.normalizeAll_complains _ _)) fun _ =>
        bind (updateUser _ _) fun _ => pure _
  exact bind (mapM hattribute _) fun _ => ite (changePresence _) (pure ())

theorem dropValues (id : EntryId) (a : AttributeId) : Careful C (dropValues id a) :=
  ask fun t _ _ => bind (lift (t.partition.userIndex_complains a)) fun _ => updateUser _ _

theorem reparent (mv : Partition.Move) : Careful C (reparent mv) :=
  ite (bind (changeTree _ _) fun _ => changeTree _ _) (pure ())

theorem addLink (l : AliasLink) : Careful Acyclic (addLink l) := by
  unfold Transaction.addLink Climbing.addLink
  simp only [outsideAncestors_eq]
  refine bind (changeNames _ _) fun _ => ?_
  split
  · exact pure ()
  · rename_i parent _
    refine ask fun t _ _ => bind (lift (t.partition.lookup_complains _)) fun e => ?_
    have hrest : Careful Acyclic (do
        let above ← (← MonadState.get).partition.outsideAncestors parent l.targetName
        Transaction.changeTree .subAlias (above.map (.add · l.target))) :=
      ask fun _ _ h => bind (lift (h.outsideAncestors_complains _ _)) fun _ => changeTree _ _
    exact ite (bind (changeTree _ _) fun _ => hrest) hrest

theorem dropLink (l : AliasLink) : Careful Acyclic (dropLink l) := by
  unfold Transaction.dropLink Climbing.dropLink
  refine ask fun t _ _ => bind (lift (t.partition.otherAliases_complains l)) fun others => ?_
  dsimp only
  split
  · exact changeNames _ _
  · refine ite (bind (changeTree _ _) fun _ => ?_) ?_ <;>
      exact ask fun t _ h => bind (lift (h.ancestors_complains _)) fun above =>
        bind (changeTree _ _) fun _ => changeNames _ _

theorem relink (l : AliasLink) : Careful Acyclic (relink l) :=
  ask fun t _ _ => bind (lift (t.partition.lookup_complains _)) fun _ =>
    bind (lift (t.partition.aliasLink_complains _)) fun _ => addLink _

end Careful

/-! ### Whole transactions -/

open Directory.Partition (Move)

variable {t : Transaction}

theorem putEntry_complains (e : Entry) {P : Error → Prop} : Complains (putEntry e) t P :=
  .bind .get (Ensures.get.2 .modify)

theorem removeEntry_complains (id : EntryId) {P : Error → Prop} :
    Complains (removeEntry id) t P :=
  .bind .get (Ensures.get.2 .modify)

theorem enter_complains (ht : t.partition.Sound) (e : Entry) (link : Option AliasLink)
    (h : Acyclic (t.partition.master.insert e.id e)) :
    Complains (enter e link) t Error.Harmless := by
  refine .bind (putEntry_complains e) ((Ensures.putEntry ht e).mono fun _ t₁ h₁ => ?_)
  refine Careful.complains (C := Acyclic) ?_ h₁.sound (h₁.master ▸ h)
  exact .bind (.changeNames _ _) fun _ => .bind (.forM_option (fun _ => .changeTree _ _) _) fun _ =>
    .ask fun _ _ h => .bind (.lift (h.ancestors_complains _)) fun above =>
    .bind (.changeTree _ _) fun _ => .bind (.reindex _ _ _) fun _ => .forM_option .addLink link

theorem amend_complains (ht : t.partition.Sound) (h : Acyclic t.partition.master) (id : EntryId)
    (old new : Entry) (dropped added : Option AliasLink)
    (h' : Acyclic (t.partition.master.insert new.id new)) :
    Complains (amend id old new dropped added) t Error.Harmless := by
  refine (Careful.forM_option .dropLink dropped).bind_complains ht h fun _ t₁ h₁ hmaster₁ => ?_
  refine (Careful.reindex id old new).bind_complains h₁ (hmaster₁ ▸ h) fun _ t₂ h₂ hmaster₂ => ?_
  refine .bind (putEntry_complains new) ((Ensures.putEntry h₂ new).mono fun _ t₃ h₃ => ?_)
  have hmaster : t₃.partition.master = t.partition.master.insert new.id new := by
    rw [← hmaster₁, ← hmaster₂]
    exact h₃.master
  exact (Careful.forM_option .addLink added).complains h₃.sound (hmaster ▸ h')

theorem takeOut_complains (ht : t.partition.Sound) (id : EntryId) (e : Entry) :
    Complains (takeOut id e) t Error.Harmless := by
  -- nothing depends on the entries
  let Any : SortedMap EntryId Entry → Prop := fun _ => True
  refine .bind .get (Ensures.get.2 ?_)
  refine (Careful.forM (C := Any) (.dropValues id) _).bind_complains ht trivial fun _ t₂ h₂ _ => ?_
  refine .bind .get (Ensures.get.2 ?_)
  refine (Careful.changePresence (C := Any) _).bind_complains h₂ trivial fun _ t₃ h₃ _ => ?_
  refine (Careful.changeNames (C := Any) _ _).bind_complains h₃ trivial fun _ t₄ h₄ _ => ?_
  refine (Careful.forM_option (C := Any) (fun _ => .changeTree _ _) _).bind_complains h₄ trivial
    fun _ t₅ h₅ _ => ?_
  refine .bind .get (Ensures.get.2 ?_)
  exact (Careful.changeTree (C := Any) _ _).bind_complains h₅ trivial
    fun _ _ _ _ => removeEntry_complains id

theorem remove_complains (ht : t.partition.Sound) (h : Acyclic t.partition.master) (id : EntryId)
    (e : Entry) (link : Option AliasLink) : Complains (remove id e link) t Error.Harmless :=
  (Careful.forM_option .dropLink link).bind_complains ht h fun _ _ h₁ _ => takeOut_complains h₁ id e

theorem movedEntry_complains {p : Partition} {mv : Move} {m : EntryId} {current : Entry}
    (h : (current.name.rebase? mv.top.name mv.name).isSome = true) :
    Objections (movedEntry p mv m current) Error.Harmless := by
  unfold movedEntry
  split
  · split
    · exact (p.withNameValue_complains _).bind fun _ _ =>
        (p.checkValues_complains _).bind fun _ _ => .ok
    · exact .ok
  · rename_i hnone
    obtain ⟨name, hname⟩ := Option.isSome_iff_exists.1 h
    exact absurd hname (hnone name)

theorem moveMember_complains (ht : t.partition.Sound) {mv : Move} {m : EntryId}
    (h : ∀ e, t.partition.get? m = some e →
      (e.name.rebase? mv.top.name mv.name).isSome = true) :
    Complains (moveMember mv m) t Error.Harmless := by
  unfold moveMember
  refine .bind .get (Ensures.get.2 (.bind (.lift (t.partition.lookup_complains m)) ?_))
  refine Ensures.lift.2 fun current hcurrent => ?_
  have hmoved := movedEntry_complains (p := t.partition) (m := m)
    (h current (Partition.lookup_eq_ok.1 hcurrent))
  refine .bind (.lift hmoved) (Ensures.lift.2 fun moved _ => ?_)
  have hput : ∀ t₁ : Transaction, Complains (do
      putEntry moved
      return (m, current.name.normalized, moved.name.normalized)) t₁ Error.Harmless := fun t₁ =>
    .bind (putEntry_complains moved) fun _ _ _ => .pure
  split
  · exact (Careful.reindex (C := fun _ => True) _ _ _).bind_complains ht trivial
      fun _ t₁ _ _ => hput t₁
  · exact hput t

theorem mapM_moveMember_complains (ht : t.partition.Sound) (hown : t.partition.OwnNumbers)
    (hvalues : t.partition.ValuesIndexed) {mv : Move} {ms : List EntryId} (hms : ms.Nodup)
    (h : ∀ m ∈ ms, ∀ e, t.partition.get? m = some e →
      (e.name.rebase? mv.top.name mv.name).isSome = true) :
    Complains (ms.mapM (moveMember mv)) t Error.Harmless := by
  induction ms generalizing t with
  | nil =>
    rw [List.mapM_nil]
    exact .pure
  | cons m ms ih =>
    obtain ⟨hm, hms⟩ := List.nodup_cons.1 hms
    rw [List.mapM_cons]
    refine .bind (moveMember_complains ht (h m (.head _))) ?_
    refine (Ensures.moveMember ht hown hvalues m).mono fun r t₁ h₁ => ?_
    refine .bind (ih h₁.sound h₁.own h₁.values hms fun m' hm' e he => ?_) fun _ _ _ => .pure
    -- the members to come still have their old records
    have hother : m' ∉ [m] := fun h' => hm (List.mem_singleton.1 h' ▸ hm')
    exact h m' (.tail _ hm') e (h₁.others m' hother ▸ he)

theorem relocate_complains (hp : t.partition.Arranged) (ht : t.partition.Sound)
    (hown : t.partition.OwnNumbers) (hvalues : t.partition.ValuesIndexed) {id : EntryId}
    {rdn : Option Rdn} {mv : Move} (hmv : t.partition.Planned id rdn mv)
    (h : ∀ m ∈ mv.members, ∀ e, t.partition.get? m = some e →
      (e.name.rebase? mv.top.name mv.name).isSome = true) :
    Complains (relocate mv) t Error.Harmless := by
  have hmembers : mv.members.Nodup := hmv.members ▸ Index.nodup_ids
  refine .bind ((Careful.forM .dropLink mv.links).complains ht hp.acyclic) ?_
  refine (Ensures.forM_links (fun t ht => Ensures.dropLink ht) (.refl ht) _).mono fun _ t₁ h₁ => ?_
  have hget : ∀ i, t₁.partition.get? i = t.partition.get? i := Partition.get?_congr h₁.master
  have hown₁ := hown.congr h₁.master
  have hvalues₁ := hvalues.congr h₁.same h₁.master h₁.tagged h₁.present
  refine .bind (mapM_moveMember_complains h₁.sound hown₁ hvalues₁ hmembers fun m hm e he =>
    h m hm e (hget m ▸ he)) ?_
  refine (Ensures.mapM_moveMember h₁.sound hown₁ hvalues₁ hmembers).mono fun renamed t₂ h₂ => ?_
  have h₂ := Partition.Moving.after h₁ h₂
  have hrewritten : t.partition.Rewritten mv t₂.partition := ⟨h₂.others, h₂.moved⟩
  refine Careful.complains (C := Acyclic) ?_ h₂.sound (hrewritten.acyclic hp hown hmv)
  exact .bind (.changeNames _ _) fun _ => .bind (.reparent mv) fun _ => .forM .relink mv.links

end Transaction

/-! ## Writes -/

namespace Partition

/-- The error is harmless, or it says that an alias is not indexed, which is so. -/
def Warranted (p : Partition) (err : Error) : Prop :=
  err.Harmless ∨
    ∃ i, err = .aliasNotIndexed i "target" ∧ p.IsAlias i ∧ ∀ n, ¬p.AliasOf n i

end Partition

theorem Objections.warranted {p : Partition} {α : Type} {x : Except Error α}
    (h : Objections x Error.Harmless) : Objections x p.Warranted := h.mono fun _ => .inl

theorem Complains.warranted {p : Partition} {σ α : Type} {m : EStateM Error σ α} {s : σ}
    (h : Complains m s Error.Harmless) : Complains m s p.Warranted :=
  fun e s' he => .inl (h e s' he)

namespace Partition

variable {p : Partition} {k : Nat} {e : Entry} {id : EntryId}

theorem idOfNormalized?_isSome {n : String} {t : EntryId} (h : p.Named n t) :
    (p.idOfNormalized? n).isSome = true := by
  cases hnone : p.idOfNormalized? n with
  | some t' => rfl
  | none =>
    have hmem : t ∈ p.system.entryName.ids n := Index.mem_ids.2 h
    rw [List.head?_eq_none_iff.1 hnone] at hmem
    cases hmem

/-- The link of an alias is missing only where the alias has no tuple. -/
theorem Ordered.linkOf_complains (h : p.Ordered k) (hl : p.Linked) (he : p.get? e.id = some e) :
    Objections (p.linkOf e) p.Warranted := by
  unfold linkOf
  split
  · rename_i halias
    refine .map ?_
    unfold indexedLink
    split
    · rename_i n hn
      have hkey : n ∈ p.system.aliasTarget.keys e.id := List.mem_of_mem_head? hn
      have ha : p.AliasOf n e.id := (Index.mem_keys (h.valued.sound.names .aliasTarget)).1 hkey
      obtain ⟨t, hstands⟩ := hl n e.id ha
      obtain ⟨f, hf, hname, _⟩ := hstands.target
      have hnamed : p.Named n t := (h.arranged.named n t).2 ⟨f, hf, hname.symm⟩
      split
      · exact .bind (p.lookup_complains _).warranted fun _ _ => .ok
      · rename_i hnone
        obtain ⟨t', ht'⟩ := Option.isSome_iff_exists.1 (idOfNormalized?_isSome hnamed)
        exact absurd ht' (hnone t')
    · rename_i hnone
      refine .error (.inr ⟨e.id, rfl, ⟨e, he, halias⟩, fun n ha => ?_⟩)
      have hkey : n ∈ p.system.aliasTarget.keys e.id :=
        (Index.mem_keys (h.valued.sound.names .aliasTarget)).2 ha
      cases hkeys : p.system.aliasTarget.keys e.id with
      | nil =>
        rw [hkeys] at hkey
        cases hkey
      | cons m ms => exact hnone m (congrArg List.head? hkeys)
  · exact .ok

theorem Ordered.linksToMove_complains (h : p.Ordered k) (hl : p.Linked) (ms : List EntryId) :
    Objections (p.linksToMove ms) p.Warranted := by
  induction ms with
  | nil => exact .ok
  | cons m ms ih =>
    refine .bind (p.lookup_complains m).warranted fun e he => ?_
    dsimp only
    split
    · exact .error (.inl nofun)
    · have he := lookup_eq_ok.1 he
      have hown := h.valued.own m e he
      exact .bind (h.linkOf_complains hl (hown.symm ▸ he)) fun _ _ => .bind ih fun _ _ => .ok

theorem Ordered.rdn?_isSome (h : p.Ordered k) (he : p.get? id = some e) {q : EntryId}
    (hq : e.parent = some q) : e.name.rdn?.isSome = true := by
  obtain ⟨f, hf⟩ := h.arranged.parents id q ⟨e, he, hq⟩
  obtain ⟨n, hn⟩ := h.wellNamed.below id e q f he hq hf
  unfold Dn.rdn?
  unfold Dn.key at hn
  cases hrdns : e.name.rdns with
  | nil =>
    rw [hrdns] at hn
    cases hn
  | cons r rs => rfl

theorem Ordered.planMove_complains (h : p.Ordered k) (hl : p.Linked) (id : EntryId)
    (parent : Option Dn) (rdn : Option Rdn) :
    Objections (p.planMove id parent rdn) p.Warranted := by
  have hancestors : ∀ q, Objections (p.ancestors q) p.Warranted := fun q =>
    (h.arranged.acyclic_master.ancestors_complains q).warranted
  unfold planMove Climbing.planMove
  refine .bind (p.lookup_complains id).warranted fun e he => ?_
  split
  · rename_i old hold
    refine .bind (p.newParentFor_complains e old parent).warranted fun q _ => ?_
    split
    · refine .bind (p.lookup_complains q).warranted fun f _ => ?_
      dsimp only
      split
      · exact .error (.inl nofun)
      · exact .bind (h.linksToMove_complains hl _) fun _ _ =>
          .bind (hancestors _) fun _ _ => .bind (hancestors _) fun _ _ => .ok
    · rename_i hnone
      obtain ⟨r, hr⟩ := Option.isSome_iff_exists.1 (h.rdn?_isSome (lookup_eq_ok.1 he) hold)
      cases rdn with
      | some r' => exact absurd rfl (hnone r')
      | none => exact absurd hr (hnone r)
  · exact .error (.inl nofun)

theorem Ordered.removable_complains (h : p.Ordered k) (hl : p.Linked) (id : EntryId) :
    Objections (p.removable id) p.Warranted := by
  unfold removable
  refine .bind (p.lookup_complains id).warranted fun e he => ?_
  dsimp only
  split
  · exact .error (.inl nofun)
  · split
    · exact .error (.inl nofun)
    · have he := lookup_eq_ok.1 he
      have hown := h.valued.own id e he
      exact .bind (h.linkOf_complains hl (hown.symm ▸ he)) fun _ _ => .ok

theorem Ordered.rebase?_isSome (h : p.Ordered k) {rdn : Option Rdn} {mv : Move}
    (hmv : p.Planned id rdn mv) {m : EntryId} (hm : m ∈ mv.members) (he : p.get? m = some e) :
    (e.name.rebase? mv.top.name mv.name).isSome = true := by
  have hway := ((h.arranged.mem_members hmv).1 hm).2
  obtain ⟨ks, hks⟩ := h.wellNamed.key_of_above h.arranged he hmv.top hway
  have hbelow : e.name.isBelowOrSelf mv.top.name = true :=
    List.isSuffixOf_iff_suffix.2 ⟨ks, hks.symm⟩
  unfold Dn.rebase?
  rw [if_pos hbelow]
  rfl

theorem transact_complains {α : Type} {steps : TransactionM α} {P : Error → Prop}
    (h : Complains steps (.start p) P) : Complains (transact steps) p P := by
  intro e p' he
  rw [transact] at he
  cases hs : steps (.start p) with
  | ok a t =>
    rw [hs] at he
    cases he
  | error e' t =>
    rw [hs] at he
    cases he
    exact h e t hs

theorem Ordered.add_complains (h : p.Ordered k) (hk : k + 1 < UInt64.size) (e : Entry) :
    Complains (add e) p p.Warranted := by
  unfold add Climbing.add takeId
  simp only [liftM_self]
  refine .bind .get (Ensures.get.2 (.bind (.lift (p.newEntry_complains e).warranted) ?_))
  refine Ensures.lift.2 fun e' he' => ?_
  refine .bind (.bind .get (Ensures.get.2 (.bind .modify (Ensures.modify.2 .pure)))) ?_
  simp only [Ensures.bind, Ensures.get, Ensures.modify, Ensures.pure]
  refine .bind .get (Ensures.get.2 (.bind (.lift (linkFor_complains _ _).warranted) ?_))
  refine Ensures.lift.2 fun link _ => .bind (transact_complains ?_) fun _ _ _ => .pure
  refine Complains.warranted (Transaction.enter_complains ?_ _ _ ?_)
  · exact h.valued.sound.skipped
  · have hfree : p.get? p.nextId = none := h.valued.get?_nextId hk
    have hinserted : ∀ i, ¬TransGen
        (p.setEntry p.nextId (some { e' with id := p.nextId })).HasParent i i :=
      h.arranged.acyclic_inserted (e := { e' with id := p.nextId }) hfree
        (fun q hq => stored_of_newEntry he' hq) rfl
    exact hinserted

theorem Ordered.modify_complains (h : p.Ordered k) (hl : p.Linked) (id : EntryId)
    (ms : List Modification) : Complains (Partition.modify id ms) p p.Warranted := by
  unfold Partition.modify Climbing.modify
  refine .bind .get (Ensures.get.2 (.bind (.lift (p.lookup_complains id).warranted) ?_))
  refine Ensures.lift.2 fun old hold => ?_
  refine .bind (.lift (p.modifiedBy_complains old ms).warranted) (Ensures.lift.2 fun new hnew => ?_)
  refine .bind (.lift (p.checkValues_complains new).warranted) (Ensures.lift.2 fun _ _ => ?_)
  have hold := lookup_eq_ok.1 hold
  have hown : old.id = id := h.valued.own id old hold
  refine .bind (.lift (h.linkOf_complains hl (hown.symm ▸ hold))) ?_
  refine Ensures.lift.2 fun oldLink _ => ?_
  refine .bind (.lift (p.linkFor_complains new).warranted) (Ensures.lift.2 fun newLink _ => ?_)
  obtain ⟨hid, _, hparent⟩ := modifiedBy_eq_ok hnew
  have hamended : ∀ i, ¬TransGen (p.setEntry new.id (some new)).HasParent i i := by
    rw [hasParent_amended (hid.symm ▸ hown.symm ▸ hold) hparent rfl]
    exact h.arranged.acyclic
  split <;> refine transact_complains (Complains.warranted ?_) <;>
    exact Transaction.amend_complains h.valued.sound h.arranged.acyclic_master _ _ _ _ _ hamended

theorem Ordered.delete_complains (h : p.Ordered k) (hl : p.Linked) (id : EntryId) :
    Complains (delete id) p p.Warranted := by
  unfold delete Climbing.delete
  refine .bind .get (Ensures.get.2 (.bind (.lift (h.removable_complains hl id)) ?_))
  refine Ensures.lift.2 fun (e, link) _ => transact_complains (Complains.warranted ?_)
  exact Transaction.remove_complains h.valued.sound h.arranged.acyclic_master id e link

theorem Ordered.moveAndRename_complains (h : p.Ordered k) (hl : p.Linked) (id : EntryId)
    (parent : Option Dn) (rdn : Option Rdn) :
    Complains (moveAndRename id parent rdn) p p.Warranted := by
  unfold moveAndRename Climbing.moveAndRename
  simp only [planMove_eq]
  refine .bind .get (Ensures.get.2 (.bind (.lift (h.planMove_complains hl id parent rdn)) ?_))
  refine Ensures.lift.2 fun mv hmv => transact_complains (Complains.warranted ?_)
  have hplanned := planMove_eq_ok hmv
  exact Transaction.relocate_complains h.arranged h.valued.sound h.valued.own h.valued.values
    hplanned fun m hm e he => h.rebase?_isSome hplanned hm he

theorem Ordered.addIndex_complains (h : p.Ordered k) (attr : String) :
    Complains (addIndex attr) p Error.Harmless := by
  unfold addIndex
  refine .bind .get (Ensures.get.2 ?_)
  dsimp only
  split
  · exact .pure
  · refine .bind (.lift (p.tuplesOf_complains _ _)) (Ensures.lift.2 fun (values, present) _ => ?_)
    refine .bind (.lift (Index.apply_complains (Index.wellFormed_empty ..) _)) ?_
    refine Ensures.lift.2 fun (x, _) _ => ?_
    refine .bind (.lift (Index.apply_complains h.valued.sound.presence _)) ?_
    exact Ensures.lift.2 fun (y, _) _ => .bind .set (Ensures.set.2 .pure)

/-- **What writes are refused with.** Where names follow the tree and all indices are in step, a
write is refused with a harmless error, or at an alias that is not indexed. -/
theorem Ordered.complains (h : p.Ordered k) (hl : p.Linked) (w : Write)
    (hk : k + w.isAdd.toNat < UInt64.size) {err : Error} (herr : w.error? p = some err) :
    p.Warranted err := by
  have hmove := fun id parent rdn => h.moveAndRename_complains hl id parent rdn
  cases w with
  | add e => exact h.add_complains hk e _ _ (errorOf?_eq_some.1 herr)
  | modify id ms => exact h.modify_complains hl id ms _ _ (errorOf?_eq_some.1 herr)
  | delete id => exact h.delete_complains hl id _ _ (errorOf?_eq_some.1 herr)
  | rename id rdn => exact hmove id none (some rdn) _ _ (errorOf?_eq_some.1 herr)
  | move id parent => exact hmove id (some parent) none _ _ (errorOf?_eq_some.1 herr)
  | moveAndRename id parent rdn => exact hmove id parent rdn _ _ (errorOf?_eq_some.1 herr)
  | addIndex attr => exact .inl (h.addIndex_complains attr _ _ (errorOf?_eq_some.1 herr))

/-! ## After every history -/

/-- **Aliases and their tuples.** After every history whose names have been read, an alias has
exactly one tuple in the index of aliases, that of its target, unless a move or a renaming has made
it an alias. The next write is refused with a sign of indices out of step only at an alias of this
last kind. -/
theorem ReachedBy.aliases_indexed {c : Config} {ws : List Write} (h : p.ReachedBy c ws)
    (hws : ∀ w ∈ ws, w.Parsed) :
    (∀ i e, p.get? i = some e → e.isAlias = true →
      ((∃ n, e.targetKey? = some n ∧
        ∀ d m, (m, i) ∈ p.system.aliasTarget.tables.tuples d ↔ m = n) ↔ ¬MadeAlias c ws i)) ∧
    ∀ w err, (ws ++ [w]).countP Write.isAdd < UInt64.size → w.error? p = some err →
      err.kind = .invariantViolation →
      ∃ i, err = .aliasNotIndexed i "target" ∧ MadeAlias c ws i := by
  refine ⟨fun i e he halias => h.alias_indexed_iff hws he halias, fun w err hadds herr hkind => ?_⟩
  obtain ⟨k, hk, hordered⟩ := h.ordered hws
  have hsize : k + w.isAdd.toNat < UInt64.size := by
    rw [List.countP_append, countP_isAdd_cons, List.countP_nil] at hadds
    omega
  rcases hordered.complains (h.linked hws) w hsize herr with hharmless | ⟨i, rfl, halias, hnone⟩
  · exact absurd hkind hharmless
  · exact ⟨i, rfl, (h.unindexed_iff hws i).1 ⟨halias, hnone⟩⟩

end Partition

/-! ### An alias without a tuple -/

namespace Sample

/-- An entry that names a target without being of class `alias`. -/
def pointer : Entry :=
  (Entry.ofName (suffix.child ⟨⟨"cn"⟩, "Pointer"⟩)).putValues
    "aliasedObjectName" [.text "ou=a,dc=example,dc=com"]

/-- The entry is renamed, and its new name puts it into the class. -/
def renameWrites : List Write := [
  .add (.ofName suffix), .add (.ofName (unit "A")), .add pointer,
  .rename 3 ⟨⟨"objectclass"⟩, "Alias"⟩]

theorem renameWrites_parsed : ∀ w ∈ renameWrites, w.Parsed := by
  have hpointer : pointer.name.Parsed :=
    parsed_of_parse "cn=Pointer,dc=example,dc=com" (by decide +kernel)
  have hrdn : Rdn.Parsed ⟨⟨"objectclass"⟩, "Alias"⟩ :=
    ⟨⟨[⟨⟨"objectclass"⟩, "Alias"⟩]⟩, parsed_of_parse "objectClass=Alias" (by decide +kernel), rfl⟩
  simp only [renameWrites, List.forall_mem_cons]
  exact ⟨suffix_parsed, unitA_parsed, hpointer, hrdn, fun _ h => nomatch h⟩

/-- The renamed entry is an alias, no alias has a tuple, and the entry can no longer be modified. -/
theorem renamed_alias : ((after renameWrites).get? 3).any Entry.isAlias = true ∧
    (after renameWrites).system.aliasTarget.tables.tuples .forward = [] ∧
    (after renameWrites).system.aliasTarget.tables.tuples .reverse = [] ∧
    (Write.modify 3 []).error? (after renameWrites) = some (.aliasNotIndexed 3 "target") := by
  decide +kernel

/-- The entry that was added as an alias has its tuple. -/
theorem linked_alias : ((after linkWrites).get? 4).any (fun e => e.isAlias &&
      e.targetKey? == some "ou=b,dc=example,dc=com") = true ∧
    (after linkWrites).system.aliasTarget.tables.tuples .forward =
      [("ou=b,dc=example,dc=com", 4)] ∧
    (after linkWrites).system.aliasTarget.tables.tuples .reverse =
      [("ou=b,dc=example,dc=com", 4)] := by
  decide +kernel

end Sample

/-- The renamed entry is an alias without a tuple, and it can no longer be modified. -/
theorem Partition.unindexed_alias_sample :
    let p := Sample.after Sample.renameWrites
    p.ReachedBy .standard Sample.renameWrites ∧ (∀ w ∈ Sample.renameWrites, w.Parsed) ∧
      p.IsAlias 3 ∧ (∀ d n, (n, 3) ∉ p.system.aliasTarget.tables.tuples d) ∧
      ((Write.modify 3 []).error? p).map Error.kind = some .invariantViolation := by
  intro p
  obtain ⟨halias, hforward, hreverse, herr⟩ := Sample.renamed_alias
  obtain ⟨e, he, halias⟩ := (Option.any_eq_true _ _).1 halias
  have hnone : ∀ d, p.system.aliasTarget.tables.tuples d = [] := by
    intro d
    cases d with
    | forward => exact hforward
    | reverse => exact hreverse
  refine ⟨Sample.after_reachedBy _ (by decide), Sample.renameWrites_parsed, ⟨e, he, halias⟩,
    fun d n hn => ?_, congrArg (Option.map Error.kind) herr⟩
  rw [hnone d] at hn
  cases hn

/-- The alias that was added as one is indexed, and the renaming made one that is not. -/
theorem Partition.aliases_indexed_sample :
    ¬MadeAlias .standard Sample.linkWrites 4 ∧ MadeAlias .standard Sample.renameWrites 3 := by
  constructor
  · obtain ⟨hget, hforward, hreverse⟩ := Sample.linked_alias
    obtain ⟨e, he, hboth⟩ := (Option.any_eq_true _ _).1 hget
    obtain ⟨halias, hkey⟩ := Bool.and_eq_true_iff.1 hboth
    have htuples : ∀ d, (Sample.after Sample.linkWrites).system.aliasTarget.tables.tuples d =
        [("ou=b,dc=example,dc=com", 4)] := by
      intro d
      cases d with
      | forward => exact hforward
      | reverse => exact hreverse
    obtain ⟨hindexed, _⟩ :=
      ReachedBy.aliases_indexed Sample.linkWrites_reachedBy Sample.linkWrites_parsed
    refine (hindexed 4 e he halias).1 ⟨_, eq_of_beq hkey, fun d m => ?_⟩
    rw [htuples d, List.mem_singleton, Prod.mk.injEq]
    exact and_iff_left rfl
  · obtain ⟨_, _, _, herr⟩ := Sample.renamed_alias
    have hreached := Sample.after_reachedBy Sample.renameWrites (by decide)
    obtain ⟨i, heq, hmade⟩ := (ReachedBy.aliases_indexed hreached Sample.renameWrites_parsed).2
      (.modify 3 []) _ (by decide) herr rfl
    cases heq
    exact hmade

end Directory
