import Directory.Proofs.Partition.Noted
import Directory.Proofs.Partition.Subtree
import Directory.Proofs.Partition.WayUp

/-!
# Ways up that writes ask for

Ways up are asked for before the entries change in the course of a write and after that, when the
indices are out of step with them. At any of these times the entries are such that ways up end.

* `Climb.Ends`: a way up that ends as it should.
* `Transaction.Holds`: the entries are given ones, which careful steps leave alone.
  `Rooted.follows_addLink`, `follows_dropLink`, `follows_relink`: among entries whose ways up end,
  the steps on links ask only for such ways up.
* `Transaction.follows_enter`, `follows_amend`, `follows_remove`, `follows_relocate`: so do whole
  transactions, before the entries change and after that.
* `Partition.Reachable.get?_nextId`: the number that comes next is always free.
* `Partition.Reachable.climbs_end`: **every way up that a write asks for ends**.
-/

namespace Directory

/-! ## Entries in the course of a transaction -/

/-- The way up ends as it should. -/
def Climb.Ends (c : Climb) : Prop := ∃ as, c.partition.Ascent c.parent as

/-- The parent, if there is one, is stored. -/
def Placed (master : SortedMap EntryId Entry) (parent : Option EntryId) : Prop :=
  ∀ q, parent = some q → ∃ f, master.get? q = some f

namespace Transaction

/-- The tables are in step, and the entries are these. -/
structure Holds (master : SortedMap EntryId Entry) (t : Transaction) : Prop where
  sound : t.partition.Sound
  master : t.partition.master = master

theorem Careful.holds {α : Type} {C : SortedMap EntryId Entry → Prop} {m : TransactionM α}
    (hm : Careful C m) {master : SortedMap EntryId Entry} (hC : C master) {t : Transaction}
    (ht : t.Holds master) : Ensures m t fun _ t' => t'.Holds master :=
  (hm t ht.sound (ht.master.symm ▸ hC)).2.mono fun _ _ h => ⟨h.1, h.2.trans ht.master⟩

end Transaction

/-! ## Steps on links

A link's parent is stored when the link is dropped and when it is entered, and this is all that the
steps on links need of it. -/

namespace Rooted

open Noted Transaction

variable {master : SortedMap EntryId Entry} {t : Transaction} {α β : Type}

theorem placed (h : Rooted master) {i : EntryId} {e : Entry} (he : master.get? i = some e) :
    Placed master e.parent := fun q => h.parents i e q he

/-- At any time of a transaction only the entries matter for a way up. -/
theorem ends (h : Rooted master) (ht : t.Holds master) {parent : Option EntryId}
    (hparent : Placed master parent) : Climb.Ends ⟨t.partition, parent⟩ := by
  obtain ⟨_, rfl⟩ := ht
  exact h.exists_ascent hparent

theorem placed_linkOf {p : Partition} (h : Rooted p.master) (hp : p.Sound) {i : EntryId} {e : Entry}
    (he : p.get? i = some e) {link : Option AliasLink} (hlink : p.linkOf e = .ok link)
    (l : AliasLink) (hl : link = some l) : Placed p.master l.parent :=
  (Partition.linkOf_recorded hp hlink l (Option.mem_toList.2 hl)).2.parent ▸ h.placed he

/-- Careful steps come first, which ask for no way up. -/
theorem careful_bind (h : Rooted master) {m : TransactionM α} {f : α → NotedM Transaction β}
    {g : α → TransactionM β} (hm : Careful Acyclic m) (ht : t.Holds master)
    (hf : ∀ a t', t'.Holds master → Follows Climb.Ends (f a) (g a) t') :
    Follows Climb.Ends (liftM m >>= f) (m >>= g) t :=
  .lift_bind ((hm.holds h.acyclic ht).mono hf)

theorem follows_outsideAncestors (h : Rooted master) (ht : t.Holds master) {q : EntryId}
    (hq : Placed master (some q)) (name : Dn) :
    Follows Climb.Ends (Climbing.outsideAncestors t.partition q name)
      (Climbing.outsideAncestors t.partition q name) t :=
  .climb_bind (h.ends ht hq) fun _ => .ask _

theorem follows_addLink (h : Rooted master) (ht : t.Holds master) {l : AliasLink}
    (hl : Placed master l.parent) :
    Follows Climb.Ends (Climbing.addLink l) (Transaction.addLink l) t := by
  obtain ⟨source, parent, targetNormalized, target, targetName⟩ := l
  unfold Transaction.addLink Climbing.addLink
  refine h.careful_bind (.changeNames _ _) ht fun _ t₁ h₁ => ?_
  cases parent with
  | none => exact .pure ()
  | some q =>
    refine .get_bind (.ask_bind fun e _ => .ite ?_ ?_)
    · refine h.careful_bind (.changeTree _ _) h₁ fun _ t₂ h₂ => ?_
      exact .get_bind (.bind (h.follows_outsideAncestors h₂ hl _) fun _ _ _ => .lift _)
    · exact .get_bind (.bind (h.follows_outsideAncestors h₁ hl _) fun _ _ _ => .lift _)

theorem follows_dropLink (h : Rooted master) (ht : t.Holds master) {l : AliasLink}
    (hl : Placed master l.parent) :
    Follows Climb.Ends (Climbing.dropLink l) (Transaction.dropLink l) t := by
  obtain ⟨source, parent, targetNormalized, target, targetName⟩ := l
  unfold Transaction.dropLink Climbing.dropLink
  refine .get_bind (.ask_bind fun others _ => ?_)
  cases parent with
  | none => exact .lift _
  | some q =>
    refine .ite (h.careful_bind (.changeTree _ _) ht fun _ t₁ h₁ => ?_) ?_
    · exact .get_bind (.climb_bind (h.ends h₁ hl) fun above =>
        .lift_bind fun _ _ _ => .lift _)
    · exact .get_bind (.climb_bind (h.ends ht hl) fun above =>
        .lift_bind fun _ _ _ => .lift _)

theorem follows_relink (h : Rooted master) (ht : t.Holds master) (l : AliasLink) :
    Follows Climb.Ends (Climbing.relink l) (Transaction.relink l) t := by
  unfold Transaction.relink Climbing.relink
  refine .get_bind (.ask_bind fun e he => .ask_bind fun l' hl' => ?_)
  have he : master.get? l.source = some e := ht.master ▸ Partition.lookup_eq_ok.1 he
  exact h.follows_addLink ht ((Partition.aliasLink_eq_ok hl').1.parent ▸ h.placed he)

end Rooted

/-! ## Whole transactions -/

namespace Transaction

open Noted Directory.Partition

variable {t : Transaction} {e : Entry} {id : EntryId}

/-- The entries change first of all. -/
theorem follows_enter (ht : t.partition.Sound) {link : Option AliasLink}
    (h : Rooted (t.partition.master.insert e.id e))
    (hlink : ∀ l, link = some l → l.parent = e.parent) :
    Follows Climb.Ends (Climbing.enter e link) (Transaction.enter e link) t := by
  unfold Transaction.enter Climbing.enter
  have hparent : Placed _ e.parent := h.placed (SortedMap.get?_insert_self ..)
  refine .lift_bind ((Ensures.putEntry ht e).mono fun _ t₁ h₁ => ?_)
  refine h.careful_bind (.changeNames _ _) ⟨h₁.sound, h₁.master⟩ fun _ t₂ h₂ => ?_
  refine .bind (.forM_option fun _ _ => .lift _) ?_
  refine ((Careful.forM_option (fun _ => .changeTree _ _) _).holds h.acyclic h₂).mono
    fun _ t₃ h₃ => ?_
  refine .get_bind (.climb_bind (h.ends h₃ hparent) fun above => ?_)
  refine h.careful_bind (.changeTree _ _) h₃ fun _ t₄ h₄ => ?_
  refine h.careful_bind (.reindex _ _ _) h₄ fun _ t₅ h₅ => ?_
  exact .forM_option fun l hl => h.follows_addLink h₅ (hlink l hl ▸ hparent)

/-- The old link is dropped among the old entries, and the new one is entered among the new. -/
theorem follows_amend (ht : t.partition.Sound) (h : Rooted t.partition.master) (id : EntryId)
    (old new : Entry) {dropped added : Option AliasLink}
    (h' : Rooted (t.partition.master.insert new.id new))
    (hdropped : ∀ l, dropped = some l → Placed t.partition.master l.parent)
    (hadded : ∀ l, added = some l → l.parent = new.parent) :
    Follows Climb.Ends (Climbing.amend id old new dropped added)
      (Transaction.amend id old new dropped added) t := by
  unfold Transaction.amend Climbing.amend
  have hnew : Placed _ new.parent := h'.placed (SortedMap.get?_insert_self ..)
  refine .bind (.forM_option fun l hl => h.follows_dropLink ⟨ht, rfl⟩ (hdropped l hl)) ?_
  refine ((Careful.forM_option .dropLink dropped).holds h.acyclic ⟨ht, rfl⟩).mono fun _ t₁ h₁ => ?_
  refine h.careful_bind (.reindex _ _ _) h₁ fun _ t₂ h₂ => ?_
  refine .lift_bind ((Ensures.putEntry h₂.sound new).mono fun _ t₃ h₃ => ?_)
  have h₃ : t₃.Holds (t.partition.master.insert new.id new) := ⟨h₃.sound, h₂.master ▸ h₃.master⟩
  exact .forM_option fun l hl => h'.follows_addLink h₃ (hadded l hl ▸ hnew)

theorem follows_remove (ht : t.partition.Sound) (h : Rooted t.partition.master) (id : EntryId)
    (e : Entry) {link : Option AliasLink}
    (hlink : ∀ l, link = some l → Placed t.partition.master l.parent) :
    Follows Climb.Ends (Climbing.remove id e link) (Transaction.remove id e link) t := by
  unfold Transaction.remove Climbing.remove
  exact .bind (.forM_option fun l hl => h.follows_dropLink ⟨ht, rfl⟩ (hlink l hl))
    fun _ _ _ => .lift _

/-- The links are dropped where the subtree was, and entered again where it is, although the indices
of the tree and of names have followed only just before. -/
theorem follows_relocate (hp : t.partition.Arranged) (ht : t.partition.Sound)
    (hown : t.partition.OwnNumbers) (hvalues : t.partition.ValuesIndexed) {rdn : Option Rdn}
    {mv : Move} (hmv : t.partition.Planned id rdn mv)
    (hlinks : ∀ l ∈ mv.links, Placed t.partition.master l.parent) :
    Follows Climb.Ends (Climbing.relocate mv) (Transaction.relocate mv) t := by
  have h := hp.rooted
  have hmembers : mv.members.Nodup := hmv.members ▸ Index.nodup_ids
  refine .bind (.forM (I := Holds t.partition.master) (fun l hl t ht => ?_) ⟨ht, rfl⟩) ?_
  · exact ⟨h.follows_dropLink ht (hlinks l hl), (Careful.dropLink l).holds h.acyclic ht⟩
  refine (Ensures.forM_links (fun t ht => Ensures.dropLink ht) (.refl ht) _).mono fun _ t₁ h₁ => ?_
  have hown₁ := hown.congr h₁.master
  have hvalues₁ := hvalues.congr h₁.same h₁.master h₁.tagged h₁.present
  refine .lift_bind ((Ensures.mapM_moveMember h₁.sound hown₁ hvalues₁ hmembers).mono
    fun renamed t₂ h₂ => ?_)
  -- from here on the members have their new records
  have h₂ := Partition.Moving.after h₁ h₂
  have h' : Rooted t₂.partition.master := Rewritten.rooted ⟨h₂.others, h₂.moved⟩ hp hown hmv
  refine h'.careful_bind (.changeNames _ _) ⟨h₂.sound, rfl⟩ fun _ t₃ h₃ => ?_
  refine h'.careful_bind (.reparent mv) h₃ fun _ t₄ h₄ => ?_
  refine .forM (I := Holds t₂.partition.master) (fun l _ t ht => ?_) h₄
  exact ⟨h'.follows_relink ht l, (Careful.relink l).holds h'.acyclic ht⟩

end Transaction

/-! ## Plans -/

namespace Partition

open Noted

variable {p : Partition} {e : Entry} {id : EntryId}

theorem Arranged.follows_planMove (h : p.Arranged) (id : EntryId) (newParent : Option Dn)
    (newRdn : Option Rdn) :
    Follows Climb.Ends (Climbing.planMove p id newParent newRdn)
      (Climbing.planMove p id newParent newRdn) p := by
  unfold Climbing.planMove
  refine .ask_bind fun e he => ?_
  cases hold : e.parent with
  | none => exact .throw _
  | some q =>
    refine .ask_bind fun q' _ => ?_
    cases hrdn : newRdn <|> e.name.rdn? with
    | none => exact .throw _
    | some r =>
      refine .ask_bind fun f hf => ?_
      have hends : ∀ q, Placed p.master q → Climb.Ends ⟨p, q⟩ := fun _ => h.rooted.exists_ascent
      have hold : Placed p.master (some q) := hold ▸ h.rooted.placed (lookup_eq_ok.1 he)
      have hnew : Placed p.master (some q') := by
        rintro _ ⟨⟩
        exact ⟨f, lookup_eq_ok.1 hf⟩
      dsimp only
      split
      · exact .throw _
      · exact .ask_bind fun links _ => .climb_bind (hends _ hold) fun oldAncestors =>
          .climb_bind (hends _ hnew) fun ancestors => .pure _

/-! ## Numbers -/

theorem Valued.stored_of_leaves {n : Nat} {p' : Partition} {w : Write} (h : p.Valued n)
    (h' : p.Leaves w p') (hid : p'.Stored id) :
    p.Stored id ∨ (w.isAdd = true ∧ id = p.nextId) := by
  have hinserted : ∀ i e, p'.master = p.master.insert i e → p.Stored id ∨ id = i := by
    intro i e hmaster
    by_cases hi : id = i
    · exact .inr hi
    · rw [Stored, get?_inserted_of_ne hmaster hi] at hid
      exact .inl hid
  cases h' with
  | refused w => exact .inl hid
  | skipped e => exact .inl hid
  | added he h' => exact (hinserted _ _ h'.master).imp_right fun hi => ⟨rfl, hi⟩
  | @amended id' ms old new p' hold hnew hcheck h' =>
    have hnew : new.id = id' := (modifiedBy_eq_ok hnew).1.trans (h.own id' old hold)
    rcases hinserted _ _ h'.master with hid | rfl
    · exact .inl hid
    · exact .inl ⟨old, hnew ▸ hold⟩
  | @removed id' e p' he hchildren h' =>
    obtain ⟨f, hf⟩ := hid
    exact .inl ⟨f, (get?_of_erased h'.master hf).2⟩
  | relocated hw hmv h' => exact .inl (h'.rewritten.stored_iff.1 hid)
  | @indexAdded attr p' h' =>
    have hmaster : p'.master = p.master := by rw [h'.rest]
    rw [Stored, get?_congr hmaster] at hid
    exact .inl hid

/-- The next number is free, even after the last of all additions, when it is zero. -/
theorem Reachable.get?_nextId (h : p.Reachable) : p.get? p.nextId = none := by
  obtain ⟨c, ws, hp⟩ := h
  -- zero comes after the greatest number, and no addition gets that far
  obtain ⟨n, hn, hvalued, hzero⟩ := hp.induction (I := fun n p => p.Valued n ∧ ¬p.Stored 0)
    (fun _ => True) (fun _ _ => trivial) (fun _ => trivial)
    (fun suffix _ _ => ⟨.bare c suffix, fun ⟨_, he⟩ => nomatch he⟩)
    fun n p w _ hn ⟨hp, hzero⟩ => by
      have hleaves := hp.leaves w hn
      obtain ⟨m, hm, hp'⟩ := hp.write hn hleaves
      refine ⟨m, hm, hp', fun hstored => ?_⟩
      rcases hp.stored_of_leaves hleaves hstored with hstored | ⟨hadd, hnext⟩
      · exact hzero hstored
      · rw [hadd] at hn
        have hnext := congrArg UInt64.toNat (hnext.trans hp.nextId)
        cases hnext.trans (UInt64.toNat_ofNat_of_lt' hn)
  by_cases hlast : n + 1 < UInt64.size
  · exact hvalued.get?_nextId hlast
  · have hsize : n + 1 = UInt64.size := by
      have := hp.adds
      omega
    rw [hvalued.nextId, hsize]
    exact Option.eq_none_iff_forall_ne_some.2 fun e he => hzero ⟨e, he⟩

/-! ## Writes -/

theorem Reachable.follows_add (h : p.Reachable) (e : Entry) :
    Follows Climb.Ends (Climbing.add e) (Partition.add e) p := by
  obtain ⟨n, hvalued⟩ := h.valued
  unfold Partition.add Climbing.add
  refine .get_bind (.ask_bind fun e' he' => .lift_bind ?_)
  -- the number is taken before the transaction begins
  unfold takeId
  simp only [Ensures.bind, Ensures.get, Ensures.modify, Ensures.pure]
  refine .get_bind (.ask_bind fun link hlink => .bind (.transact ?_) fun _ _ _ => .pure _)
  refine Transaction.follows_enter hvalued.sound.skipped ?_ fun l hl => ?_
  · exact h.arranged.rooted_inserted (e := { e' with id := p.nextId }) h.get?_nextId
      fun q hq => stored_of_newEntry he' hq
  · exact (linkFor_admitted hlink l (Option.mem_toList.2 hl)).2.parent

theorem Reachable.follows_modify (h : p.Reachable) (id : EntryId) (ms : List Modification) :
    Follows Climb.Ends (Climbing.modify id ms) (Partition.modify id ms) p := by
  obtain ⟨n, hvalued⟩ := h.valued
  have hroot := h.arranged.rooted
  unfold Partition.modify Climbing.modify
  refine .get_bind (.ask_bind fun old hold => .ask_bind fun new hnew => .ask_bind fun _ _ => ?_)
  refine .ask_bind fun oldLink hdropped => .ask_bind fun newLink hadded => ?_
  have hold := lookup_eq_ok.1 hold
  obtain ⟨hid, _, hparent⟩ := modifiedBy_eq_ok hnew
  have hid : new.id = id := hid.trans (hvalued.own id old hold)
  have hroot' : Rooted (p.master.insert new.id new) :=
    h.arranged.rooted_amended (hid.symm ▸ hold) hparent
  refine .ite (.transact ?_) (.transact ?_)
  · exact Transaction.follows_amend hvalued.sound hroot id old new hroot' nofun nofun
  · exact Transaction.follows_amend hvalued.sound hroot id old new hroot'
      (hroot.placed_linkOf hvalued.sound hold hdropped)
      fun l hl => (linkFor_admitted hadded l (Option.mem_toList.2 hl)).2.parent

theorem Reachable.follows_delete (h : p.Reachable) (id : EntryId) :
    Follows Climb.Ends (Climbing.delete id) (Partition.delete id) p := by
  obtain ⟨n, hvalued⟩ := h.valued
  have hroot := h.arranged.rooted
  unfold Partition.delete Climbing.delete
  refine .get_bind (.ask_bind fun (e, link) hremovable => .transact ?_)
  obtain ⟨he, _⟩ := removable_eq_ok hremovable
  obtain ⟨_, hlink⟩ := removable_links hremovable
  exact Transaction.follows_remove hvalued.sound hroot id e
    (hroot.placed_linkOf hvalued.sound he hlink)

theorem Reachable.follows_moveAndRename (h : p.Reachable) (id : EntryId) (newParent : Option Dn)
    (newRdn : Option Rdn) :
    Follows Climb.Ends (Climbing.moveAndRename id newParent newRdn)
      (Partition.moveAndRename id newParent newRdn) p := by
  obtain ⟨n, hvalued⟩ := h.valued
  have hroot := h.arranged.rooted
  unfold Partition.moveAndRename Climbing.moveAndRename
  refine .get_bind (.bind (h.arranged.follows_planMove _ _ _) ?_)
  rw [planMove_eq]
  refine Ensures.lift.2 fun mv hmv => ?_
  obtain ⟨_, hlinks, _⟩ := linksToMove_eq_ok hvalued.sound (planMove_links hmv)
  refine .transact (Transaction.follows_relocate h.arranged hvalued.sound hvalued.own
    hvalued.values (planMove_eq_ok hmv) fun l hl => ?_)
  obtain ⟨m, _, e, he, _, hrecorded⟩ := hlinks l hl
  exact hrecorded.parent ▸ hroot.placed he

theorem Reachable.follows (h : p.Reachable) (w : Write) :
    Follows Climb.Ends w.steps w.steps p := by
  cases w with
  | add e => exact (h.follows_add e).discard
  | modify id ms => exact h.follows_modify id ms
  | delete id => exact h.follows_delete id
  | rename id rdn => exact h.follows_moveAndRename id none (some rdn)
  | move id parent => exact h.follows_moveAndRename id (some parent) none
  | moveAndRename id parent rdn => exact h.follows_moveAndRename id parent rdn
  | addIndex attr => exact .lift _

/-- **Ways up end wherever writes ask for them.** Told with notes, a write that follows a history
does what it does without. The notes are of the ways up that it asks for: before its transaction,
when a new entry has been put, while links are dropped and entered, and when a whole subtree has
another parent, whether the write succeeds in the end or is refused. Each of these ways up ends
without an error, in no more rounds than there are entries then, with the parent and all that lies
above it, nearest first and each once. -/
theorem Reachable.climbs_end (h : p.Reachable) (w : Write) :
    (stateAfter w.noted ⟨p, []⟩).state = w.after p ∧ errorOf? w.noted ⟨p, []⟩ = w.error? p ∧
      ∀ c ∈ w.climbs p, ∃ as, c.partition.Ascent c.parent as := by
  obtain ⟨cs, hcs, hw⟩ := h.follows w
  have hw : w.noted ⟨p, []⟩ = result cs ((w.steps : PartitionM Unit) p) := hw []
  rw [w.after_eq, w.error?_eq]
  unfold Write.climbs stateAfter errorOf?
  rw [hw]
  cases (w.steps : PartitionM Unit) p <;> exact ⟨rfl, rfl, hcs⟩

end Partition

/-! ### A move that enters a link again -/

namespace Sample

/-- Three units, and an alias in the first one that stands for the second one. -/
def climbWrites : List Write := linkWrites ++ [.add (.ofName (unit "C"))]

/-- The first unit moves with the alias below the third one. -/
def climbMove : Write := .move 2 (unit "C")

/-- The ways up before the move, one for the link that is dropped, and one for the link that is
entered when the unit already has its new parent. -/
theorem climbMove_climbs : climbMove.error? (after climbWrites) = none ∧
    (climbMove.climbs (after climbWrites)).map (fun c =>
      (c.partition.ancestors c.parent).toOption) =
        [some [1], some [5, 1], some [2, 1], some [2, 5, 1]] := by
  decide +kernel

end Sample

/-- The move succeeds, and all of its ways up end. -/
theorem Partition.climbs_end_sample :
    let p := Sample.after Sample.climbWrites
    p.Reachable ∧ Sample.climbMove.error? p = none ∧ (Sample.climbMove.climbs p).length = 4 ∧
      ∀ c ∈ Sample.climbMove.climbs p, ∃ as, c.partition.Ascent c.parent as := by
  intro p
  have hp : p.Reachable := ⟨_, _, Sample.after_reachedBy Sample.climbWrites (by decide)⟩
  obtain ⟨hok, hclimbs⟩ := Sample.climbMove_climbs
  obtain ⟨_, _, hends⟩ := Reachable.climbs_end hp Sample.climbMove
  exact ⟨hp, hok, by simpa using congrArg List.length hclimbs, hends⟩

end Directory
