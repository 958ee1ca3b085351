import Directory.Proofs.Partition.Values

/-!
# Whole transactions

A transaction is a list of steps, each of which is carried out or refused; after a refusal the
transaction goes on.

* `Index.Built`, `Partition.Built`: indices that batches of changes have filled, which are those in
  step.
* `Transaction.Step`, `Step.run`: one step of a transaction.
* `Transaction.Step.refused_iff`: a step is refused only for want of an index.
* `Transaction.rollback_afterAll`: **taking a transaction back, or dropping it, gives the partition
  from which it started, whatever its steps were**.
-/

namespace Directory

namespace Index

variable {κ : Type} [Ord κ] [Std.TransOrd κ] [Std.LawfulEqOrd κ]

/-- An index that batches of changes have made of an empty one. -/
inductive Built : Index κ → Prop
  | empty (name : String) (ordered : Bool) : Built (.empty name ordered)
  | apply {x y : Index κ} {cs undo : List (Change κ)} (hx : Built x)
      (h : x.apply cs = .ok (y, undo)) : Built y

/-- What batches make are the indices whose tables are in step. -/
theorem built_iff {x : Index κ} : x.Built ↔ x.WellFormed := by
  constructor
  · intro h
    induction h with
    | empty name ordered => exact wellFormed_empty name ordered
    | apply _ happly ih => exact (apply_eq_ok ih happly).1
  · intro h
    -- one batch that adds all tuples
    obtain ⟨y, undo, hy, hwf, hname, hordered, hhas, _⟩ :=
      apply_spec (wellFormed_empty x.name x.ordered) (x.tables.byKey.map fun s => .add s.1 s.2)
    have hyx : y = x := hwf.ext h hname hordered fun k id => by
      rw [hhas, Change.allOnto_adds, Tables.mem_byKey]
      exact or_iff_left not_has_empty
    exact hyx ▸ .apply (.empty x.name x.ordered) hy

end Index

/-- All indices of the partition are what batches of changes have made of empty ones. Its entries
may be any. -/
structure Partition.Built (p : Partition) : Prop where
  names : ∀ i, (p.system.names i).Built
  tree : ∀ i, (p.system.tree i).Built
  presence : p.presence.Built
  user : ∀ a x, p.userIndex? a = some x → x.Built

theorem Partition.built_iff {p : Partition} : p.Built ↔ p.Sound := by
  constructor
  · rintro ⟨hnames, htree, hpresence, huser⟩
    exact ⟨fun i => Index.built_iff.1 (hnames i), fun i => Index.built_iff.1 (htree i),
      Index.built_iff.1 hpresence, fun a x hx => Index.built_iff.1 (huser a x hx)⟩
  · rintro ⟨hnames, htree, hpresence, huser⟩
    exact ⟨fun i => Index.built_iff.2 (hnames i), fun i => Index.built_iff.2 (htree i),
      Index.built_iff.2 hpresence, fun a x hx => Index.built_iff.2 (huser a x hx)⟩

theorem Partition.Reachable.built {p : Partition} (h : p.Reachable) : p.Built := by
  obtain ⟨n, hvalued⟩ := h.valued
  exact built_iff.2 hvalued.sound

namespace Transaction

/-- A step of a transaction. -/
inductive Step where
  | user (attr : AttributeId) (changes : List (Change Value))
  | presence (changes : List (Change AttributeId))
  | names (index : NameIndex) (changes : List (Change String))
  | tree (index : TreeIndex) (changes : List (Change EntryId))
  | putEntry (e : Entry)
  | removeEntry (id : EntryId)

/-- Carries a step out. -/
def Step.run : Step → TransactionM Unit
  | user a cs => changeUser a cs
  | presence cs => changePresence cs
  | names i cs => changeNames i cs
  | tree i cs => changeTree i cs
  | putEntry e => Transaction.putEntry e
  | removeEntry id => Transaction.removeEntry id

/-- The transaction after steps, those that are refused included. -/
def afterAll (t : Transaction) (ss : List Step) : Transaction :=
  ss.foldl (fun t s => stateAfter s.run t) t

variable {t t' : Transaction}

/-! ## One step -/

theorem Step.reversible (s : Step) : Reversible s.run := by
  cases s with
  | user a cs => exact .changeUser a cs
  | presence cs => exact .changePresence cs
  | names i cs => exact .changeNames i cs
  | tree i cs => exact .changeTree i cs
  | putEntry e => exact .putEntry e
  | removeEntry id => exact .removeEntry id

/-- A step is refused if its change of the partition is, and leaves everything as it was. -/
theorem step_eq_error {δ : Type} (apply : Partition → Except Error (Partition × δ)) (u : δ → Undo)
    {e : Error} : (do let (p, d) ← apply (← get).partition; record p (u d) : TransactionM Unit) t =
      .error e t' ↔ t' = t ∧ apply t.partition = .error e := by
  have hrun : (do let (p, d) ← apply (← get).partition; record p (u d) : TransactionM Unit) t =
      (do let (p, d) ← apply t.partition; record p (u d) : TransactionM Unit) t := rfl
  rw [hrun]
  cases apply t.partition with
  | ok r => exact ⟨fun h => (nomatch h), fun ⟨_, h⟩ => nomatch h⟩
  | error e' =>
    constructor
    · intro h
      cases h
      exact ⟨rfl, rfl⟩
    · rintro ⟨rfl, h⟩
      cases h
      rfl

/-- As long as the tables are in step, a step is refused only for want of an index. It leaves the
transaction as it was. -/
theorem Step.refused_iff (ht : t.partition.Sound) (s : Step) {e : Error} :
    s.run t = .error e t' ↔
      t' = t ∧ ∃ a cs, s = .user a cs ∧ t.partition.userIndex a = .error e := by
  cases s with
  | user a cs =>
    refine (step_eq_error (·.applyUser a cs) (.user a)).trans (and_congr_right fun _ => ?_)
    cases hx : t.partition.userIndex a with
    | error e' => simp [Partition.applyUser, hx]
    | ok x =>
      obtain ⟨y, undo, hy, _⟩ :=
        Index.apply_spec (ht.user a x (Partition.userIndex_eq_ok.1 hx)) cs
      simp [Partition.applyUser, hx, hy]
  | presence cs =>
    obtain ⟨y, undo, hy, _⟩ := Index.apply_spec ht.presence cs
    refine (step_eq_error (·.applyPresence cs) .presence).trans (and_congr_right fun _ => ?_)
    simp [Partition.applyPresence, hy]
  | names i cs =>
    obtain ⟨y, undo, hy, _⟩ := Index.apply_spec (ht.names i) cs
    refine (step_eq_error (·.applyNames i cs) (.names i)).trans (and_congr_right fun _ => ?_)
    simp [Partition.applyNames, hy]
  | tree i cs =>
    obtain ⟨y, undo, hy, _⟩ := Index.apply_spec (ht.tree i) cs
    refine (step_eq_error (·.applyTree i cs) (.tree i)).trans (and_congr_right fun _ => ?_)
    simp [Partition.applyTree, hy]
  | putEntry | removeEntry =>
    constructor
    · intro h
      cases h
    · rintro ⟨_, _, _, h, _⟩
      cases h

/-! ## All steps -/

/-- Every list of steps leads from a transaction to one that leads back. -/
theorem leadsTo_afterAll (ht : t.partition.Sound) (ss : List Step) : t.LeadsTo (t.afterAll ss) := by
  induction ss generalizing t with
  | nil => exact .refl ht
  | cons s ss ih =>
    have hstep : t.LeadsTo (stateAfter s.run t) := s.reversible t ht
    exact hstep.trans (ih hstep.sound)

/-- **Taking a transaction back.** However the indices have been filled and whatever the steps do,
taking them all back succeeds and gives the partition from which the transaction started: its
entries, both tables and the number of tuples of each index, and the next free number. A transaction
that is dropped leaves the same. -/
theorem rollback_afterAll {p : Partition} (hp : p.Built) (ss : List Step) :
    ((start p).afterAll ss).rollback = (.ok (), p) ∧ ((start p).afterAll ss).dropped = p := by
  have hback : (start p).LeadsTo ((start p).afterAll ss) :=
    leadsTo_afterAll (Partition.built_iff.1 hp) ss
  exact ⟨hback.rollback, hback.dropped⟩

end Transaction

/-! ### A transaction on a history -/

namespace Sample

/-- Tuples that are there already, that come and go, and that go; a change of an index that does not
exist; a record that is replaced and removed. -/
def steps : List Transaction.Step := [
  .user ⟨"cn"⟩ [.add (.text "ann") 4, .add (.text "x") 4, .drop (.text "x") 4, .add (.text "x") 4],
  .user ⟨"sn"⟩ [.add (.text "lee") 4],
  .names .entry [.drop "ou=a,dc=example,dc=com" 2, .drop "ou=a,dc=example,dc=com" 2],
  .tree .subLevel [.drop 1 4, .add 1 4, .drop 1 4],
  .putEntry { Entry.ofName suffix with id := 4 }, .removeEntry 4, .removeEntry 9]

end Sample

/-- The steps remove an entry and a tuple of it, and one step is refused. -/
theorem Transaction.rollback_sample : Sample.partition.Built ∧
    ((start Sample.partition).afterAll Sample.steps).partition.get? 4 = none ∧
    ((start Sample.partition).afterAll Sample.steps).journal.length = 6 ∧
    ((start Sample.partition).afterAll Sample.steps).rollback = (.ok (), Sample.partition) ∧
    ((start Sample.partition).afterAll Sample.steps).dropped = Sample.partition :=
  ⟨Sample.reachable.built, by decide +kernel, by decide +kernel,
    Transaction.rollback_afterAll Sample.reachable.built Sample.steps⟩

end Directory
