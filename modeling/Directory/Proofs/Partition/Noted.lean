import Directory.Proofs.Partition.NoTrace

/-!
# Writes that note the ways up that they ask for

Whether a way up ends matters where it is asked for, which may be in the midst of a transaction.
Writes are steps of any kind that can ask for ways up; here each such question is noted.

* `Climb`, `Noted`, `NotedM`: a note, a state with notes, and steps that make notes. They make one
  whenever they ask for a way up, and no others.
* `Write.steps`, `Write.noted`, `Write.climbs`: the steps of a write, the same with notes, and the
  notes that they make.
* `Noted.Follows`: **steps with notes do what they do without, and the notes are all of one kind**.
  One rule for each way to combine steps.
-/

namespace Directory

/-- A way up that is asked for: where it begins, and the partition as it is then. -/
structure Climb where
  partition : Partition
  parent : Option EntryId

/-- A state, with the ways up that have been asked for so far. -/
structure Noted (σ : Type) where
  state : σ
  climbs : List Climb

/-- Steps that make a note of each way up that they ask for. -/
def NotedM (σ α : Type) := EStateM Error (Noted σ) α

/-- Steps with notes, from a state with notes. -/
def NotedM.run {σ α : Type} (w : NotedM σ α) : EStateM Error (Noted σ) α := w

namespace Noted

variable {σ α : Type}

instance : Monad (NotedM σ) := inferInstanceAs (Monad (EStateM Error (Noted σ)))

instance : MonadExcept Error (NotedM σ) :=
  inferInstanceAs (MonadExcept Error (EStateM Error (Noted σ)))

/-- A result, with notes. -/
def result (climbs : List Climb) : EStateM.Result Error σ α → EStateM.Result Error (Noted σ) α
  | .ok a s => .ok a ⟨s, climbs⟩
  | .error e s => .error e ⟨s, climbs⟩

/-- Steps that make no note. -/
instance : MonadLift (EStateM Error σ) (NotedM σ) where
  monadLift m s := result s.climbs (m s.state)

/-- A way up is noted before it is asked for. -/
instance : Climbing (NotedM σ) where
  climb p parent s := (liftM (p.ancestors parent) : NotedM σ (List EntryId))
    { s with climbs := s.climbs ++ [⟨p, parent⟩] }

/-- The notes remain, whether the steps remain or not. -/
instance : Transacting (NotedM Transaction) (NotedM Partition) where
  transact steps s :=
    match steps.run ⟨.start s.state, s.climbs⟩ with
    | .ok a t => .ok a ⟨t.state.commit, t.climbs⟩
    | .error e t => .error e ⟨t.state.dropped, t.climbs⟩

variable {β : Type}

theorem run_bind (w : NotedM σ α) (f : α → NotedM σ β) :
    (w >>= f).run = w.run >>= fun a => (f a).run := rfl

theorem run_discard (w : NotedM σ α) : (discard w).run = discard w.run := rfl

theorem run_lift (m : EStateM Error σ α) (s : σ) (climbs : List Climb) :
    (liftM m : NotedM σ α).run ⟨s, climbs⟩ = result climbs (m s) := rfl

theorem run_climb (p : Partition) (parent : Option EntryId) (s : σ) (climbs : List Climb) :
    (Climbing.climb p parent : NotedM σ (List EntryId)).run ⟨s, climbs⟩ =
      result (climbs ++ [⟨p, parent⟩])
        ((Climbing.climb p parent : EStateM Error σ (List EntryId)) s) := by
  rw [climb_eq]
  show (liftM (p.ancestors parent) : NotedM σ _).run ⟨s, climbs ++ [⟨p, parent⟩]⟩ = _
  cases p.ancestors parent <;> rfl

theorem run_transact (w : NotedM Transaction α) (p : Partition) (climbs : List Climb) :
    (Transacting.transact w : NotedM Partition α).run ⟨p, climbs⟩ =
      match w.run ⟨.start p, climbs⟩ with
      | .ok a t => .ok a ⟨t.state.commit, t.climbs⟩
      | .error e t => .error e ⟨t.state.dropped, t.climbs⟩ := rfl

end Noted

/-! ### Results that are not needed -/

section Discard

variable {ε σ α : Type}

theorem discard_eq (m : EStateM ε σ α) (s : σ) :
    discard m s = EStateM.map (Function.const α ()) m s := rfl

theorem stateAfter_discard (m : EStateM ε σ α) (s : σ) :
    stateAfter (discard m) s = stateAfter m s := by
  unfold stateAfter
  rw [discard_eq, EStateM.map]
  cases m s <;> rfl

theorem errorOf?_discard (m : EStateM ε σ α) (s : σ) :
    errorOf? (discard m) s = errorOf? m s := by
  unfold errorOf?
  rw [discard_eq, EStateM.map]
  cases m s <;> rfl

end Discard

namespace Write

section Steps

variable {m n : Type → Type} [Monad m] [MonadState Transaction m] [MonadLiftT (Except Error) m]
  [MonadLiftT (EStateM Error Transaction) m] [Climbing m] [Monad n] [MonadExcept Error n]
  [MonadState Partition n] [MonadLiftT (Except Error) n] [MonadLiftT (EStateM Error Partition) n]
  [Climbing n] [Transacting m n]

/-- The steps of a write, without its result. -/
def steps : Write → n Unit
  | add e => discard (Climbing.add e)
  | modify id ms => Climbing.modify id ms
  | delete id => Climbing.delete id
  | rename id rdn => Climbing.moveAndRename id none (some rdn)
  | move id parent => Climbing.moveAndRename id (some parent) none
  | moveAndRename id parent rdn => Climbing.moveAndRename id parent rdn
  | addIndex attr => (discard (Partition.addIndex attr) : PartitionM Unit)

end Steps

/-- The steps of a write with notes. -/
def noted (w : Write) : EStateM Error (Noted Partition) Unit := NotedM.run w.steps

/-- The ways up that a write asks for in turn, whether it succeeds or is refused. -/
def climbs (p : Partition) (w : Write) : List Climb := (stateAfter w.noted ⟨p, []⟩).climbs

theorem after_eq (p : Partition) (w : Write) :
    w.after p = stateAfter (w.steps : PartitionM Unit) p := by
  cases w with
  | add e => exact (stateAfter_discard _ p).symm
  | addIndex attr => exact (stateAfter_discard _ p).symm
  | _ => rfl

theorem error?_eq (p : Partition) (w : Write) :
    w.error? p = errorOf? (w.steps : PartitionM Unit) p := by
  cases w with
  | add e => exact (errorOf?_discard _ p).symm
  | addIndex attr => exact (errorOf?_discard _ p).symm
  | _ => rfl

end Write

namespace Noted

variable {σ α β : Type}

/-! ## Following -/

/-- From the state `s`, the steps `w` do what `m` does, and what they note is of the kind `G`. -/
def Follows (G : Climb → Prop) (w : NotedM σ α) (m : EStateM Error σ α) (s : σ) : Prop :=
  ∃ climbs, (∀ c ∈ climbs, G c) ∧ ∀ before, w.run ⟨s, before⟩ = result (before ++ climbs) (m s)

namespace Follows

variable {G : Climb → Prop} {w : NotedM σ α} {m : EStateM Error σ α} {s : σ}

theorem lift (m : EStateM Error σ α) : Follows G (liftM m) m s :=
  ⟨[], List.forall_mem_nil _, fun before => by rw [run_lift, List.append_nil]⟩

theorem ask (x : Except Error α) : Follows G (liftM x) (liftM x) s := by
  refine ⟨[], List.forall_mem_nil _, fun before => ?_⟩
  rw [List.append_nil]
  cases x <;> rfl

theorem climb {p : Partition} {parent : Option EntryId} (h : G ⟨p, parent⟩) :
    Follows G (Climbing.climb p parent) (Climbing.climb p parent) s :=
  ⟨[⟨p, parent⟩], List.forall_mem_singleton.2 h, fun before => run_climb p parent s before⟩

theorem bind {f : α → NotedM σ β} {g : α → EStateM Error σ β} (h : Follows G w m s)
    (hf : Ensures m s fun a s' => Follows G (f a) (g a) s') : Follows G (w >>= f) (m >>= g) s := by
  obtain ⟨cs, hcs, hw⟩ := h
  cases hm : m s with
  | error e s' =>
    -- what has been noted up to the refusal is all
    refine ⟨cs, hcs, fun before => ?_⟩
    have herror : w.run ⟨s, before⟩ = .error e ⟨s', before ++ cs⟩ :=
      (hw before).trans (by rw [hm]; rfl)
    rw [bind_of_error hm, run_bind, bind_of_error herror]
    rfl
  | ok a s' =>
    obtain ⟨cs', hcs', hf⟩ := hf a s' hm
    refine ⟨cs ++ cs', List.forall_mem_append.2 ⟨hcs, hcs'⟩, fun before => ?_⟩
    have hok : w.run ⟨s, before⟩ = .ok a ⟨s', before ++ cs⟩ := (hw before).trans (by rw [hm]; rfl)
    rw [bind_of_ok hm, run_bind, bind_of_ok hok, hf, List.append_assoc]

theorem lift_bind {f : α → NotedM σ β} {g : α → EStateM Error σ β}
    (hf : Ensures m s fun a s' => Follows G (f a) (g a) s') :
    Follows G (liftM m >>= f) (m >>= g) s := (lift m).bind hf

theorem ask_bind {x : Except Error α} {f : α → NotedM σ β} {g : α → EStateM Error σ β}
    (hf : ∀ a, x = .ok a → Follows G (f a) (g a) s) :
    Follows G (liftM x >>= f) (liftM x >>= g) s := (ask x).bind (Ensures.lift.2 hf)

theorem climb_bind {p : Partition} {parent : Option EntryId} (h : G ⟨p, parent⟩)
    {f : List EntryId → NotedM σ β} {g : List EntryId → EStateM Error σ β}
    (hf : ∀ as, Follows G (f as) (g as) s) :
    Follows G (Climbing.climb p parent >>= f) (Climbing.climb p parent >>= g) s :=
  (climb h).bind (Ensures.lift.2 fun as _ => hf as)

theorem get_bind {f : σ → NotedM σ β} {g : σ → EStateM Error σ β}
    (hf : Follows G (f s) (g s) s) : Follows G (get >>= f) (get >>= g) s :=
  lift_bind (Ensures.get.2 hf)

theorem pure (a : α) : Follows G (pure a) (pure a) s :=
  ⟨[], List.forall_mem_nil _, fun before => by rw [List.append_nil]; rfl⟩

theorem throw (e : Error) : Follows G (throw e : NotedM σ α) (throw e) s :=
  ⟨[], List.forall_mem_nil _, fun before => by rw [List.append_nil]; rfl⟩

theorem ite {c : Prop} [Decidable c] {w' : NotedM σ α} {m' : EStateM Error σ α}
    (h : Follows G w m s) (h' : Follows G w' m' s) :
    Follows G (if c then w else w') (if c then m else m') s := by
  split
  · exact h
  · exact h'

/-- What each step keeps may be relied on by the next. -/
theorem forM {I : σ → Prop} {f : α → NotedM σ Unit} {g : α → EStateM Error σ Unit} {xs : List α}
    (hf : ∀ x ∈ xs, ∀ s, I s → Follows G (f x) (g x) s ∧ Ensures (g x) s fun _ s' => I s')
    (hs : I s) : Follows G (xs.forM f) (xs.forM g) s := by
  induction xs generalizing s with
  | nil => exact pure ()
  | cons x xs ih =>
    obtain ⟨hx, hkeep⟩ := hf x (.head _) s hs
    exact hx.bind (hkeep.mono fun _ s' hs' => ih (fun y hy => hf y (.tail _ hy)) hs')

theorem forM_option {f : α → NotedM σ Unit} {g : α → EStateM Error σ Unit} {x? : Option α}
    (hf : ∀ x, x? = some x → Follows G (f x) (g x) s) : Follows G (x?.forM f) (x?.forM g) s := by
  cases x? with
  | none => exact pure ()
  | some x => exact hf x rfl

theorem discard (h : Follows G w m s) : Follows G (discard w) (discard m) s := by
  obtain ⟨cs, hcs, hw⟩ := h
  refine ⟨cs, hcs, fun before => ?_⟩
  rw [run_discard, discard_eq, discard_eq, EStateM.map, EStateM.map, hw]
  cases m s <;> rfl

theorem transact {steps : NotedM Transaction α} {m : TransactionM α} {p : Partition}
    (h : Follows G steps m (.start p)) :
    Follows G (Transacting.transact steps) (Transacting.transact m) p := by
  obtain ⟨cs, hcs, hw⟩ := h
  refine ⟨cs, hcs, fun before => ?_⟩
  rw [transact_eq, Partition.transact, run_transact, hw]
  cases m (.start p) <;> rfl

end Follows

end Noted

end Directory
