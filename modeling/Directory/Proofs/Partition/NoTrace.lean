import Directory.Proofs.Partition.History

/-!
# Refused writes leave no trace

* `errorOf?`, `Write.error?`: the error with which steps, or a write, are refused.
* `Partition.Sound.after`: every write leaves the tables of all indices in step, however many
  numbers have been used up.
* `Partition.refused_write_leaves_no_trace`: **a write that is refused has changed neither entries
  nor indices**.
-/

namespace Directory

/-! ## Errors -/

section Errors

variable {ε σ α : Type}

/-- The error with which `m` is refused from `s`, if it is. -/
def errorOf? (m : EStateM ε σ α) (s : σ) : Option ε :=
  match m s with
  | .ok _ _ => none
  | .error e _ => some e

theorem errorOf?_eq_some {m : EStateM ε σ α} {s : σ} {e : ε} :
    errorOf? m s = some e ↔ m s = .error e (stateAfter m s) := by
  unfold errorOf? stateAfter
  cases m s with
  | ok a s' => exact ⟨fun h => (nomatch h), fun h => nomatch h⟩
  | error e' s' => exact ⟨fun h => by cases h; rfl, fun h => by cases h; rfl⟩

theorem errorOf?_eq_none {m : EStateM ε σ Unit} {s : σ} :
    errorOf? m s = none ↔ m s = .ok () (stateAfter m s) := by
  unfold errorOf? stateAfter
  cases m s with
  | ok a s' => exact ⟨fun _ => rfl, fun _ => rfl⟩
  | error e s' => exact ⟨fun h => (nomatch h), fun h => nomatch h⟩

theorem Refuses.stateAfter {m : EStateM ε σ α} {s : σ} {Q : σ → Prop} (h : Refuses m s Q) {e : ε}
    (he : errorOf? m s = some e) : Q (stateAfter m s) :=
  h e _ (errorOf?_eq_some.1 he)

end Errors

/-- The error with which a write is refused, if it is. -/
def Write.error? (p : Partition) : Write → Option Error
  | add e => errorOf? (Partition.add e) p
  | modify id ms => errorOf? (Partition.modify id ms) p
  | delete id => errorOf? (Partition.delete id) p
  | rename id rdn => errorOf? (Partition.rename id rdn) p
  | move id parent => errorOf? (Partition.move id parent) p
  | moveAndRename id parent rdn => errorOf? (Partition.moveAndRename id parent rdn) p
  | addIndex attr => errorOf? (Partition.addIndex attr) p

/-! ## Tables in step -/

theorem Ensures.sound_transact {α : Type} {steps : TransactionM α} {p : Partition}
    (hsteps : Transaction.Reversible steps) (hp : p.Sound) :
    Ensures (Partition.transact steps) p fun _ p' => p'.Sound :=
  Ensures.transact.2 (hsteps.ensures_sound hp)

namespace Partition

open Transaction

variable {p : Partition}

namespace Sound

theorem skipped (h : p.Sound) : Sound { p with nextId := p.nextId + 1 } := ⟨h.1, h.2, h.3, h.4⟩

theorem ensures_add (h : p.Sound) (e : Entry) : Ensures (add e) p fun _ p' => p'.Sound := by
  unfold add Climbing.add takeId
  simp only [liftM_self, Ensures.bind, Ensures.get, Ensures.modify, Ensures.pure, Ensures.lift]
  exact fun _ _ _ _ => Ensures.sound_transact (.enter _ _) h.skipped

theorem ensures_modify (h : p.Sound) (id : EntryId) (ms : List Modification) :
    Ensures (modify id ms) p fun _ p' => p'.Sound := by
  unfold modify Climbing.modify
  simp only [Ensures.bind, Ensures.get, Ensures.lift]
  intro old _ new _ _ _ oldLink _ newLink _
  split <;> exact Ensures.sound_transact (.amend _ _ _ _ _) h

theorem ensures_delete (h : p.Sound) (id : EntryId) :
    Ensures (delete id) p fun _ p' => p'.Sound := by
  unfold delete Climbing.delete
  simp only [Ensures.bind, Ensures.get, Ensures.lift]
  exact fun _ _ => Ensures.sound_transact (.remove _ _ _) h

theorem ensures_moveAndRename (h : p.Sound) (id : EntryId) (parent : Option Dn)
    (rdn : Option Rdn) : Ensures (moveAndRename id parent rdn) p fun _ p' => p'.Sound := by
  unfold moveAndRename Climbing.moveAndRename
  simp only [planMove_eq, Ensures.bind, Ensures.get, Ensures.lift]
  exact fun _ _ => Ensures.sound_transact (.relocate _) h

theorem ensures_addIndex (h : p.Sound) (attr : String) :
    Ensures (addIndex attr) p fun _ p' => p'.Sound := by
  refine (Partition.ensures_addIndex h attr).mono ?_
  rintro _ p' (rfl | h')
  · exact h
  · exact h'.sound

theorem bare (c : Config) (suffix : Dn) : (bare c suffix).Sound where
  names i := by cases i <;> exact Index.wellFormed_empty ..
  tree k := by cases k <;> exact Index.wellFormed_empty ..
  presence := Index.wellFormed_empty ..
  user _ _ h := nomatch h

end Sound

/-- What a refused write leaves: only a new entry may have used a number up. -/
theorem refused_after (h : p.Sound) (w : Write) {err : Error} (herr : w.error? p = some err) :
    w.after p = p ∨ w.after p = { p with nextId := p.nextId + 1 } := by
  cases w with
  | add e => exact (add_refused h e).stateAfter herr
  | modify id ms => exact .inl ((modify_refused h id ms).stateAfter herr)
  | delete id => exact .inl ((delete_refused h id).stateAfter herr)
  | rename id rdn => exact .inl ((moveAndRename_refused h id none (some rdn)).stateAfter herr)
  | move id parent => exact .inl ((moveAndRename_refused h id (some parent) none).stateAfter herr)
  | moveAndRename id parent rdn =>
    exact .inl ((moveAndRename_refused h id parent rdn).stateAfter herr)
  | addIndex attr => exact .inl ((addIndex_refused attr).stateAfter herr)

/-- Every write leaves the tables of all indices in step. -/
theorem Sound.after (h : p.Sound) (w : Write) : (w.after p).Sound := by
  have hsame : ∀ p', p' = p → p'.Sound := fun p' hp' => hp' ▸ h
  have hmove := fun id parent rdn => stateAfter_of (h.ensures_moveAndRename id parent rdn)
    fun e p' he => hsame p' (moveAndRename_refused h id parent rdn e p' he)
  cases w with
  | add e =>
    refine stateAfter_of (h.ensures_add e) fun err p' he => ?_
    rcases add_refused h e err p' he with rfl | rfl
    · exact h
    · exact h.skipped
  | modify id ms =>
    exact stateAfter_of (h.ensures_modify id ms) fun e p' he =>
      hsame p' (modify_refused h id ms e p' he)
  | delete id =>
    exact stateAfter_of (h.ensures_delete id) fun e p' he =>
      hsame p' (delete_refused h id e p' he)
  | rename id rdn => exact hmove id none (some rdn)
  | move id parent => exact hmove id (some parent) none
  | moveAndRename id parent rdn => exact hmove id parent rdn
  | addIndex attr =>
    exact stateAfter_of (h.ensures_addIndex attr) fun e p' he =>
      hsame p' (addIndex_refused attr e p' he)

theorem Sound.afterAll (h : p.Sound) (ws : List Write) : (p.afterAll ws).Sound := by
  induction ws generalizing p with
  | nil => exact h
  | cons w ws ih => exact ih (h.after w)

theorem ofConfig_sound {c : Config} (h : ofConfig c = .ok p) : p.Sound := by
  obtain ⟨suffix, _, _, rfl⟩ := ofConfig_eq_ok h
  exact (Sound.bare c suffix).afterAll _

/-- **A refused write leaves no trace.** Whatever writes a new partition has seen, a write that is
refused leaves the entries and all indices as they were, the choice of indexed attributes among
them. The next number is not less than it was, unless there is no greater one. -/
theorem refused_write_leaves_no_trace {c : Config} {p₀ : Partition} (h : ofConfig c = .ok p₀)
    (ws : List Write) (w : Write) {err : Error} (herr : w.error? (p₀.afterAll ws) = some err) :
    let p := p₀.afterAll ws
    let p' := w.after p
    p'.master = p.master ∧ p'.system = p.system ∧ p'.presence = p.presence ∧ p'.user = p.user ∧
      p'.indexedAttributes = p.indexedAttributes ∧
      (p.nextId ≤ p'.nextId ∨ p.nextId = .greatest) := by
  intro p p'
  have hnext : p.nextId ≤ p.nextId + 1 ∨ p.nextId = .greatest := by
    by_cases hlast : p.nextId.toNat + 1 < UInt64.size
    · refine .inl (UInt64.le_iff_toNat_le.2 ?_)
      rw [UInt64.toNat_add]
      exact Nat.le_trans (Nat.le_succ _) (Nat.le_of_eq (Nat.mod_eq_of_lt hlast).symm)
    · refine .inr (UInt64.toNat_inj.1 ?_)
      have := p.nextId.toNat_lt_size
      show p.nextId.toNat = UInt64.size - 1
      omega
  rcases refused_after ((ofConfig_sound h).afterAll ws) w herr with heq | heq
  · have heq : p' = p := heq
    rw [heq]
    exact ⟨rfl, rfl, rfl, rfl, rfl, .inl UInt64.le_rfl⟩
  · have heq : p' = { p with nextId := p.nextId + 1 } := heq
    rw [heq]
    exact ⟨rfl, rfl, rfl, rfl, rfl, hnext⟩

end Partition

/-! ## A refused move -/

namespace Sample

/-- An alias in the first unit that stands for the second one. -/
def link : Entry :=
  ((Entry.ofName ((unit "A").child ⟨⟨"cn"⟩, "Link"⟩)).putValues
    "objectClass" [.text "Alias"]).putValues
    "aliasedObjectName" [.text "OU=b, dc=example,dc=com"]

/-- Two units and the alias. -/
def linkWrites : List Write :=
  [.add (.ofName suffix), .add (.ofName (unit "A")), .add (.ofName (unit "B")), .add link]

/-- The first unit is to move below the second one, so that the alias would lie below its target. -/
def refusedMove : Write := .move 2 (unit "B")

end Sample

/-- The move is refused only when the alias is entered again, after everything else is done. -/
theorem Partition.refused_move_sample : ∃ p₀ err, Partition.ofConfig .standard = .ok p₀ ∧
    Sample.refusedMove.error? (p₀.afterAll Sample.linkWrites) = some err ∧
    err.kind = .notAllowed ∧
    (Sample.refusedMove.after (p₀.afterAll Sample.linkWrites)).system =
      (p₀.afterAll Sample.linkWrites).system := by
  obtain ⟨p₀, hp₀, hafter⟩ := (Sample.after_reachedBy Sample.linkWrites (by decide)).start
  have herr : ((Sample.refusedMove.error? (Sample.after Sample.linkWrites)).map Error.kind) =
      some .notAllowed := by decide +kernel
  obtain ⟨err, herr, hkind⟩ := Option.map_eq_some_iff.1 herr
  rw [hafter] at herr
  obtain ⟨_, hsystem, _⟩ := refused_write_leaves_no_trace hp₀ Sample.linkWrites _ herr
  exact ⟨p₀, err, hp₀, herr, hkind, hsystem⟩

end Directory
