import Directory.Proofs.Partition.Violations

/-!
# Ways up that end

The way up from an entry is followed from parent to parent, with a bound on the rounds that no one
is meant to reach.

* `Partition.Ascent`: all that is to be known of a way up that has ended.
* `Rooted`: entries whose parents are stored and from none of which a way up leads back.
  `Partition.Arranged.rooted_inserted`, `rooted_amended`, `Partition.Rewritten.rooted`: they are
  such in the course of a write, when the indices do not follow them yet.
* `Rooted.exists_ascent`: **every way up from a stored entry ends, within as many rounds as there
  are entries**.
-/

namespace Directory

open Relation

namespace Partition

/-- The way up from `parent` has ended with these entries: the parent and all that lies above it,
nearest first and each once, in no more rounds than there are entries. A bound is reached only if it
is less than the number of rounds. -/
structure Ascent (p : Partition) (parent : Option EntryId) (as : List EntryId) : Prop where
  way : p.WayUp parent as
  ok : p.ancestors parent = .ok as
  within : ∀ n, p.ancestorsWithin n parent = .ok as ↔ as.length ≤ n
  length_le : as.length ≤ p.count
  nodup : as.Nodup
  mem_iff : ∀ a, a ∈ as ↔ ∃ q, parent = some q ∧ p.Above a q
  nearest : as.Pairwise (TransGen p.HasParent)

end Partition

/-! ## Where ways up end -/

/-- All parents are stored, and no way up leads back. -/
structure Rooted (master : SortedMap EntryId Entry) : Prop where
  acyclic : Acyclic master
  parents : ∀ i e q, master.get? i = some e → e.parent = some q → ∃ f, master.get? q = some f

namespace Partition

variable {p p' : Partition} {parent : Option EntryId}

theorem rooted_iff : Rooted p.master ↔
    (∀ i, ¬TransGen p.HasParent i i) ∧ ∀ i q, p.HasParent i q → p.Stored q :=
  ⟨fun h => ⟨h.acyclic, fun i q ⟨e, he, hq⟩ => h.parents i e q he hq⟩,
    fun h => ⟨h.1, fun i e q he hq => h.2 i q ⟨e, he, hq⟩⟩⟩

namespace Arranged

variable {e old : Entry}

theorem rooted (h : p.Arranged) : Rooted p.master := rooted_iff.2 ⟨h.acyclic, h.parents⟩

/-- An entry whose number was free and whose parent is stored. -/
theorem rooted_inserted (h : p.Arranged) (hfree : p.get? e.id = none)
    (hparent : ∀ q, e.parent = some q → p.Stored q) : Rooted (p.master.insert e.id e) := by
  have hmaster : (p.setEntry e.id (some e)).master = p.master.insert e.id e := rfl
  rw [← hmaster]
  exact rooted_iff.2 ⟨h.acyclic_inserted hfree hparent hmaster,
    fun _ _ => h.parents_inserted hparent hmaster⟩

/-- Another record of an entry, with the same parent. -/
theorem rooted_amended (h : p.Arranged) (hold : p.get? e.id = some old)
    (hparent : e.parent = old.parent) : Rooted (p.master.insert e.id e) := by
  have hmaster : (p.setEntry e.id (some e)).master = p.master.insert e.id e := rfl
  rw [← hmaster]
  refine rooted_iff.2 ⟨fun i => ?_, fun _ _ => h.parents_inserted (fun q hq => ?_) hmaster⟩
  · rw [hasParent_amended hold hparent hmaster]
    exact h.acyclic i
  · exact h.parents e.id q ⟨old, hold, hparent ▸ hq⟩

end Arranged

/-- The records that a move makes, before the indices follow. -/
theorem Rewritten.rooted {mv : Move} {id : EntryId} {rdn : Option Rdn} (h' : p.Rewritten mv p')
    (h : p.Arranged) (hown : p.OwnNumbers) (hmv : p.Planned id rdn mv) : Rooted p'.master :=
  rooted_iff.2 ⟨h'.acyclic h hown hmv, fun _ _ => h'.parents h hown hmv⟩

/-- Where all parents are stored, only the bound on the rounds ends the way up early. -/
theorem ancestorsWithin_objects (h : Rooted p.master) (n : Nat)
    (hparent : ∀ q, parent = some q → p.Stored q) :
    Objections (p.ancestorsWithin n parent) fun err => ∃ j, err = .parentCycle j := by
  induction n generalizing parent with
  | zero =>
    cases parent with
    | none => exact .ok
    | some q => exact .error ⟨q, rfl⟩
  | succ n ih =>
    cases parent with
    | none => exact .ok
    | some q =>
      obtain ⟨f, hf⟩ := hparent q rfl
      rw [ancestorsWithin, lookup_eq_ok.2 hf, Except.ok_bind]
      exact .bind (ih fun q' hq' => h.parents q f q' hf hq') fun _ _ => .ok

end Partition

namespace Rooted

variable {p p' : Partition} {parent : Option EntryId}

/-- **Ways up end.** From a stored entry, or from none, the way up ends without an error. -/
theorem exists_ascent (h : Rooted p.master) (hparent : ∀ q, parent = some q → p.Stored q) :
    ∃ as, p.Ascent parent as := by
  cases hrun : p.ancestors parent with
  | error err =>
    obtain ⟨j, rfl⟩ := Partition.ancestorsWithin_objects h _ hparent err hrun
    exact absurd rfl (h.acyclic.ancestors_complains parent _ hrun)
  | ok as =>
    obtain ⟨hway, _⟩ := Partition.ancestorsWithin_eq_ok.1 hrun
    have hnodup : as.Nodup := hway.pairwise.imp fun {i j} habove heq => by
      subst heq
      exact h.acyclic i habove
    exact ⟨as, hway, hrun, fun n => Partition.ancestorsWithin_eq_ok.trans (and_iff_right hway),
      Partition.length_le_count hnodup hway.stored, hnodup, fun a => hway.mem_iff, hway.pairwise⟩

end Rooted

end Directory
