import Directory.Partition.Transaction

/-!
# Questions for ways up

The steps of a write are told once, over any kind of steps among which is the question for the way up
from an entry. Asking at once gives the steps as they are carried out.

* `Climbing`: steps that can ask for a way up. Nothing but `climb` asks for `Partition.ancestors`.
* `Transacting`: steps on a partition that can carry out the steps of a transaction.
-/

namespace Directory

/-- Steps that can ask for the way up from an entry. -/
class Climbing (m : Type → Type) where
  /-- The way up from `parent`, nearest first, in the partition as it is then. -/
  climb (p : Partition) (parent : Option EntryId) : m (List EntryId)

/-- Steps that can carry out steps of a transaction, all of them or none. -/
class Transacting (m : outParam (Type → Type)) (n : Type → Type) where
  transact {α : Type} (steps : m α) : n α

instance : Climbing (Except Error) where
  climb := Partition.ancestors

instance {σ : Type} : Climbing (EStateM Error σ) where
  climb p parent := liftM (p.ancestors parent)

instance : Transacting (EStateM Error Transaction) (EStateM Error Partition) where
  transact := Partition.transact

variable {σ α : Type}

theorem climb_eq (p : Partition) (parent : Option EntryId) :
    (Climbing.climb p parent : EStateM Error σ (List EntryId)) = liftM (p.ancestors parent) := rfl

theorem transact_eq (steps : TransactionM α) :
    (Transacting.transact steps : EStateM Error Partition α) = Partition.transact steps := rfl

end Directory
