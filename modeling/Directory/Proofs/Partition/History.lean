import Directory.Proofs.Partition.Writes

/-!
# Histories

A history of a partition is its configuration and the writes that it has seen, whether they
succeeded or were refused.

* `Write`, `Write.after`: a write, and the partition that it leaves.
* `Partition.Leaves`: all that a write can leave.
* `Partition.ReachedBy`: the partition after a history, which has fewer additions than there are
  numbers for entries.
* `Partition.ReachedBy.induction`: **what holds of a bare partition and lasts through every write
  holds of every partition that a history reaches**.
* `Sample.partition`: the partition after a small history.
-/

namespace Directory

/-- A write on a partition. -/
inductive Write where
  | add (e : Entry)
  | modify (id : EntryId) (modifications : List Modification)
  | delete (id : EntryId)
  | rename (id : EntryId) (rdn : Rdn)
  | move (id : EntryId) (parent : Dn)
  | moveAndRename (id : EntryId) (parent : Option Dn) (rdn : Option Rdn)
  | addIndex (attr : String)

namespace Write

/-- The partition after a write, whether it succeeded or was refused. -/
def after (p : Partition) : Write → Partition
  | add e => stateAfter (Partition.add e) p
  | modify id ms => stateAfter (Partition.modify id ms) p
  | delete id => stateAfter (Partition.delete id) p
  | rename id rdn => stateAfter (Partition.rename id rdn) p
  | move id parent => stateAfter (Partition.move id parent) p
  | moveAndRename id parent rdn => stateAfter (Partition.moveAndRename id parent rdn) p
  | addIndex attr => stateAfter (Partition.addIndex attr) p

/-- The write may use a number up. -/
def isAdd : Write → Bool
  | add _ => true
  | _ => false

/-- The entry that the write moves, with the new parent and the new relative name. -/
def relocation? : Write → Option (EntryId × Option Dn × Option Rdn)
  | rename id rdn => some (id, none, some rdn)
  | move id parent => some (id, some parent, none)
  | moveAndRename id parent rdn => some (id, parent, rdn)
  | _ => none

end Write

namespace Partition

/-- All that a write can leave of a partition. An addition that is refused late has used a number
up. -/
inductive Leaves (p : Partition) : Write → Partition → Prop
  | refused (w : Write) : Leaves p w p
  | skipped (e : Entry) : Leaves p (.add e) { p with nextId := p.nextId + 1 }
  | added {e e' : Entry} {p' : Partition} (he : p.newEntry e = .ok e')
      (h : Entered { p with nextId := p.nextId + 1 } { e' with id := p.nextId } p') :
      Leaves p (.add e) p'
  | amended {id : EntryId} {ms : List Modification} {old new : Entry} {p' : Partition}
      (hold : p.get? id = some old) (hnew : old.modifiedBy p ms = .ok new)
      (hcheck : p.checkValues new = .ok ()) (h : p.Amended id new p') : Leaves p (.modify id ms) p'
  | removed {id : EntryId} {e : Entry} {p' : Partition} (he : p.get? id = some e)
      (hchildren : ∀ i, ¬p.OneLevel id i) (h : p.Removed id e p') : Leaves p (.delete id) p'
  | relocated {w : Write} {id : EntryId} {parent : Option Dn} {rdn : Option Rdn} {mv : Move}
      {p' : Partition} (hw : w.relocation? = some (id, parent, rdn))
      (hmv : p.planMove id parent rdn = .ok mv) (h : p.Relocated mv p') : Leaves p w p'
  | indexAdded {attr : String} {p' : Partition} (h : p.IndexAdded (.ofName attr) p') :
      Leaves p (.addIndex attr) p'

/-- The partition after writes, one after another. -/
def afterAll (p : Partition) (ws : List Write) : Partition := ws.foldl Write.after p

/-- The partition is what writes have made of a new partition. They add fewer entries than there are
numbers. -/
structure ReachedBy (p : Partition) (c : Config) (ws : List Write) : Prop where
  start : ∃ p₀, ofConfig c = .ok p₀ ∧ p = p₀.afterAll ws
  adds : ws.countP Write.isAdd < UInt64.size

/-- Some history leads to the partition. -/
def Reachable (p : Partition) : Prop := ∃ c ws, p.ReachedBy c ws

theorem forM_addIndex_eq_ok {attrs : List String} {p p' : Partition} {u : Unit}
    (h : (attrs.forM fun a => discard (addIndex a)) p = .ok u p') :
    p' = p.afterAll (attrs.map .addIndex) := by
  induction attrs generalizing p with
  | nil =>
    cases h
    rfl
  | cons a attrs ih =>
    obtain ⟨_, s, hfirst, hrest⟩ := bind_eq_ok.1 h
    obtain ⟨x, ha, _⟩ := map_eq_ok.1 hfirst
    show p' = (stateAfter (addIndex a) p).afterAll _
    rw [stateAfter, ha]
    exact ih hrest

theorem ofConfig_eq_ok {c : Config} {p : Partition} (h : ofConfig c = .ok p) :
    ∃ suffix, Dn.parse c.suffix = .ok suffix ∧ suffix.isRoot = false ∧
      p = (bare c suffix).afterAll (c.indexed.map .addIndex) := by
  obtain ⟨suffix, hsuffix, h⟩ := Except.bind_eq_ok.1 h
  dsimp only at h
  split at h
  · cases h
  · rename_i hroot
    refine ⟨suffix, hsuffix, by simpa using hroot, ?_⟩
    split at h
    · rename_i hrun
      cases h
      exact forM_addIndex_eq_ok hrun
    · cases h

theorem countP_isAdd_cons (w : Write) (ws : List Write) :
    (w :: ws).countP Write.isAdd = w.isAdd.toNat + ws.countP Write.isAdd := by
  cases hw : w.isAdd <;> simp [hw, Nat.add_comm]

/-- What each write keeps lasts through all of them. The number counts additions. -/
theorem afterAll_induction {I : Nat → Partition → Prop} {ok : Write → Prop}
    (hwrite : ∀ n p w, ok w → n + w.isAdd.toNat < UInt64.size → I n p →
      ∃ m, m ≤ n + w.isAdd.toNat ∧ I m (w.after p))
    {ws : List Write} {n : Nat} {p : Partition} (hok : ∀ w ∈ ws, ok w)
    (hn : n + ws.countP Write.isAdd < UInt64.size) (hp : I n p) :
    ∃ m, m ≤ n + ws.countP Write.isAdd ∧ I m (p.afterAll ws) := by
  induction ws generalizing n p with
  | nil => exact ⟨n, Nat.le_refl n, hp⟩
  | cons w ws ih =>
    have hcount := countP_isAdd_cons w ws
    obtain ⟨m, hm, hp'⟩ := hwrite n p w (hok w (.head _)) (by omega) hp
    obtain ⟨k, hk, hp''⟩ := ih (fun w hw => hok w (.tail _ hw)) (by omega) hp'
    exact ⟨k, by omega, hp''⟩

/-- **Induction over histories.** The number counts additions; `ok` is what is known of the writes,
which has to hold of index creations, since a new partition begins with some. -/
theorem ReachedBy.induction {I : Nat → Partition → Prop} {c : Config} {ws : List Write}
    {p : Partition} (h : p.ReachedBy c ws) (ok : Write → Prop) (hok : ∀ w ∈ ws, ok w)
    (hindex : ∀ attr, ok (.addIndex attr))
    (hbare : ∀ suffix, Dn.parse c.suffix = .ok suffix → suffix.isRoot = false →
      I 0 (bare c suffix))
    (hwrite : ∀ n p w, ok w → n + w.isAdd.toNat < UInt64.size → I n p →
      ∃ m, m ≤ n + w.isAdd.toNat ∧ I m (w.after p)) :
    ∃ n, n ≤ ws.countP Write.isAdd ∧ I n p := by
  obtain ⟨p₀, hp₀, rfl⟩ := h.start
  obtain ⟨suffix, hsuffix, hroot, rfl⟩ := ofConfig_eq_ok hp₀
  have hzero : (c.indexed.map Write.addIndex).countP Write.isAdd = 0 := by
    rw [List.countP_eq_zero]
    intro w hw
    obtain ⟨a, _, rfl⟩ := List.mem_map.1 hw
    exact Bool.false_ne_true
  have hindexed : ∀ w ∈ c.indexed.map Write.addIndex, ok w := by
    intro w hw
    obtain ⟨a, _, rfl⟩ := List.mem_map.1 hw
    exact hindex a
  have hsize := h.adds
  obtain ⟨m, hm, hp⟩ :=
    afterAll_induction hwrite hindexed (by omega) (hbare suffix hsuffix hroot)
  obtain ⟨n, hn, hp'⟩ := afterAll_induction hwrite hok (by omega) hp
  exact ⟨n, by omega, hp'⟩

end Partition

/-! ## A history -/

namespace Sample

def suffix : Dn := ⟨[⟨⟨"dc"⟩, "example"⟩, ⟨⟨"dc"⟩, "com"⟩]⟩

def unit (name : String) : Dn := suffix.child ⟨⟨"ou"⟩, name⟩

def person : Dn := (unit "A").child ⟨⟨"cn"⟩, "Ann"⟩

/-- Two units and a person, an index of names that comes late, a person moved and renamed, and a
refused deletion. -/
def writes : List Write := [
  .add (.ofName suffix), .add (.ofName (unit "A")), .add (.ofName (unit "B")),
  .add ((Entry.ofName person).putValues "objectClass" [.text "Person", .text "person"]),
  .addIndex "cn", .move 4 (unit "B"), .rename 4 ⟨⟨"cn"⟩, "Anna  Lee"⟩, .delete 3]

/-- The partition after writes on a new partition of the standard configuration. -/
@[irreducible] def after (ws : List Write) : Partition :=
  ((Partition.ofConfig .standard).toOption.getD default).afterAll ws

theorem after_reachedBy (ws : List Write) (h : ws.countP Write.isAdd < UInt64.size) :
    (after ws).ReachedBy .standard ws where
  start := by
    have hok : (Partition.ofConfig .standard).toOption.isSome = true := by decide +kernel
    cases h : Partition.ofConfig .standard with
    | error e =>
      rw [h] at hok
      cases hok
    | ok p =>
      refine ⟨p, rfl, ?_⟩
      rw [after, h]
      rfl
  adds := h

/-- The partition after these writes. -/
def partition : Partition := after writes

theorem reachedBy : partition.ReachedBy .standard writes := after_reachedBy writes (by decide)

theorem reachable : partition.Reachable := ⟨_, _, reachedBy⟩

theorem person_stored : ∃ e, partition.get? 4 = some e ∧ e.id = 4 ∧ e.parent = some 3 ∧
    e.valuesOf ⟨"cn"⟩ = [.text "Ann", .text "Anna  Lee"] ∧
    partition.schema.normalize ⟨"cn"⟩ (.text "Anna  Lee") = .ok (.text "anna lee") := by
  have h : (partition.get? 4).any (fun e => e.id == 4 && e.parent == some 3 &&
      e.valuesOf ⟨"cn"⟩ == [.text "Ann", .text "Anna  Lee"] &&
      (partition.schema.normalize ⟨"cn"⟩ (.text "Anna  Lee")).toOption ==
        some (.text "anna lee")) = true := by decide +kernel
  obtain ⟨e, he, h⟩ := (Option.any_eq_true _ _).1 h
  simp only [Bool.and_eq_true, beq_iff_eq] at h
  obtain ⟨⟨⟨hid, hparent⟩, hvalues⟩, hnormalize⟩ := h
  exact ⟨e, he, hid, hparent, hvalues, Except.toOption_eq_some.1 hnormalize⟩

end Sample

end Directory
