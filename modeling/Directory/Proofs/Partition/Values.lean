import Directory.Proofs.Partition.History

/-!
# Indices of values in step with the entries

* `Partition.Valued`: entries are stored under numbers of their own, below the next one, their
  values have normal forms, and the indices of values hold exactly these.
* `Partition.Valued.added`, `amended`, `removed`, `relocated`, `indexAdded`: it lasts through what
  each write leaves; `Partition.Valued.leaves`: what that is.
* `Partition.ReachedBy.valued`: it holds after every history.
-/

namespace Directory

namespace Partition

/-- All values of entries have normal forms. -/
def Normal (p : Partition) : Prop :=
  ∀ id a, ∀ v ∈ p.valuesOf id a, ∃ k, p.schema.normalize a v = .ok k

/-- The indices of values are in step with the entries, of which at most `n` have been added. -/
structure Valued (n : Nat) (p : Partition) : Prop where
  sound : p.Sound
  own : p.OwnNumbers
  nextId : p.nextId = UInt64.ofNat (n + 1)
  numbers : ∀ id e, p.get? id = some e → id.toNat ≤ n
  normal : p.Normal
  values : p.ValuesIndexed
  heads : ∀ a x, p.userIndex? a = some x → x.head = (a.name, p.schema.isOrdered a)
  presence : p.presence.head = ("presence", true)

theorem SameSettings.heads_eq {p p' : Partition} (h : p.SameSettings p')
    (hheads : ∀ a x, p.userIndex? a = some x → x.head = (a.name, p.schema.isOrdered a)) :
    ∀ a x, p'.userIndex? a = some x → x.head = (a.name, p'.schema.isOrdered a) := by
  intro a x hx
  have := h.heads a
  rw [hx, Option.map_some] at this
  obtain ⟨y, hy, hyx⟩ := Option.map_eq_some_iff.1 this.symm
  rw [h.schema, ← hyx]
  exact hheads a y hy

theorem Valued.get?_nextId {n : Nat} {p : Partition} (h : p.Valued n) (hn : n + 1 < UInt64.size) :
    p.get? p.nextId = none := by
  refine Option.eq_none_iff_forall_ne_some.2 fun e he => ?_
  have hle := h.numbers _ e he
  rw [h.nextId, UInt64.toNat_ofNat_of_lt' hn] at hle
  omega

namespace Valued

variable {n : Nat} {p p' : Partition}

theorem bare (c : Config) (suffix : Dn) : (bare c suffix).Valued 0 where
  sound := {
    names i := by cases i <;> exact Index.wellFormed_empty ..
    tree k := by cases k <;> exact Index.wellFormed_empty ..
    presence := Index.wellFormed_empty ..
    user a x h := by cases h }
  own id e h := by cases h
  nextId := rfl
  numbers id e h := by cases h
  normal id a v h := by cases h
  values id := {
    tags a k := ⟨fun ⟨_, h, _⟩ => (nomatch h), fun ⟨h, _⟩ => nomatch h⟩
    present a := ⟨fun h => absurd h Index.not_has_empty, fun ⟨h, _⟩ => nomatch h⟩ }
  heads a x h := by cases h
  presence := rfl

/-- A number is used up without an entry. -/
theorem skipped (h : p.Valued n) : Valued (n + 1) { p with nextId := p.nextId + 1 } where
  sound := ⟨h.sound.1, h.sound.2, h.sound.3, h.sound.4⟩
  own := h.own
  nextId := by
    show p.nextId + 1 = _
    rw [h.nextId, UInt64.ofNat_add (n + 1)]
    rfl
  numbers id e he := Nat.le_succ_of_le (h.numbers id e he)
  normal := h.normal
  values id := ⟨(h.values id).tags, (h.values id).present⟩
  heads := h.heads
  presence := h.presence

theorem stored (h : p.Valued n) {id : EntryId} {e : Entry} (hsound : p'.Sound)
    (hsame : p.SameSettings p') (hmaster : p'.master = p.master.insert id e) (hid : e.id = id)
    (hn : id.toNat ≤ n) (hcheck : p.checkValues e = .ok ())
    (hvalues : p.Revalued id e.valuesOf p') : p'.Valued n := by
  refine ⟨hsound, h.own.inserted hmaster hid, hsame.nextId.trans h.nextId, fun i e' he' => ?_,
    fun i a v hv => ?_, h.values.inserted hsame hmaster hvalues, hsame.heads_eq h.heads,
    hsame.presence.trans h.presence⟩ <;> by_cases hi : i = id
  · exact hi ▸ hn
  · exact h.numbers i e' (get?_inserted_of_ne hmaster hi ▸ he')
  · rw [hi, valuesOf_some (get?_inserted hmaster)] at hv
    rw [hsame.schema]
    exact checkValues_eq_ok hcheck hv
  · rw [valuesOf_congr (get?_inserted_of_ne hmaster hi)] at hv
    rw [hsame.schema]
    exact h.normal i a v hv

theorem added (h : p.Valued n) (hn : n + 1 < UInt64.size) {e e' : Entry}
    (he' : p.newEntry e = .ok e')
    (h' : Entered { p with nextId := p.nextId + 1 } { e' with id := p.nextId } p') :
    p'.Valued (n + 1) := by
  refine h.skipped.stored h'.sound h'.same h'.master rfl ?_ (newEntry_eq_ok he').2.2.2 h'.values
  have hnext : p.nextId.toNat = n + 1 := by rw [h.nextId, UInt64.toNat_ofNat_of_lt' hn]
  exact Nat.le_of_eq hnext

theorem amended (h : p.Valued n) {id : EntryId} {old new : Entry} {ms : List Modification}
    (hold : p.get? id = some old) (hnew : old.modifiedBy p ms = .ok new)
    (hcheck : p.checkValues new = .ok ()) (h' : p.Amended id new p') : p'.Valued n := by
  have hid : new.id = id := (modifiedBy_eq_ok hnew).1.trans (h.own id old hold)
  exact h.stored h'.sound h'.same (hid ▸ h'.master) hid (h.numbers id old hold) hcheck h'.values

theorem removed (h : p.Valued n) {id : EntryId} {e : Entry} (h' : p.Removed id e p') :
    p'.Valued n := by
  have hself : p'.get? id = none := get?_erased h'.master
  have hother : ∀ i, i ≠ id → p'.get? i = p.get? i := fun i => get?_erased_of_ne h'.master
  have hget : ∀ i e', p'.get? i = some e' → p.get? i = some e' := fun i e' he' =>
    (get?_of_erased h'.master he').2
  refine ⟨h'.sound, fun i e' he' => h.own i e' (hget i e' he'), h'.same.nextId.trans h.nextId,
    fun i e' he' => h.numbers i e' (hget i e' he'), fun i a v hv => ?_, fun i => ?_,
    h'.same.heads_eq h.heads, h'.same.presence.trans h.presence⟩ <;>
    by_cases hi : i = id
  · rw [hi, valuesOf_none hself] at hv
    cases hv
  · rw [valuesOf_congr (hother i hi)] at hv
    rw [h'.same.schema]
    exact h.normal i a v hv
  · rw [hi, valuesOf_none hself]
    exact h'.values.carries
  · rw [valuesOf_congr (hother i hi)]
    exact (h'.values.others i hi).carries h'.same (h.values i)

theorem relocated (h : p.Valued n) {mv : Move} (h' : p.Relocated mv p') : p'.Valued n := by
  have hget : ∀ i e', p'.get? i = some e' → ∃ e, p.get? i = some e := by
    intro i e' he'
    by_cases hi : i ∈ mv.members
    · obtain ⟨current, _, hmoves, _⟩ := h'.moved i hi
      exact ⟨current, hmoves.1⟩
    · exact ⟨e', h'.others i hi ▸ he'⟩
  refine ⟨h'.sound, h'.own, h'.same.nextId.trans h.nextId, fun i e' he' => ?_, fun i a v hv => ?_,
    h'.values, h'.same.heads_eq h.heads, h'.same.presence.trans h.presence⟩
  · obtain ⟨e, he⟩ := hget i e' he'
    exact h.numbers i e he
  · rw [h'.same.schema]
    by_cases hi : i ∈ mv.members
    · obtain ⟨current, moved, ⟨hcurrent, hmoved⟩, hstored⟩ := h'.moved i hi
      obtain ⟨_, _, htop, hother⟩ := movedEntry_eq_ok hmoved
      rw [valuesOf_some hstored] at hv
      by_cases hm : i = mv.top.id
      · exact checkValues_eq_ok (htop hm).2 hv
      · rw [Entry.valuesOf, (hother hm).2, ← Entry.valuesOf, ← valuesOf_some hcurrent] at hv
        exact h.normal i a v hv
    · rw [valuesOf_congr (h'.others i hi)] at hv
      exact h.normal i a v hv

theorem indexAdded (h : p.Valued n) {a : AttributeId} (h' : p.IndexAdded a p') : p'.Valued n := by
  have hmaster : p'.master = p.master := by rw [h'.rest]
  have hschema : p'.schema = p.schema := by rw [h'.rest]
  have hget : ∀ i, p'.get? i = p.get? i := get?_congr hmaster
  have hother : ∀ b, b ≠ a → (p'.Indexed b ↔ p.Indexed b) := fun b hb => by
    rw [indexed_iff, indexed_iff, h'.others b hb]
  have hindexed : p'.Indexed a := by
    obtain ⟨x, hx, _⟩ := Option.map_eq_some_iff.1 h'.index
    exact indexed_iff.2 ⟨x, hx⟩
  have hentry : ∀ (i : EntryId) (P : List Value → Prop), ¬P [] →
      ((∃ e ∈ p.master.values, i = e.id ∧ P (e.valuesOf a)) ↔ P (p.valuesOf i a)) := by
    intro i P hP
    rw [valuesOf_iff hP]
    simp only [← h.own.mem_values, and_assoc]
  refine ⟨h'.sound, h.own.congr hmaster, ?_, fun i e he => h.numbers i e (hget i ▸ he),
    fun i b v hv => ?_, fun i => ⟨fun b k => ?_, fun b => ?_⟩, fun b x hx => ?_,
    h'.presence.trans h.presence⟩
  · rw [h'.rest]
    exact h.nextId
  · rw [hschema]
    exact h.normal i b v (valuesOf_congr (hget i) ▸ hv)
  · rw [valuesOf_congr (hget i), isForm_congr hschema]
    by_cases hb : b = a
    · subst hb
      have hnone : ¬p.IsForm b [] k := by
        rintro ⟨_, hv, _⟩
        cases hv
      rw [h'.tagged, hentry i (p.IsForm b · k) hnone]
      exact (and_iff_right hindexed).symm
    · rw [hother b hb, ← (h.values i).tags b k, Tagged, Tagged, h'.others b hb]
  · rw [valuesOf_congr (hget i), h'.present]
    by_cases hb : b = a
    · subst hb
      rw [hentry i (· ≠ []) fun hv => hv rfl, (h.values i).present]
      simp [hindexed, h'.missing]
    · rw [hother b hb, ← (h.values i).present]
      simp [hb]
  · rw [hschema]
    by_cases hb : b = a
    · subst hb
      have := h'.index
      rw [hx, Option.map_some] at this
      exact Option.some.inj this
    · exact h.heads b x (h'.others b hb ▸ hx)

theorem leaves_moveAndRename (h : p.Valued n) {w : Write} {id : EntryId} {parent : Option Dn}
    {rdn : Option Rdn} (hw : w.relocation? = some (id, parent, rdn)) :
    p.Leaves w (stateAfter (moveAndRename id parent rdn) p) := by
  refine stateAfter_of ((ensures_moveAndRename h.sound h.own h.values id parent rdn).mono ?_)
    fun e p' he => ?_
  · rintro _ p' ⟨mv, hmv, h'⟩
    exact .relocated hw hmv h'
  · rw [moveAndRename_refused h.sound id parent rdn e p' he]
    exact .refused w

/-- **What a write leaves**, as long as there are numbers left. -/
theorem leaves (h : p.Valued n) (w : Write) (hn : n + w.isAdd.toNat < UInt64.size) :
    p.Leaves w (w.after p) := by
  cases w with
  | add e =>
    have hfree : p.Carries p.nextId fun _ => [] :=
      valuesOf_none (h.get?_nextId hn) ▸ h.values p.nextId
    refine stateAfter_of ((ensures_add h.sound hfree e).mono ?_) fun err p' he => ?_
    · rintro _ p' ⟨e', he', h'⟩
      exact .added he' h'
    · rcases add_refused h.sound e err p' he with rfl | rfl
      · exact .refused _
      · exact .skipped e
  | modify id ms =>
    refine stateAfter_of ((ensures_modify h.sound h.values id ms).mono ?_) fun e p' he => ?_
    · rintro _ p' ⟨old, new, hold, hnew, hcheck, h'⟩
      exact .amended hold hnew hcheck h'
    · rw [modify_refused h.sound id ms e p' he]
      exact .refused _
  | delete id =>
    refine stateAfter_of ((ensures_delete h.sound id).mono ?_) fun e p' he => ?_
    · rintro _ p' ⟨e, he, hchildren, h'⟩
      exact .removed he hchildren h'
    · rw [delete_refused h.sound id e p' he]
      exact .refused _
  | rename id rdn => exact h.leaves_moveAndRename rfl
  | move id parent => exact h.leaves_moveAndRename rfl
  | moveAndRename id parent rdn => exact h.leaves_moveAndRename rfl
  | addIndex attr =>
    refine stateAfter_of ((ensures_addIndex h.sound attr).mono ?_) fun e p' he => ?_
    · rintro _ p' (rfl | h')
      · exact .refused _
      · exact .indexAdded h'
    · rw [addIndex_refused attr e p' he]
      exact .refused _

theorem write (h : p.Valued n) {w : Write} (hn : n + w.isAdd.toNat < UInt64.size)
    (h' : p.Leaves w p') : ∃ m, m ≤ n + w.isAdd.toNat ∧ p'.Valued m := by
  cases h' with
  | refused w => exact ⟨n, Nat.le_add_right .., h⟩
  | skipped e => exact ⟨n + 1, Nat.le_refl _, h.skipped⟩
  | added he h' => exact ⟨n + 1, Nat.le_refl _, h.added hn he h'⟩
  | amended hold hnew hcheck h' => exact ⟨n, Nat.le_refl n, h.amended hold hnew hcheck h'⟩
  | removed _ _ h' => exact ⟨n, Nat.le_refl n, h.removed h'⟩
  | relocated _ _ h' => exact ⟨n, Nat.le_add_right .., h.relocated h'⟩
  | indexAdded h' => exact ⟨n, Nat.le_refl n, h.indexAdded h'⟩

theorem index_has (h : p.Valued n) {a : AttributeId} {x : Index Value}
    (hx : p.userIndex? a = some x) {k : Value} {id : EntryId} :
    x.Has k id ↔ p.IsForm a (p.valuesOf id a) k := by
  rw [← tagged_iff hx, (h.values id).tags a k]
  exact and_iff_right (indexed_iff.2 ⟨x, hx⟩)

/-- The indices of values are determined by the entries, the schema and the choice of attributes. -/
theorem indices_eq {m : Nat} {q : Partition} (h : p.Valued n) (h' : q.Valued m)
    (hmaster : q.master = p.master) (hschema : q.schema = p.schema)
    (hindexed : q.indexedAttributes = p.indexedAttributes) :
    q.user = p.user ∧ q.presence = p.presence := by
  have hget : ∀ i, q.get? i = p.get? i := get?_congr hmaster
  have hiff : ∀ a, q.Indexed a ↔ p.Indexed a := fun a => by
    rw [← mem_indexedAttributes, hindexed, mem_indexedAttributes]
  constructor
  · refine SortedMap.ext fun a => ?_
    show q.userIndex? a = p.userIndex? a
    cases hx : p.userIndex? a with
    | none =>
      refine Option.eq_none_iff_forall_ne_some.2 fun y hy => ?_
      obtain ⟨x, hx'⟩ := indexed_iff.1 ((hiff a).1 (indexed_iff.2 ⟨y, hy⟩))
      rw [hx] at hx'
      cases hx'
    | some x =>
      obtain ⟨y, hy⟩ := indexed_iff.1 ((hiff a).2 (indexed_iff.2 ⟨x, hx⟩))
      have hhead : y.head = x.head := by rw [h'.heads a y hy, h.heads a x hx, hschema]
      have heq : y = x := Index.WellFormed.ext (h'.sound.user a y hy) (h.sound.user a x hx)
        (congrArg Prod.fst hhead) (congrArg Prod.snd hhead) fun k i => by
          rw [h'.index_has hy, h.index_has hx, valuesOf_congr (hget i), isForm_congr hschema]
      rw [hy, heq]
  · have hhead : q.presence.head = p.presence.head := h'.presence.trans h.presence.symm
    refine Index.WellFormed.ext h'.sound.presence h.sound.presence (congrArg Prod.fst hhead)
      (congrArg Prod.snd hhead) fun a i => ?_
    rw [show q.presence.Has a i ↔ _ from (h'.values i).present a, hiff, valuesOf_congr (hget i)]
    exact ((h.values i).present a).symm

end Valued

/-- After every history the indices of values are in step with the entries. -/
theorem ReachedBy.valued {p : Partition} {c : Config} {ws : List Write} (h : p.ReachedBy c ws) :
    ∃ n, n ≤ ws.countP Write.isAdd ∧ p.Valued n :=
  h.induction (fun _ => True) (fun _ _ => trivial) (fun _ => trivial)
    (fun suffix _ _ => .bare c suffix) fun _ _ w _ hn hp => hp.write hn (hp.leaves w hn)

/-- What the next write of a history leaves. -/
theorem ReachedBy.leaves {p : Partition} {c : Config} {ws : List Write} {w : Write}
    (h : p.ReachedBy c ws) (hnext : (w.after p).ReachedBy c (ws ++ [w])) :
    ∃ n, n + w.isAdd.toNat < UInt64.size ∧ p.Valued n ∧ p.Leaves w (w.after p) := by
  obtain ⟨n, hn, hvalued⟩ := h.valued
  have hsize := hnext.adds
  rw [List.countP_append, countP_isAdd_cons, List.countP_nil] at hsize
  have hroom : n + w.isAdd.toNat < UInt64.size := by omega
  exact ⟨n, hroom, hvalued, hvalued.leaves w hroom⟩

theorem Reachable.valued {p : Partition} (h : p.Reachable) : ∃ n, p.Valued n :=
  have ⟨_, _, hp⟩ := h
  have ⟨n, _, hn⟩ := hp.valued
  ⟨n, hn⟩

/-- **The indices of values are a function of the entries.** Every stored value has a normal form.
The index of an attribute holds exactly the normal forms of the values that the stored entries have,
and the index of present attributes exactly the indexed attributes that they have values of. -/
theorem Reachable.value_tuples {p : Partition} (h : p.Reachable) :
    (∀ id e, p.get? id = some e → ∀ a, ∀ v ∈ e.valuesOf a, ∃ k, p.schema.normalize a v = .ok k) ∧
    (∀ a x, p.userIndex? a = some x → ∀ d k id, (k, id) ∈ x.tables.tuples d ↔
      ∃ e, p.get? id = some e ∧ ∃ v ∈ e.valuesOf a, p.schema.normalize a v = .ok k) ∧
    (∀ d a id, (a, id) ∈ p.presence.tables.tuples d ↔
      p.hasUserIndex a = true ∧ ∃ e, p.get? id = some e ∧ e.valuesOf a ≠ []) ∧
    ∀ q : Partition, q.Reachable → q.master = p.master → q.schema = p.schema →
      q.indexedAttributes = p.indexedAttributes → q.user = p.user ∧ q.presence = p.presence := by
  obtain ⟨n, hp⟩ := h.valued
  refine ⟨fun id e he a v hv => ?_, fun a x hx d k id => ?_, fun d a id => ?_, ?_⟩
  · exact hp.normal id a v (valuesOf_some he ▸ hv)
  · rw [Index.mem_tuples (hp.sound.user a x hx), hp.index_has hx]
    exact valuesOf_iff (P := (p.IsForm a · k)) fun ⟨_, hv, _⟩ => nomatch hv
  · rw [Index.mem_tuples hp.sound.presence, ← valuesOf_iff (P := (· ≠ [])) fun hv => hv rfl]
    exact (hp.values id).present a
  · intro q hq hmaster hschema hindexed
    obtain ⟨m, hq⟩ := hq.valued
    exact hp.indices_eq hq hmaster hschema hindexed

theorem value_tuples_sample : Sample.partition.Reachable ∧
    ∃ x, Sample.partition.userIndex? ⟨"cn"⟩ = some x ∧
      (.text "anna lee", 4) ∈ x.tables.tuples .reverse := by
  obtain ⟨_, hindex, _, _⟩ := Reachable.value_tuples Sample.reachable
  have hx : (Sample.partition.userIndex? ⟨"cn"⟩).isSome = true := by decide +kernel
  obtain ⟨x, hx⟩ := Option.isSome_iff_exists.1 hx
  obtain ⟨e, he, _, _, hvalues, hnormalize⟩ := Sample.person_stored
  refine ⟨Sample.reachable, x, hx,
    (hindex _ x hx .reverse _ 4).2 ⟨e, he, .text "Anna  Lee", ?_, hnormalize⟩⟩
  rw [hvalues]
  exact .tail _ (.head _)

end Partition

end Directory
