import Directory.Proofs.Partition.AliasTuples
import Directory.Proofs.Partition.Modifications
import Directory.Proofs.Partition.Subtree

/-!
# Entries that carry their own names

An addition and a move see to it that an entry has the value of its relative name, in some spelling.
Nothing keeps a modification from taking it away again.

* `Dn.extent`: how much a name writes, with a comma in front of each relative name. Names that have
  not been read may be as long as those above them, but they always write more.
* `Partition.Outgrows`: names write more than those above them. So a move leaves all but the moved
  entry with their relative names (`Outgrows.member_rdn?`).
* `Entry.CarriesName`: the value of the relative name is among the values; `Partition.Nameless`: an
  entry without it.
* `Partition.ReachedBy.own_names`: **which modifications leave an entry without its name**, and that
  nothing else does.
-/

namespace Directory

open Relation

/-! ## How much names write -/

namespace Dn

/-- The length of the written form of a name with a comma in front of each relative name. -/
def extent (d : Dn) : Nat := (charsBehind d.rdns).length

variable {base base' d d' e : Dn}

theorem charsBehind_append (rs ss : List Rdn) :
    charsBehind (rs ++ ss) = charsBehind rs ++ charsBehind ss := by
  induction rs with
  | nil => rfl
  | cons r rs ih =>
    rw [List.cons_append, charsBehind, charsBehind, ih, List.cons_append, List.append_assoc]

theorem extent_append (rs ss : List Rdn) : extent ⟨rs ++ ss⟩ = extent ⟨rs⟩ + extent ⟨ss⟩ := by
  rw [extent, charsBehind_append, List.length_append]
  rfl

theorem extent_lt_child (d : Dn) (r : Rdn) : d.extent < (d.child r).extent := by
  rw [extent, extent, child, charsBehind, List.length_cons, List.length_append]
  omega

theorem exists_rdn?_iff : (∃ r, d.rdn? = some r) ↔ 0 < d.extent := by
  obtain ⟨rs⟩ := d
  cases rs with
  | nil => exact ⟨fun ⟨_, h⟩ => (nomatch h), fun h => nomatch h⟩
  | cons r rs => exact ⟨fun _ => Nat.succ_pos _, fun _ => ⟨r, rfl⟩⟩

theorem extent_eq_of_normalized_eq (h : d.normalized = e.normalized) : d.extent = e.extent :=
  congrArg List.length (charsBehind_eq_of_normalized_eq h)

/-- A name with another end writes so much more or less. -/
theorem Rehung.extent (h : Rehung base base' d d') :
    d'.extent + base.extent = d.extent + base'.extent := by
  obtain ⟨rs, ss, hd, hkey, hd'⟩ := h
  have hend : Dn.extent ⟨ss⟩ = base.extent :=
    extent_eq_of_normalized_eq (normalized_eq_of_key_eq hkey)
  have hold : d.extent = Dn.extent ⟨rs ++ ss⟩ := congrArg (List.length ∘ charsBehind) hd
  have hnew : d'.extent = Dn.extent ⟨rs ++ base'.rdns⟩ := congrArg (List.length ∘ charsBehind) hd'
  have hbase : Dn.extent ⟨base'.rdns⟩ = base'.extent := rfl
  rw [hold, hnew, extent_append, extent_append, hend, hbase]
  omega

theorem Rehung.rdn? (h : Rehung base base' d d') (hlt : base.extent < d.extent) :
    d'.rdn? = d.rdn? := by
  obtain ⟨rs, ss, hd, hkey, hd'⟩ := h
  rw [Dn.rdn?, Dn.rdn?, hd, hd']
  cases rs with
  | nil =>
    have hsame : Dn.extent ⟨ss⟩ = base.extent :=
      extent_eq_of_normalized_eq (normalized_eq_of_key_eq hkey)
    obtain ⟨_⟩ := d
    cases hd
    exact absurd (hsame ▸ hlt) (Nat.lt_irrefl _)
  | cons r rs => rfl

end Dn

/-! ## Entries that carry their names -/

/-- The relative name of the entry and the normal form of its value. -/
def Entry.OwnForm (p : Partition) (e : Entry) (r : Rdn) (k : Value) : Prop :=
  e.name.rdn? = some r ∧ p.schema.normalize r.type (.text r.value) = .ok k

/-- The entry carries its own name: one of its values has the normal form of the value in its
relative name. -/
def Entry.CarriesName (p : Partition) (e : Entry) : Prop :=
  ∃ r k, e.OwnForm p r k ∧ p.IsForm r.type (e.valuesOf r.type) k

namespace Entry

open Directory.Partition

variable {p p' : Partition} {e e' : Entry} {r : Rdn} {k : Value}

theorem OwnForm.congr (h : e.OwnForm p r k) (hschema : p'.schema = p.schema)
    (hname : e'.name.rdn? = e.name.rdn?) : e'.OwnForm p' r k :=
  ⟨hname.trans h.1, hschema ▸ h.2⟩

theorem OwnForm.carries_iff (h : e.OwnForm p r k) :
    e.CarriesName p ↔ p.IsForm r.type (e.valuesOf r.type) k := by
  refine ⟨?_, fun hk => ⟨r, k, h, hk⟩⟩
  rintro ⟨s, l, ⟨hs, hl⟩, hform⟩
  obtain rfl : s = r := Option.some.inj (hs.symm.trans h.1)
  obtain rfl : l = k := Except.ok.inj (hl.symm.trans h.2)
  exact hform

theorem CarriesName.congr (h : e.CarriesName p) (hschema : p'.schema = p.schema)
    (hname : e'.name.rdn? = e.name.rdn?) (hattributes : e'.attributes = e.attributes) :
    e'.CarriesName p' := by
  obtain ⟨r, k, hown, hform⟩ := h
  refine ⟨r, k, hown.congr hschema hname, (isForm_congr hschema).2 ?_⟩
  rwa [valuesOf, hattributes]

theorem Gains.carriesName (h : e.Gains p r e') (hr : e'.name.rdn? = some r) :
    e'.CarriesName p := by
  obtain ⟨k, hk, ⟨hform, hattributes⟩ | ⟨_, hattributes⟩⟩ := h
  · refine ⟨r, k, ⟨hr, hk⟩, ?_⟩
    rwa [valuesOf, hattributes]
  · refine ⟨r, k, ⟨hr, hk⟩, .text r.value, ?_, hk⟩
    rw [valuesOf, hattributes, SortedMap.getD, SortedMap.get?_insert_self]
    exact List.mem_append_right _ (.head _)

end Entry

namespace Partition

variable {p p' q : Partition} {c : Config} {ws ws₁ : List Write} {w : Write} {e e' : Entry}
  {n : Nat} {i id : EntryId} {r : Rdn} {k : Value}

/-- The entry of the number does not carry its name. -/
def Nameless (p : Partition) (i : EntryId) : Prop := ∃ e, p.get? i = some e ∧ ¬e.CarriesName p

/-- The entry of the number carries its name. -/
def CarriesOwn (p : Partition) (i : EntryId) : Prop := ∃ e, p.get? i = some e ∧ e.CarriesName p

theorem carriesOwn_iff (he : p.get? i = some e) : p.CarriesOwn i ↔ e.CarriesName p := by
  refine ⟨?_, fun h => ⟨e, he, h⟩⟩
  rintro ⟨f, hf, hcarries⟩
  cases he.symm.trans hf
  exact hcarries

theorem CarriesOwn.not_nameless (h : p.CarriesOwn i) : ¬p.Nameless i :=
  fun ⟨_, he, hnot⟩ => hnot ((carriesOwn_iff he).1 h)

theorem Stored.carriesOwn_or (h : p.Stored i) : p.CarriesOwn i ∨ p.Nameless i := by
  obtain ⟨e, he⟩ := h
  exact (Classical.em (e.CarriesName p)).imp (⟨e, he, ·⟩) (⟨e, he, ·⟩)

theorem Nameless.of_congr (h : p'.Nameless i) (hschema : p'.schema = p.schema)
    (hget : p'.get? i = p.get? i) : p.Nameless i := by
  obtain ⟨e, he, hnot⟩ := h
  exact ⟨e, hget ▸ he, fun hcarries => hnot (hcarries.congr hschema rfl rfl)⟩

theorem newEntry_carriesName (h : p.newEntry e = .ok e') (hr : e.name.rdn? = some r) :
    e'.CarriesName p := by
  unfold newEntry at h
  split at h
  · cases h
  · obtain ⟨parent, _, h⟩ := Except.bind_eq_ok.1 h
    obtain ⟨e₁, he₁, h⟩ := Except.bind_eq_ok.1 h
    obtain ⟨_, _, h⟩ := Except.bind_eq_ok.1 h
    cases h
    have hname := (Entry.withNameValue_eq_ok he₁).2.1
    exact ((Entry.withNameValue_gains he₁ hr).carriesName (hname ▸ hr)).congr rfl rfl rfl

theorem relocated_carriesName {rdn : Option Rdn} {mv : Move} (hown : p.OwnNumbers)
    (hmv : p.Planned id rdn mv) (h' : p.Relocated mv p') (hid : id ∈ mv.members)
    (he' : p'.get? id = some e') : e'.CarriesName p := by
  obtain ⟨current, f, ⟨hcurrent, hentry⟩, hf⟩ := h'.rewritten.moved id hid
  cases he'.symm.trans hf
  cases hmv.top.symm.trans hcurrent
  obtain ⟨_, hrebase, _⟩ := movedEntry_eq_ok hentry
  obtain ⟨_, r, _, _, hname⟩ := hmv.name
  have hr : e'.name.rdn? = some r := by
    rw [(Dn.rebase?_rehung hrebase).self, hname]
    rfl
  exact (movedEntry_gains hentry (hmv.top_id hown).symm hr).carriesName hr

/-! ## Names that write more than those above -/

/-- Names write more than those of the parents; no entry has the name of the root, and the value in
each relative name has a normal form. -/
structure Outgrows (p : Partition) : Prop where
  suffix : 0 < p.suffix.extent
  ownForm : ∀ i e, p.get? i = some e → ∃ r k, e.OwnForm p r k
  parent : ∀ i e q f, p.get? i = some e → e.parent = some q → p.get? q = some f →
    f.name.extent < e.name.extent

namespace Outgrows

theorem bare (c : Config) {suffix : Dn} (h : suffix.isRoot = false) :
    (bare c suffix).Outgrows where
  suffix := by
    obtain ⟨rs⟩ := suffix
    cases rs with
    | nil => cases h
    | cons r rs => exact Dn.exists_rdn?_iff.1 ⟨r, rfl⟩
  ownForm _ _ he := nomatch he
  parent _ _ _ _ he := nomatch he

theorem skipped (h : p.Outgrows) : Outgrows { p with nextId := p.nextId + 1 } :=
  ⟨h.suffix, h.ownForm, h.parent⟩

theorem congr (h : p.Outgrows) (hsuffix : p'.suffix = p.suffix) (hschema : p'.schema = p.schema)
    (hget : ∀ i e, p'.get? i = some e → ∃ f, p.get? i = some f ∧ f.name = e.name ∧
      f.parent = e.parent) : p'.Outgrows where
  suffix := hsuffix ▸ h.suffix
  ownForm i e he := by
    obtain ⟨f, hf, hname, _⟩ := hget i e he
    obtain ⟨r, k, hown⟩ := h.ownForm i f hf
    exact ⟨r, k, hown.congr hschema (congrArg Dn.rdn? hname.symm)⟩
  parent i e q e' he hq he' := by
    obtain ⟨f, hf, hname, hparent⟩ := hget i e he
    obtain ⟨f', hf', hname', _⟩ := hget q e' he'
    rw [← hname, ← hname']
    exact h.parent i f q f' hf (hparent.trans hq) hf'

theorem lt_of_above (h : p.Outgrows) (hp : p.Arranged) {x : EntryId} {f : Entry}
    (he : p.get? i = some e) (hf : p.get? x = some f) (hway : p.Above x i) (hne : x ≠ i) :
    f.name.extent < e.name.extent := by
  induction hway using ReflTransGen.head_induction_on generalizing e with
  | refl => exact absurd rfl hne
  | @head j q hstep hway ih =>
    obtain ⟨g, hg⟩ := hp.parents _ _ hstep
    have hlt := h.parent j e q g he ((hasParent_iff he).1 hstep) hg
    by_cases hq : x = q
    · subst hq
      cases hf.symm.trans hg
      exact hlt
    · exact (ih hg hq).trans hlt

theorem new_name (h : p.Outgrows) (hp : p.Arranged) (he' : p.newEntry e = .ok e') :
    (∃ r, e.name.rdn? = some r) ∧ ∀ q f, e'.parent = some q → p.get? q = some f →
      f.name.extent < e.name.extent := by
  rcases parentFor_eq_ok (newEntry_eq_ok he').2.2.1 with ⟨hnone, hn⟩ | ⟨q, _, hq, hid, _, hbelow, _⟩
  · refine ⟨Dn.exists_rdn?_iff.2 (Dn.extent_eq_of_normalized_eq hn ▸ h.suffix), fun q f hq _ => ?_⟩
    cases hnone.symm.trans hq
  · obtain ⟨f, hf, hn⟩ := idOf?_eq_some hp hid
    obtain ⟨r, rs, hcons⟩ := Dn.cons_of_isBelow hbelow
    rw [hcons] at hn ⊢
    refine ⟨⟨r, rfl⟩, fun q' f' hq' hf' => ?_⟩
    cases hq.symm.trans hq'
    cases hf.symm.trans hf'
    rw [← Dn.extent_eq_of_normalized_eq hn]
    exact Dn.extent_lt_child ⟨rs⟩ r

theorem added (h : p.Outgrows) (hp : p.Arranged) (he' : p.newEntry e = .ok e')
    (hfree : p.get? p.nextId = none)
    (h' : Entered { p with nextId := p.nextId + 1 } { e' with id := p.nextId } p') :
    p'.Outgrows := by
  obtain ⟨⟨r, hr⟩, hlt⟩ := h.new_name hp he'
  have hname : e'.name = e.name := (newEntry_eq_ok he').2.1
  have hschema : p'.schema = p.schema := h'.same.schema
  have hself : p'.get? p.nextId = some { e' with id := p.nextId } := get?_inserted h'.master
  have hother : ∀ i, i ≠ p.nextId → p'.get? i = p.get? i :=
    fun i => get?_inserted_of_ne h'.master
  refine ⟨h'.same.suffix ▸ h.suffix, fun i f hf => ?_, fun i f q g hf hq hg => ?_⟩ <;>
    by_cases hi : i = p.nextId
  · rw [hi, hself] at hf
    cases hf
    obtain ⟨r, k, hown, _⟩ := newEntry_carriesName he' hr
    exact ⟨r, k, hown.congr hschema rfl⟩
  · obtain ⟨r, k, hown⟩ := h.ownForm i f (hother i hi ▸ hf)
    exact ⟨r, k, hown.congr hschema rfl⟩
  · rw [hi, hself] at hf
    cases hf
    have hne : q ≠ p.nextId := (stored_of_newEntry he' hq).ne hfree
    exact hname ▸ hlt q g hq (hother q hne ▸ hg)
  · rw [hother i hi] at hf
    have hne : q ≠ p.nextId := (hp.parents i q ⟨f, hf, hq⟩).ne hfree
    exact h.parent i f q g hf hq (hother q hne ▸ hg)

section Moves

variable {rdn : Option Rdn} {mv : Move}

/-- Every member but the moved entry keeps its relative name. -/
theorem member_rdn? (h : p.Outgrows) (hp : p.Arranged) (hown : p.OwnNumbers)
    (hmv : p.Planned id rdn mv) (h' : p.Rewritten mv p') (hi : i ∈ mv.members) (hne : i ≠ id)
    (he : p.get? i = some e) (he' : p'.get? i = some e') : e'.name.rdn? = e.name.rdn? := by
  obtain ⟨f, f', hf, hf', hrebase, _⟩ := h'.member hown hmv hi
  cases he.symm.trans hf
  cases he'.symm.trans hf'
  exact (Dn.rebase?_rehung hrebase).rdn?
    (h.lt_of_above hp he hmv.top ((hp.mem_members hmv).1 hi).2 hne.symm)

theorem member_extent (hown : p.OwnNumbers) (hmv : p.Planned id rdn mv) (h' : p.Rewritten mv p')
    (hi : i ∈ mv.members) (he' : p'.get? i = some e') : ∃ e, p.get? i = some e ∧
      e'.name.extent + mv.top.name.extent = e.name.extent + mv.name.extent := by
  obtain ⟨e, f, he, hf, hrebase, _⟩ := h'.member hown hmv hi
  cases he'.symm.trans hf
  exact ⟨e, he, (Dn.rebase?_rehung hrebase).extent⟩

theorem member_parent (h : p.Outgrows) (hp : p.Arranged) (hown : p.OwnNumbers)
    (hmv : p.Planned id rdn mv) (h' : p.Rewritten mv p') {q : EntryId} {f' : Entry}
    (hi : i ∈ mv.members) (he' : p'.get? i = some e') (hq : e'.parent = some q)
    (hf' : p'.get? q = some f') : f'.name.extent < e'.name.extent := by
  obtain ⟨e, he, hextent⟩ := member_extent hown hmv h' hi he'
  by_cases hid : i = id
  · -- the moved entry is called by one relative name more than its new parent, which stays
    subst hid
    cases he.symm.trans hmv.top
    have hq := (h'.hasParent_top hown hmv hi).1 ⟨e', he', hq⟩
    subst hq
    have houtside : mv.parent ∉ mv.members := fun hin =>
      hp.not_above_parent hown hmv ((hp.mem_members hmv).1 hin).2
    obtain ⟨f, r, hf, _, hname⟩ := hmv.name
    obtain rfl : f = f' := Option.some.inj ((hf.symm.trans (h'.others _ houtside).symm).trans hf')
    have hlt := Dn.extent_lt_child f.name r
    rw [← hname] at hlt
    omega
  · -- any other member has its parent among the members
    have hstep : p.HasParent i q := (h'.redirects hown hmv i hid q).1 ⟨e', he', hq⟩
    have hqm : q ∈ mv.members := by
      refine (hp.mem_members hmv).2 ⟨hp.parents i q hstep, ?_⟩
      rcases ReflTransGen.cases_head ((hp.mem_members hmv).1 hi).2 with heq | ⟨j, hj, hway⟩
      · exact absurd heq hid
      · exact p.hasParent_unique hj hstep ▸ hway
    obtain ⟨f, hf, hextent'⟩ := member_extent hown hmv h' hqm hf'
    have hlt := h.parent i e q f he ((hasParent_iff he).1 hstep) hf
    omega

theorem relocated (h : p.Outgrows) (hp : p.Arranged) (hown : p.OwnNumbers)
    (hmv : p.Planned id rdn mv) (h' : p.Relocated mv p') : p'.Outgrows := by
  have hschema : p'.schema = p.schema := h'.same.schema
  refine ⟨h'.same.suffix ▸ h.suffix, fun i e' he' => ?_, fun i e' q f' he' hq hf' => ?_⟩ <;>
    by_cases hi : i ∈ mv.members
  · by_cases hid : i = id
    · subst hid
      obtain ⟨r, k, hown', _⟩ := relocated_carriesName hown hmv h' hi he'
      exact ⟨r, k, hown'.congr hschema rfl⟩
    · obtain ⟨e, he, _⟩ := member_extent hown hmv h'.rewritten hi he'
      obtain ⟨r, k, hform⟩ := h.ownForm i e he
      exact ⟨r, k, hform.congr hschema (h.member_rdn? hp hown hmv h'.rewritten hi hid he he')⟩
  · obtain ⟨r, k, hform⟩ := h.ownForm i e' (h'.others i hi ▸ he')
    exact ⟨r, k, hform.congr hschema rfl⟩
  · exact h.member_parent hp hown hmv h'.rewritten hi he' hq hf'
  · have he := h'.others i hi ▸ he'
    have hqm : q ∉ mv.members := fun hin =>
      hi ((hp.mem_members hmv).2 ⟨⟨e', he⟩, .head ⟨e', he, hq⟩ ((hp.mem_members hmv).1 hin).2⟩)
    exact h.parent i e' q f' he hq (h'.others q hqm ▸ hf')

end Moves

theorem write (h : p.Outgrows) (hp : p.Arranged) (hv : p.Valued n)
    (hn : n + w.isAdd.toNat < UInt64.size) (h' : p.Leaves w p') : p'.Outgrows := by
  cases h' with
  | refused w => exact h
  | skipped e => exact h.skipped
  | added he h' => exact h.added hp he (hv.get?_nextId hn) h'
  | @amended id ms old new p' hold hnew hcheck h' =>
    obtain ⟨hid, hname, hparent⟩ := modifiedBy_eq_ok hnew
    have hid : new.id = id := hid.trans (hv.own id old hold)
    subst hid
    exact h.congr h'.same.suffix h'.same.schema fun i e =>
      exists_of_amended hold hname hparent h'.master
  | removed he hchildren h' =>
    exact h.congr h'.same.suffix h'.same.schema fun i e he =>
      ⟨e, (get?_of_erased h'.master he).2, rfl, rfl⟩
  | relocated _ hmv h' => exact h.relocated hp hv.own (planMove_eq_ok hmv) h'
  | indexAdded h' =>
    refine h.congr (by rw [h'.rest]) (by rw [h'.rest]) fun i e he => ⟨e, ?_, rfl, rfl⟩
    rw [get?, h'.rest] at he
    exact he

end Outgrows

theorem ReachedBy.outgrows (h : p.ReachedBy c ws) : p.Outgrows := by
  obtain ⟨_, _, _, _, hp⟩ := h.induction
    (I := fun n p => p.Valued n ∧ p.Arranged ∧ p.Outgrows) (fun _ => True) (fun _ _ => trivial)
    (fun _ => trivial) (fun suffix _ hroot => ⟨.bare c suffix, .bare c suffix, .bare c hroot⟩)
    fun n p w _ hn ⟨hv, hp, h⟩ => by
      have hleaves := hv.leaves w hn
      obtain ⟨m, hm, hv'⟩ := hv.write hn hleaves
      exact ⟨m, hm, hv', hp.write hv hn hleaves, h.write hp hv hn hleaves⟩
  exact hp

/-! ## One write -/

/-- An entry that lacks its name after a write lacked it before, or the write modifies it and it had
its name. -/
theorem Outgrows.nameless_of_leaves (h : p.Outgrows) (hp : p.Arranged) (hv : p.Valued n)
    (h' : p.Leaves w p') (hi : p'.Nameless i) :
    p.Nameless i ∨ (∃ ms, w = .modify i ms) ∧ p.CarriesOwn i := by
  cases h' with
  | refused w => exact .inl hi
  | skipped e => exact .inl hi
  | @added e e' p' he h' =>
    by_cases heq : i = p.nextId
    · subst heq
      obtain ⟨r, hr⟩ := (h.new_name hp he).1
      have hcarries : ({ e' with id := p.nextId } : Entry).CarriesName p' :=
        (newEntry_carriesName he hr).congr h'.same.schema rfl rfl
      exact absurd hi (CarriesOwn.not_nameless ⟨_, get?_inserted h'.master, hcarries⟩)
    · exact .inl (hi.of_congr h'.same.schema (get?_inserted_of_ne h'.master heq))
  | @amended id ms old new _ hold hnew hcheck h' =>
    have hid : new.id = id := (modifiedBy_eq_ok hnew).1.trans (hv.own id old hold)
    subst hid
    by_cases heq : i = new.id
    · subst heq
      exact (Stored.carriesOwn_or ⟨old, hold⟩).symm.imp_right fun hcarries => ⟨⟨ms, rfl⟩, hcarries⟩
    · exact .inl (hi.of_congr h'.same.schema (get?_inserted_of_ne h'.master heq))
  | @removed id e _ he hchildren h' =>
    have hne : i ≠ id := by
      obtain ⟨f, hf, _⟩ := hi
      exact (get?_of_erased h'.master hf).1
    exact .inl (hi.of_congr h'.same.schema (get?_erased_of_ne h'.master hne))
  | @relocated _ id parent rdn mv _ hw hmv h' =>
    have hplan := planMove_eq_ok hmv
    by_cases hmem : i ∈ mv.members
    · obtain ⟨e', he', hnot⟩ := hi
      by_cases hid : i = id
      · subst hid
        exact absurd (relocated_carriesName hv.own hplan h' hmem he') fun hcarries =>
          hnot (hcarries.congr h'.same.schema rfl rfl)
      · obtain ⟨e, f, ⟨he, hentry⟩, hf⟩ := h'.rewritten.moved i hmem
        cases he'.symm.trans hf
        have hattributes := ((movedEntry_eq_ok hentry).2.2.2 (hplan.top_id hv.own ▸ hid)).2
        have hrdn := h.member_rdn? hp hv.own hplan h'.rewritten hmem hid he he'
        exact .inl ⟨e, he, fun hcarries =>
          hnot (hcarries.congr h'.same.schema hrdn hattributes)⟩
    · exact .inl (hi.of_congr h'.same.schema (h'.others i hmem))
  | indexAdded h' =>
    have hmaster : p'.master = p.master := by rw [h'.rest]
    exact .inl (hi.of_congr (by rw [h'.rest]) (get?_congr hmaster i))

end Partition

/-! ## Histories -/

/-- The write modifies an entry that carries its name, and leaves it without. -/
def Write.Strips (p : Partition) (w : Write) (i : EntryId) : Prop :=
  (∃ ms, w = .modify i ms) ∧ p.CarriesOwn i ∧ (w.after p).Nameless i

namespace Partition

variable {p p' q : Partition} {c : Config} {ws ws₁ : List Write} {w : Write} {e e' : Entry}
  {n : Nat} {i id : EntryId} {r : Rdn} {k : Value}

/-- Some write of the history has left the entry without its name. -/
def Stripped (c : Config) (ws : List Write) (i : EntryId) : Prop :=
  ∃ ws₁ w p, ws₁ ++ [w] <+: ws ∧ p.ReachedBy c ws₁ ∧ w.Strips p i

theorem Stripped.mono (h : Stripped c ws₁ i) (hinit : ws₁ <+: ws) : Stripped c ws i := by
  obtain ⟨ws₂, w, q, hw, hq, hstrips⟩ := h
  exact ⟨ws₂, w, q, hw.trans hinit, hq, hstrips⟩

/-- An entry without its name has lost it to a write of the history. -/
theorem ReachedBy.stripped (h : p.ReachedBy c ws) (hi : p.Nameless i) : Stripped c ws i := by
  refine h.along (I := fun ws p => p.Nameless i → Stripped c ws i) (fun p₀ hp₀ hi => ?_)
    (fun ws₁ w q _ hq hnext ih hi => ?_) hi
  · obtain ⟨e, he, _⟩ := hi
    rw [get?, (ofConfig_empty hp₀).1] at he
    cases he
  · obtain ⟨n, _, hvalued, hleaves⟩ := hq.leaves hnext
    rcases hq.outgrows.nameless_of_leaves hq.arranged hvalued hleaves hi with hold | ⟨hw, hcarries⟩
    · exact (ih hold).mono (List.prefix_append ..)
    · exact ⟨ws₁, w, q, List.prefix_rfl, hq, hw, hcarries, hi⟩

/-- A modification leaves an entry with its name if the normal form of that is among those that the
modifications make of the old ones. -/
theorem Valued.carriesOwn_modify (hv : p.Valued n) (h : p.Outgrows) {ms : List Modification}
    (hok : modify id ms p = .ok () p') : ∃ e r k, p.get? id = some e ∧ e.OwnForm p r k ∧
      (p'.CarriesOwn id ↔ k ∈ ms.foldl (Modification.onFormsOf p r.type)
        (p.forms r.type (e.valuesOf r.type))) := by
  obtain ⟨old, new, hold, hnew, _, hamended⟩ := ensures_modify hv.sound hv.values id ms () p' hok
  obtain ⟨hid, hname, _⟩ := modifiedBy_eq_ok hnew
  obtain ⟨r, k, hform⟩ := h.ownForm id old hold
  obtain rfl : new.id = id := hid.trans (hv.own id old hold)
  have hschema : p'.schema = p.schema := hamended.same.schema
  have hform' : new.OwnForm p' r k := hform.congr hschema (congrArg Dn.rdn? hname)
  refine ⟨old, r, k, hold, hform, ?_⟩
  rw [carriesOwn_iff (get?_inserted hamended.master), hform'.carries_iff, isForm_congr hschema,
    ← (Entry.modifiedBy_reworks hnew).forms]
  rfl

theorem Valued.carriesOwn_moveAndRename (hv : p.Valued n) (hp : p.Arranged) {parent : Option Dn}
    {rdn : Option Rdn} (hok : moveAndRename id parent rdn p = .ok () p') : p'.CarriesOwn id := by
  obtain ⟨mv, hplan, h'⟩ :=
    ensures_moveAndRename hv.sound hv.own hv.values id parent rdn () p' hok
  have hmv := planMove_eq_ok hplan
  have hid : id ∈ mv.members := (hp.mem_members hmv).2 ⟨⟨_, hmv.top⟩, .refl⟩
  obtain ⟨e', he'⟩ := h'.rewritten.stored_iff.2 ⟨_, hmv.top⟩
  exact ⟨e', he', (relocated_carriesName hv.own hmv h' hid he').congr h'.same.schema rfl rfl⟩

/-- **Entries and their names.** An entry that does not carry its name has lost it to a
modification. So all entries carry their names at all times of a history exactly if no write of it
is such a modification. It is one if the normal form of the name is not among those that it makes of
the normal forms of the values. A move or a renaming gives the entry its name back. -/
theorem ReachedBy.own_names (h : p.ReachedBy c ws) :
    (∀ i, p.Nameless i → Stripped c ws i) ∧
    ((∀ ws₁ (q : Partition), ws₁ <+: ws → q.ReachedBy c ws₁ → ∀ i, q.Stored i → q.CarriesOwn i) ↔
      ∀ i, ¬Stripped c ws i) ∧
    (∀ id ms p', modify id ms p = .ok () p' → ∃ e r k, p.get? id = some e ∧ e.OwnForm p r k ∧
      (p'.CarriesOwn id ↔ k ∈ ms.foldl (Modification.onFormsOf p r.type)
        (p.forms r.type (e.valuesOf r.type)))) ∧
    ∀ id parent rdn p', moveAndRename id parent rdn p = .ok () p' → p'.CarriesOwn id := by
  obtain ⟨_, _, hvalued⟩ := h.valued
  refine ⟨fun i => h.stripped, ⟨fun halways i => ?_, fun hnone ws₁ q hinit hq i hi => ?_⟩,
    fun id ms p' => hvalued.carriesOwn_modify h.outgrows,
    fun id parent rdn p' => hvalued.carriesOwn_moveAndRename h.arranged⟩
  · rintro ⟨ws₁, w, q, hinit, hq, _, _, hlost⟩
    have hnext : (w.after q).ReachedBy c (ws₁ ++ [w]) :=
      hq.next (Nat.lt_of_le_of_lt hinit.sublist.countP_le h.adds)
    have ⟨e, he, _⟩ := hlost
    exact (halways _ _ hinit hnext i ⟨e, he⟩).not_nameless hlost
  · exact hi.carriesOwn_or.resolve_right fun hlost => hnone i ((hq.stripped hlost).mono hinit)

end Partition

/-! ### A unit that loses its name -/

namespace Sample

/-- The only name of the unit is removed. -/
def stripWrites : List Write := [
  .add (.ofName suffix), .add (.ofName (unit "A")), .modify 2 [⟨.remove, ⟨"ou"⟩, [.text "a"]⟩]]

theorem stripWrites_reachedBy : (after stripWrites).ReachedBy .standard stripWrites :=
  after_reachedBy stripWrites (by decide)

theorem stripWrites_parsed : ∀ w ∈ stripWrites, w.Parsed := by
  simp only [stripWrites, List.forall_mem_cons]
  exact ⟨suffix_parsed, unitA_parsed, trivial, fun _ h => nomatch h⟩

theorem stripWrites_nameless : (after stripWrites).Nameless 2 := by
  have h : ((after stripWrites).get? 2).any (fun e =>
      e.name.rdn? == some ⟨⟨"ou"⟩, "A"⟩ && e.valuesOf ⟨"ou"⟩ == []) = true := by decide +kernel
  obtain ⟨e, he, h⟩ := (Option.any_eq_true _ _).1 h
  simp only [Bool.and_eq_true, beq_iff_eq] at h
  refine ⟨e, he, ?_⟩
  rintro ⟨r, k, ⟨hr, _⟩, v, hv, _⟩
  cases hr.symm.trans h.1
  rw [h.2] at hv
  cases hv

end Sample

/-- The modification is what the unit has lost its name to. -/
theorem Partition.own_names_sample :
    (Sample.after Sample.stripWrites).ReachedBy .standard Sample.stripWrites ∧
      Partition.Stripped .standard Sample.stripWrites 2 :=
  ⟨Sample.stripWrites_reachedBy, (Partition.ReachedBy.own_names Sample.stripWrites_reachedBy).1
    2 Sample.stripWrites_nameless⟩

/-- An entry that does not carry its name. -/
theorem Partition.lost_name_sample :
    let p := Sample.after Sample.stripWrites
    p.ReachedBy .standard Sample.stripWrites ∧ (∀ w ∈ Sample.stripWrites, w.Parsed) ∧
      p.Nameless 2 :=
  ⟨Sample.stripWrites_reachedBy, Sample.stripWrites_parsed, Sample.stripWrites_nameless⟩

end Directory
