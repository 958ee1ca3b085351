import Mathlib.Data.Set.Insert
import Directory.Proofs.Partition.NoTrace
import Directory.Proofs.Partition.Values

/-!
# What modifications make of the values

Modifications compare values by their normal forms and store them as they are written.

* `Partition.forms`: the set of the normal forms of values.
* `Modification.onForms`, `Modification.onFormsOf`: what a modification makes of the normal forms
  of its own attribute, and of any attribute.
* `Entry.Reworks`: what modifications, one after another, make of an entry; `Reworks.one`, `nil`,
  `cons`: that of one, of none and of one more. `Entry.modifiedBy_reworks` puts them together.
* `Partition.Reachable.modified_values`: **the entry that a modification leaves**, and all others.
-/

namespace Directory

/-! ## Sets of normal forms -/

/-- The normal forms of values of an attribute. -/
def Partition.forms (p : Partition) (a : AttributeId) (values : List Value) : Set Value :=
  {k | p.IsForm a values k}

namespace Modification

/-- What a modification makes of the set of normal forms of its attribute: a removal that names no
values removes all. -/
def onForms (p : Partition) (m : Modification) (ks : Set Value) : Set Value :=
  match m.kind with
  | .add => ks ∪ p.forms m.attr m.values
  | .remove => if m.values = [] then ∅ else ks \ p.forms m.attr m.values
  | .replace => p.forms m.attr m.values

/-- What a modification makes of the set of normal forms of an attribute. -/
def onFormsOf (p : Partition) (a : AttributeId) (ks : Set Value) (m : Modification) : Set Value :=
  if m.attr = a then m.onForms p ks else ks

end Modification

namespace Entry

open Directory.Partition

variable {p : Partition} {a : AttributeId}

/-! ## Values with their normal forms -/

/-- Each value comes with its normal form. -/
def Paired (p : Partition) (a : AttributeId) (held : List (Value × Value)) : Prop :=
  ∀ x ∈ held, p.schema.normalize a x.2 = .ok x.1

/-- The normal forms that values come with. -/
def heldForms (held : List (Value × Value)) : Set Value := {k | ∃ x ∈ held, x.1 = k}

theorem heldForms_nil : heldForms [] = ∅ := by
  ext k
  simp [heldForms]

theorem heldForms_append (xs ys : List (Value × Value)) :
    heldForms (xs ++ ys) = heldForms xs ∪ heldForms ys := by
  ext k
  simp only [heldForms, Set.mem_ofPred_eq, Set.mem_union, List.mem_append, or_and_right, exists_or]

theorem heldForms_singleton (n v : Value) : heldForms [(n, v)] = {n} := by
  ext k
  simp [heldForms, eq_comm]

theorem forms_nil : p.forms a [] = ∅ := by
  ext k
  simp [Partition.forms, IsForm]

theorem forms_cons {v n : Value} (hn : p.schema.normalize a v = .ok n) (values : List Value) :
    p.forms a (v :: values) = {n} ∪ p.forms a values := by
  ext k
  simp only [Partition.forms, IsForm, Set.mem_ofPred_eq, Set.mem_union, Set.mem_singleton_iff,
    List.mem_cons, exists_eq_or_imp, hn, Except.ok.injEq]
  exact or_congr_left eq_comm

theorem Paired.forms {held : List (Value × Value)} (h : Paired p a held) :
    p.forms a (held.map Prod.snd) = heldForms held := by
  ext k
  simp only [Partition.forms, IsForm, heldForms, Set.mem_ofPred_eq, List.mem_map]
  constructor
  · rintro ⟨_, ⟨x, hx, rfl⟩, hk⟩
    rw [h x hx] at hk
    exact ⟨x, hx, Except.ok.inj hk⟩
  · rintro ⟨x, hx, rfl⟩
    exact ⟨x.2, ⟨x, hx, rfl⟩, h x hx⟩

theorem paired_of_mapM {values : List Value} {held : List (Value × Value)}
    (h : values.mapM (fun v => do return (← p.schema.normalize a v, v)) = .ok held) :
    Paired p a held ∧ held.map Prod.snd = values := by
  induction values generalizing held with
  | nil =>
    cases h
    exact ⟨List.forall_mem_nil _, rfl⟩
  | cons v values ih =>
    rw [List.mapM_cons] at h
    obtain ⟨x, hx, h⟩ := Except.bind_eq_ok.1 h
    obtain ⟨xs, hxs, h⟩ := Except.bind_eq_ok.1 h
    obtain ⟨n, hn, hx⟩ := Except.bind_eq_ok.1 hx
    cases hx
    cases h
    obtain ⟨hpaired, hvalues⟩ := ih hxs
    exact ⟨List.forall_mem_cons.2 ⟨hn, hpaired⟩, congrArg (v :: ·) hvalues⟩

/-- Values are merged by their normal forms: a value whose form is there already is left out. -/
theorem mergeValues_eq_ok {held kept : List (Value × Value)} {values : List Value}
    (h : mergeValues p a held values = .ok kept) (hheld : Paired p a held) :
    Paired p a kept ∧ (∀ v ∈ values, ∃ k, p.schema.normalize a v = .ok k) ∧
      heldForms kept = heldForms held ∪ p.forms a values := by
  induction values generalizing held with
  | nil =>
    cases h
    exact ⟨hheld, List.forall_mem_nil _, by rw [forms_nil, Set.union_empty]⟩
  | cons v values ih =>
    rw [mergeValues] at h
    obtain ⟨n, hn, h⟩ := Except.bind_eq_ok.1 h
    rw [forms_cons hn, ← Set.union_assoc]
    split at h
    · rename_i hany
      obtain ⟨hkept, hreadable, hforms⟩ := ih h hheld
      obtain ⟨x, hx, hxn⟩ := List.any_eq_true.1 hany
      have hmem : n ∈ heldForms held := ⟨x, hx, beq_iff_eq.1 hxn⟩
      rw [Set.union_singleton, Set.insert_eq_of_mem hmem]
      exact ⟨hkept, List.forall_mem_cons.2 ⟨⟨n, hn⟩, hreadable⟩, hforms⟩
    · have hmore : Paired p a (held ++ [(n, v)]) := by
        intro x hx
        rcases List.mem_append.1 hx with hx | hx
        · exact hheld x hx
        · obtain rfl := List.mem_singleton.1 hx
          exact hn
      obtain ⟨hkept, hreadable, hforms⟩ := ih h hmore
      rw [heldForms_append, heldForms_singleton] at hforms
      exact ⟨hkept, List.forall_mem_cons.2 ⟨⟨n, hn⟩, hreadable⟩, hforms⟩

theorem keptValues_eq_ok {m : Modification} {held kept : List (Value × Value)}
    (h : keptValues p m held = .ok kept) (hheld : Paired p m.attr held) :
    Paired p m.attr kept ∧ (∀ v ∈ m.values, ∃ k, p.schema.normalize m.attr v = .ok k) ∧
      heldForms kept = m.onForms p (heldForms held) := by
  unfold keptValues at h
  unfold Modification.onForms
  cases hkind : m.kind with
  | add =>
    rw [hkind] at h
    exact mergeValues_eq_ok h hheld
  | replace =>
    rw [hkind] at h
    obtain ⟨hkept, hreadable, hforms⟩ := mergeValues_eq_ok h (List.forall_mem_nil _)
    rw [heldForms_nil, Set.empty_union] at hforms
    exact ⟨hkept, hreadable, hforms⟩
  | remove =>
    rw [hkind] at h
    dsimp only at h
    split at h
    · rename_i hempty
      have hempty := List.isEmpty_iff.1 hempty
      cases h
      rw [if_pos hempty, hempty]
      exact ⟨List.forall_mem_nil _, List.forall_mem_nil _, heldForms_nil⟩
    · rename_i hne
      obtain ⟨removed, hremoved, h⟩ := Except.bind_eq_ok.1 h
      cases h
      obtain ⟨ks, hks, _⟩ := Except.bind_eq_ok.1 hremoved
      rw [if_neg fun h => hne (List.isEmpty_iff.2 h)]
      refine ⟨fun x hx => hheld x (List.mem_filter.1 hx).1,
        Except.exists_mapM_eq_ok.1 ⟨ks, hks⟩, ?_⟩
      have hstays : ∀ k, (!removed.contains k) = true ↔ k ∉ p.forms m.attr m.values := by
        intro k
        rw [Bool.not_eq_true', ← Bool.not_eq_true, SortedSet.contains_iff]
        exact not_congr (mem_normalizeAll hremoved)
      ext k
      simp only [heldForms, Set.mem_ofPred_eq, Set.mem_sdiff, List.mem_filter, hstays]
      constructor
      · rintro ⟨x, ⟨hx, hk⟩, rfl⟩
        exact ⟨⟨x, hx, rfl⟩, hk⟩
      · rintro ⟨⟨x, hx, rfl⟩, hk⟩
        exact ⟨x, ⟨hx, hk⟩, rfl⟩

/-! ## Entries -/

/-- What modifications make of an entry: all their values have normal forms; the normal forms of
each attribute are what the modifications make of the old ones, one after another; an attribute that
is left without values is absent; and an attribute that none of them names is as it was. -/
structure Reworks (p : Partition) (ms : List Modification) (e e' : Entry) : Prop where
  readable : ∀ m ∈ ms, ∀ v ∈ m.values, ∃ k, p.schema.normalize m.attr v = .ok k
  forms : ∀ a, p.forms a (e'.valuesOf a) =
    ms.foldl (Modification.onFormsOf p a) (p.forms a (e.valuesOf a))
  absent : ∀ a, (∃ m ∈ ms, m.attr = a) → e'.valuesOf a = [] → e'.attributes.get? a = none
  others : ∀ a, (∀ m ∈ ms, m.attr ≠ a) → e'.attributes.get? a = e.attributes.get? a

theorem valuesOf_congr {e e' : Entry} (h : e'.attributes.get? a = e.attributes.get? a) :
    e'.valuesOf a = e.valuesOf a := by
  rw [valuesOf, valuesOf, SortedMap.getD, SortedMap.getD, h]

namespace Reworks

variable {e e' e'' : Entry} {m : Modification} {ms : List Modification}

theorem nil : Reworks p [] e e where
  readable := List.forall_mem_nil _
  forms _ := rfl
  absent _ := fun ⟨_, hm, _⟩ => nomatch hm
  others _ _ := rfl

/-- One modification. -/
theorem one (h : e.modified p m = .ok e') : Reworks p [m] e e' := by
  obtain ⟨held, hheld, h⟩ := Except.bind_eq_ok.1 h
  obtain ⟨kept, hkept, h⟩ := Except.bind_eq_ok.1 h
  cases h
  obtain ⟨hpaired, hvalues⟩ := paired_of_mapM hheld
  obtain ⟨hkept, hreadable, hforms⟩ := keptValues_eq_ok hkept hpaired
  have hother : ∀ b, b ≠ m.attr →
      (e.attributes.set m.attr (if kept.isEmpty then none else some (kept.map Prod.snd))).get? b =
        e.attributes.get? b := fun b hb => SortedMap.get?_set_of_ne _ hb
  refine ⟨List.forall_mem_singleton.2 hreadable, fun b => ?_, fun b hb => ?_, fun b hb => ?_⟩
  · rw [List.foldl_cons, List.foldl_nil, Modification.onFormsOf]
    by_cases hb : m.attr = b
    · subst hb
      rw [if_pos rfl, ← hvalues, hpaired.forms, ← hforms, ← hkept.forms]
      congr 1
      rw [valuesOf, SortedMap.getD, SortedMap.get?_set_self]
      cases kept <;> rfl
    · rw [if_neg hb]
      exact congrArg (p.forms b) (valuesOf_congr (hother b (Ne.symm hb)))
  · obtain ⟨_, hm, rfl⟩ := hb
    obtain rfl := List.mem_singleton.1 hm
    rw [valuesOf, SortedMap.getD, SortedMap.get?_set_self]
    cases kept with
    | nil => exact fun _ => rfl
    | cons x kept => exact fun h => absurd h (List.cons_ne_nil _ _)
  · exact hother b (Ne.symm (hb m (.head _)))

/-- A modification and what the ones after it make of the result. -/
theorem cons (h : Reworks p [m] e e') (h' : Reworks p ms e' e'') : Reworks p (m :: ms) e e'' where
  readable := List.forall_mem_cons.2 ⟨h.readable m (.head _), h'.readable⟩
  forms a := by
    rw [h'.forms, h.forms]
    rfl
  absent a ha hnil := by
    by_cases hlater : ∃ m ∈ ms, m.attr = a
    · exact h'.absent a hlater hnil
    · have hsame := h'.others a fun m' hm' heq => hlater ⟨m', hm', heq⟩
      obtain ⟨m', hm', heq⟩ := ha
      rcases List.mem_cons.1 hm' with rfl | hm'
      · rw [hsame]
        exact h.absent a ⟨m', .head _, heq⟩ (valuesOf_congr hsame ▸ hnil)
      · exact absurd ⟨m', hm', heq⟩ hlater
  others a ha := by
    obtain ⟨hm, hms⟩ := List.forall_mem_cons.1 ha
    rw [h'.others a hms, h.others a (List.forall_mem_singleton.2 hm)]

end Reworks

/-- Modifications, one after another. -/
theorem modifiedBy_reworks {ms : List Modification} {e e' : Entry}
    (h : e.modifiedBy p ms = .ok e') : Reworks p ms e e' := by
  induction ms generalizing e with
  | nil =>
    cases h
    exact .nil
  | cons m ms ih =>
    obtain ⟨e₁, he₁, h⟩ := Except.bind_eq_ok.1 h
    exact (Reworks.one he₁).cons (ih h)

end Entry

/-! ## The write -/

namespace Partition

/-- **What a modification leaves**, when it succeeds. The normal forms of the values of each
attribute are what the modifications make of the old ones, one after another. An attribute that they
name and leave without values is absent, and one that they do not name has its values as they were.
The number, the name and the parent of the entry are the same, and so are all other entries. -/
theorem Reachable.modified_values {p p' : Partition} (h : p.Reachable) {id : EntryId}
    {ms : List Modification} (hok : modify id ms p = .ok () p') :
    ∃ old new, p.get? id = some old ∧ p'.get? id = some new ∧
      (∀ m ∈ ms, ∀ v ∈ m.values, ∃ k, p.schema.normalize m.attr v = .ok k) ∧
      (∀ a, ∀ v ∈ new.valuesOf a, ∃ k, p.schema.normalize a v = .ok k) ∧
      (∀ a, p.forms a (new.valuesOf a) =
        ms.foldl (Modification.onFormsOf p a) (p.forms a (old.valuesOf a))) ∧
      (∀ a, (∃ m ∈ ms, m.attr = a) → new.valuesOf a = [] → new.attributes.get? a = none) ∧
      (∀ a, (∀ m ∈ ms, m.attr ≠ a) → new.attributes.get? a = old.attributes.get? a) ∧
      (new.id = old.id ∧ new.name = old.name ∧ new.parent = old.parent) ∧
      ∀ i, i ≠ id → p'.get? i = p.get? i := by
  obtain ⟨n, hp⟩ := h.valued
  obtain ⟨old, new, hold, hnew, hcheck, hamended⟩ :=
    ensures_modify hp.sound hp.values id ms () p' hok
  obtain ⟨hid, hname, hparent⟩ := modifiedBy_eq_ok hnew
  obtain ⟨hreadable, hforms, habsent, hothers⟩ := Entry.modifiedBy_reworks hnew
  obtain rfl : new.id = id := hid.trans (hp.own id old hold)
  exact ⟨old, new, hold, get?_inserted hamended.master, hreadable,
    fun a v hv => checkValues_eq_ok hcheck hv, hforms, habsent, hothers, ⟨hid, hname, hparent⟩,
    fun i hi => get?_inserted_of_ne hamended.master hi⟩

end Partition

namespace Sample

/-- Names that are there in another spelling, a class that is replaced, and a number that comes and
goes. -/
def modifications : List Modification := [
  ⟨.add, ⟨"cn"⟩, [.text "ANN", .text "Bob", .text " bob "]⟩, ⟨.remove, ⟨"cn"⟩, [.text "anna lee"]⟩,
  ⟨.replace, ⟨"objectclass"⟩, [.text "Person"]⟩, ⟨.add, ⟨"uid"⟩, [.integer 7]⟩,
  ⟨.remove, ⟨"uid"⟩, []⟩]

end Sample

theorem Partition.modified_values_sample : Sample.partition.Reachable ∧
    ∃ p' new, modify 4 Sample.modifications Sample.partition = .ok () p' ∧ p'.get? 4 = some new ∧
      new.valuesOf ⟨"cn"⟩ = [.text "Ann", .text "Bob"] ∧ new.attributes.get? ⟨"uid"⟩ = none := by
  have hok : modify 4 Sample.modifications Sample.partition =
      .ok () (stateAfter (modify 4 Sample.modifications) Sample.partition) :=
    errorOf?_eq_none.1 (by decide +kernel)
  obtain ⟨old, new, _, hnew, _, _, _, habsent, _⟩ :=
    Reachable.modified_values Sample.reachable hok
  have hvalues : ((stateAfter (modify 4 Sample.modifications) Sample.partition).get? 4).map
      (fun e => (e.valuesOf ⟨"cn"⟩, e.valuesOf ⟨"uid"⟩)) =
        some ([.text "Ann", .text "Bob"], []) := by decide +kernel
  rw [hnew, Option.map_some, Option.some.injEq, Prod.mk.injEq] at hvalues
  obtain ⟨hnames, hnumber⟩ := hvalues
  exact ⟨Sample.reachable, _, new, hok, hnew, hnames,
    habsent ⟨"uid"⟩ ⟨⟨.add, ⟨"uid"⟩, [.integer 7]⟩, by decide, rfl⟩ hnumber⟩

end Directory
