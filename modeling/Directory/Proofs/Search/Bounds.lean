import Mathlib.Data.List.Perm.Subperm
import Directory.Proofs.Index.Tuples
import Directory.Proofs.Search.Estimate
import Directory.Proofs.Search.Kept
import Directory.Proofs.Search.Pass

/-!
# Estimates as bounds

An index counts tuples of values, not entries that a filter accepts. Still an estimate is rarely too
small, since an accepted entry mostly has a tuple that was counted.

* `Index.length_le_countWhere`: distinct entries with keys of a kind are no more than the tuples
  with such keys.
* `Filter.Bounds`: the evaluator accepts no more entries than are reckoned for the filter.
  `Filter.bounds_of_tally`, `Filter.bounds_and`, `Filter.bounds_or`: one lemma for each kind of
  filter.
* `Filter.Counted`: the candidates do not come from an extensible condition that looks at names too,
  on an attribute with an index. The index does not count names.
* `Partition.Reachable.walk_le_estimate`: **a walk gives no more elements than were estimated**.
* `Partition.short_estimate_sample`: the condition is needed.
-/

namespace Directory

variable {p : Partition} {n : Nat} {ids : List EntryId}

/-! ## Tuples of accepted entries -/

namespace Index

variable {κ : Type} [Ord κ] [Std.TransOrd κ] [Std.LawfulEqOrd κ] {x : Index κ} {k : κ}

omit [Ord κ] [Std.TransOrd κ] [Std.LawfulEqOrd κ] in
theorem length_le_of_mem {ts : List (κ × EntryId)} (hnodup : ids.Nodup)
    (h : ∀ id ∈ ids, ∃ k, (k, id) ∈ ts) : ids.length ≤ ts.length := by
  have hsub : ids ⊆ ts.map Prod.snd := fun id hid => by
    obtain ⟨k, hk⟩ := h id hid
    exact List.mem_map_of_mem hk
  exact (List.subperm_of_subset hnodup hsub).length_le.trans_eq (List.length_map ..)

/-- Distinct entries with keys of a kind are no more than the tuples with such keys. -/
theorem length_le_countWhere (hnodup : ids.Nodup) {q : κ → Bool}
    (h : ∀ id ∈ ids, ∃ k, x.Has k id ∧ q k = true) : ids.length ≤ x.countWhere q := by
  rw [countWhere, Tables.countWhere_eq]
  exact length_le_of_mem hnodup fun id hid => (h id hid).imp fun _ hk =>
    List.mem_filter.2 ⟨Tables.mem_byKey.2 hk.1, hk.2⟩

theorem length_le_count (hx : x.WellFormed) (hnodup : ids.Nodup)
    (h : ∀ id ∈ ids, ∃ k, x.Has k id) : ids.length ≤ x.count := by
  rw [count, hx.count_eq]
  exact length_le_of_mem hnodup fun id hid => (h id hid).imp fun _ hk => Tables.mem_byKey.2 hk

omit [Std.TransOrd κ] [Std.LawfulEqOrd κ] in
theorem length_le_countOf (hnodup : ids.Nodup) (h : ∀ id ∈ ids, x.Has k id) :
    ids.length ≤ x.countOf k :=
  (List.subperm_of_subset hnodup h).length_le

end Index

namespace Partition

variable {a : AttributeId} {x : Index Value} {q : Value → Bool}

/-- The entries have a value of the attribute whose normal form satisfies the test. -/
def HaveForms (p : Partition) (a : AttributeId) (q : Value → Bool) (ids : List EntryId) : Prop :=
  ∀ id ∈ ids, ∃ k, p.IsForm a (p.valuesOf id a) k ∧ q k = true

theorem HaveForms.length_le_countWhere (hp : p.Valued n) (hx : p.userIndex? a = some x)
    (hnodup : ids.Nodup) (h : p.HaveForms a q ids) : ids.length ≤ x.countWhere q :=
  x.length_le_countWhere hnodup fun id hid =>
    (h id hid).imp fun _ hk => ⟨(hp.index_has hx).2 hk.1, hk.2⟩

theorem HaveForms.length_le_count (hp : p.Valued n) (hx : p.userIndex? a = some x)
    (hnodup : ids.Nodup) (h : p.HaveForms a q ids) : ids.length ≤ x.count :=
  Index.length_le_count (hp.sound.user a x hx) hnodup fun id hid =>
    (h id hid).imp fun _ hk => (hp.index_has hx).2 hk.1

theorem HaveForms.length_le_countOf (hp : p.Valued n) (hx : p.userIndex? a = some x) {v : Value}
    (hnodup : ids.Nodup) (h : p.HaveForms a (· == v) ids) : ids.length ≤ x.countOf v := by
  refine Index.length_le_countOf hnodup fun id hid => ?_
  obtain ⟨k, hk, hkv⟩ := h id hid
  exact eq_of_beq hkv ▸ (hp.index_has hx).2 hk

theorem Valued.exists_form (hp : p.Valued n) {id : EntryId} (h : p.valuesOf id a ≠ []) :
    ∃ k, p.IsForm a (p.valuesOf id a) k := by
  obtain ⟨v, hv⟩ := List.exists_mem_of_ne_nil _ h
  obtain ⟨k, hk⟩ := hp.normal id a v hv
  exact ⟨k, v, hv, hk⟩

/-- The evaluator accepts the stored record of each of the entries. -/
def AcceptsAll (p : Partition) (x : Evaluator) (ids : List EntryId) : Prop :=
  ∀ id ∈ ids, p.Stored id ∧ x.evaluateId p id = .ok true

theorem AcceptsAll.record (hp : p.Valued n) {f : Filter} {x : Evaluator}
    (hx : Evaluator.ofFilter p f = .ok x) (h : p.AcceptsAll x ids) {id : EntryId} (hid : id ∈ ids) :
    ∃ e, p.get? id = some e ∧ x.evaluateEntry p e = .ok true := by
  obtain ⟨⟨e, he⟩, haccepts⟩ := h id hid
  exact ⟨e, he, (Evaluator.ofFilter_backed f hx).evaluateId_eq hp he ▸ haccepts⟩

theorem haveForms_of_anyValue (hp : p.Valued n) (h : ∀ id ∈ ids, ∃ e, p.get? id = some e ∧
    Evaluator.anyValue p e a q = .ok true) : p.HaveForms a q ids := by
  intro id hid
  obtain ⟨e, he, hany⟩ := h id hid
  rw [valuesOf_some he]
  obtain ⟨b, hb, hiff⟩ := anyValue_eq (p := p) (a := a) (e := e)
    (fun v hv => hp.normal id a v (valuesOf_some he ▸ hv)) q
  exact hiff.1 (Except.ok.inj (hb.symm.trans hany))

/-- A test that looks at values of the attribute alone, and accepts nothing without one. -/
theorem haveForms_of_ne_nil (hp : p.Valued n) (h : ∀ id ∈ ids, ∃ e, p.get? id = some e ∧
    e.valuesOf a ≠ []) : p.HaveForms a (fun _ => true) ids := by
  intro id hid
  obtain ⟨e, he, hne⟩ := h id hid
  obtain ⟨k, hk⟩ := hp.exists_form (valuesOf_some he ▸ hne)
  exact ⟨k, hk, rfl⟩

end Partition

/-! ## Conditions by themselves -/

namespace Filter

open Directory.Partition

variable {f : Filter} {x : Evaluator}

/-- The evaluator of the filter accepts no more entries than are reckoned, if less than the greatest
estimate is. -/
def Bounds (p : Partition) (f : Filter) : Prop :=
  ∀ x, Evaluator.ofFilter p f = .ok x → ∀ ids : List EntryId, ids.Nodup → p.AcceptsAll x ids →
    min ids.length maxEstimate ≤ f.reckon p

theorem bounds_of_tally (hf : f.reckon p = min maxEstimate ((p.tally? f).getD maxEstimate))
    (h : ∀ m, p.tally? f = some m → ∀ x, Evaluator.ofFilter p f = .ok x → ∀ ids : List EntryId,
      ids.Nodup → p.AcceptsAll x ids → ids.length ≤ m) : f.Bounds p := by
  intro x hx ids hnodup haccepts
  rw [hf]
  cases htally : p.tally? f with
  | none => exact Nat.le_min.2 ⟨Nat.min_le_right .., Nat.min_le_right ..⟩
  | some m =>
    have hle := h m htally x hx ids hnodup haccepts
    exact Nat.le_min.2 ⟨Nat.min_le_right .., Nat.min_le_left .. |>.trans hle⟩

theorem bounds_scope {b : EntryId} {s : SearchScope} {m : AliasMode}
    {k : Option Nat} (hnone : (scope b s m k).FollowsNone) : (scope b s m k).Bounds p := by
  refine bounds_of_tally rfl fun l hl x hx ids hnodup haccepts => ?_
  cases hx
  have hin : ∀ id ∈ ids, p.inScope b s m.followsBelow id = true := fun id hid =>
    Except.ok.inj (haccepts id hid).2
  cases s with
  | base =>
    cases hl
    exact (List.subperm_of_subset hnodup fun id hid =>
      List.mem_singleton.2 (eq_of_beq (hin id hid))).length_le
  | oneLevel =>
    cases hl
    rw [hnone b _ m k .self (by decide)] at hin
    refine Nat.le_add_right_of_le (Index.length_le_countOf hnodup fun id hid => ?_)
    simpa [inScope, Index.has_iff] using hin id hid
  | subtree =>
    cases hl
    exact length_le_count hnodup fun id hid => (haccepts id hid).1

theorem bounds_presence (hp : p.Valued n) {a : AttributeId} {k : Option Nat} :
    (presence a k).Bounds p := by
  refine bounds_of_tally rfl fun m hm x hx ids hnodup haccepts => ?_
  obtain ⟨i, hi, rfl⟩ := Option.map_eq_some_iff.1 hm
  cases hx
  refine HaveForms.length_le_count hp hi hnodup (haveForms_of_ne_nil hp fun id hid => ?_)
  obtain ⟨e, he, haccepts⟩ := haccepts.record hp (f := .presence a k) rfl hid
  exact ⟨e, he, has_iff.1 (Except.ok.inj haccepts)⟩

theorem bounds_substring (hp : p.Valued n) {a : AttributeId} {ps : Pieces} {k : Option Nat} :
    (substring a ps k).Bounds p := by
  refine bounds_of_tally rfl fun m hm x hx ids hnodup haccepts => ?_
  obtain ⟨i, hi, rfl⟩ := Option.map_eq_some_iff.1 hm
  cases hx
  have hforms : p.HaveForms a ps.fits ids :=
    haveForms_of_anyValue hp fun id hid => haccepts.record hp (f := .substring a ps k) rfl hid
  exact hforms.length_le_count hp hi hnodup

theorem bounds_comparison (hp : p.Valued n) {op : Comparison} {a : AttributeId} {v : Value}
    {k : Option Nat} : (comparison op a v k).Bounds p := by
  refine bounds_of_tally rfl fun m hm x hx ids hnodup haccepts => ?_
  have hforms : p.HaveForms a (op.holds v) ids := by
    refine haveForms_of_anyValue hp fun id hid => ?_
    obtain ⟨b, _, hb⟩ := Except.bind_eq_ok.1 hx
    cases hb
    exact haccepts.record hp hx hid
  cases op with
  | equality | approximate =>
    obtain ⟨i, hi, rfl⟩ := Option.map_eq_some_iff.1 hm
    exact hforms.length_le_countOf hp hi hnodup
  | atLeast | atMost =>
    obtain ⟨i, hi, hcount⟩ := Option.bind_eq_some_iff.1 hm
    obtain ⟨_, _, hcount⟩ := Except.bind_eq_ok.1 (Except.toOption_eq_some.1 hcount)
    cases hcount
    exact hforms.length_le_countWhere hp hi hnodup

/-- Without the values in its name, a record needs a value of the attribute. -/
theorem valuesOf_ne_nil_of_anyExtensible {a : AttributeId} {r : Option String} {v : Value}
    {e : Entry} (h : Evaluator.anyExtensible p r v (Evaluator.extensibleValues e (some a) false) =
      .ok true) : e.valuesOf a ≠ [] := by
  intro hnil
  have hnone : Evaluator.extensibleValues e (some a) false = [] := by
    refine List.flatMap_eq_nil_iff.2 fun b hb => ?_
    obtain ⟨hmem, hwanted⟩ := List.mem_filter.1 hb
    obtain rfl : a = b.1 := by simpa using hwanted
    rw [Entry.valuesOf, SortedMap.getD, SortedMap.get?_eq_some_iff.2 hmem] at hnil
    rw [show b.2 = [] from hnil]
    rfl
  rw [hnone] at h
  cases h

theorem bounds_extensible (hp : p.Valued n) {a : Option AttributeId} {r : Option String} {v : Value}
    {inName : Bool} {k : Option Nat}
    (h : ∀ b, a = some b → inName = true → p.hasUserIndex b = false) :
    (extensible a r v inName k).Bounds p := by
  refine bounds_of_tally rfl fun m hm x hx ids hnodup haccepts => ?_
  obtain ⟨b, rfl, hm⟩ := Option.bind_eq_some_iff.1 hm
  obtain ⟨i, hi, rfl⟩ := Option.map_eq_some_iff.1 hm
  have hindexed : p.hasUserIndex b = true := by rw [hasUserIndex, hi]; rfl
  obtain rfl : inName = false := Bool.eq_false_iff.2 fun hname =>
    Bool.false_ne_true ((h b rfl hname).symm.trans hindexed)
  have hx' : x = .extensible (some b) r v false := by
    cases r with
    | none => exact (Except.ok.inj hx).symm
    | some r =>
      rw [Evaluator.ofFilter] at hx
      split at hx
      · exact (Except.ok.inj hx).symm
      · cases hx
  subst hx'
  refine HaveForms.length_le_count hp hi hnodup (haveForms_of_ne_nil hp fun id hid => ?_)
  obtain ⟨e, he, haccepts⟩ := haccepts.record hp hx hid
  exact ⟨e, he, valuesOf_ne_nil_of_anyExtensible haccepts⟩

/-! ## Conditions together -/

/-- The estimates in the filter are those that are reckoned. -/
def Reckoned (p : Partition) (f : Filter) : Prop := ∀ g, Part g f → g.estimate? = some (g.reckon p)

theorem Reckoned.of_part {g : Filter} (h : f.Reckoned p) (hpart : Part g f) : g.Reckoned p :=
  fun k hk => h k (hk.trans hpart)

theorem Reckoned.estimate_eq (h : f.Reckoned p) : f.estimate = f.reckon p := by
  rw [estimate, h f .self]
  rfl

theorem annotate_reckoned (p : Partition) (f : Filter) : (f.annotate p).Reckoned p := by
  intro h hpart
  obtain ⟨g, _, rfl⟩ := exists_part_of_annotate f hpart
  rw [estimate?_annotate, reckon_annotate]

/-- The candidates for the filter do not come from an extensible condition that looks at names too,
on an attribute with an index. -/
def Counted (p : Partition) (f : Filter) : Prop :=
  ∀ a r v n, Feeds (.extensible (some a) r v true n) f → p.hasUserIndex a = false

section

variable {fs gs : List Filter} {k : Option Nat}

theorem estimate_le_of_sort (hsort : fs.mergeSort (fun x y => x.estimate ≤ y.estimate) = f :: gs)
    {g : Filter} (hg : g ∈ fs) : f.estimate ≤ g.estimate := by
  have hsorted := @List.pairwise_mergeSort Filter (fun x y => x.estimate ≤ y.estimate)
    (fun _ _ _ h h' => decide_eq_true (Nat.le_trans (of_decide_eq_true h) (of_decide_eq_true h')))
    (fun x y => by simpa using Nat.le_total x.estimate y.estimate) fs
  rw [hsort] at hsorted
  rcases List.mem_cons.1 ((SearchCursor.sort_perm hsort).mem_iff.2 hg) with rfl | hg
  · exact Nat.le_refl _
  · simpa using List.rel_of_pairwise_cons hsorted hg

/-- A conjunction accepts only what the condition accepts that drives it, and is reckoned as that
is. -/
theorem bounds_and (hsort : fs.mergeSort (fun x y => x.estimate ≤ y.estimate) = f :: gs)
    (hreckoned : (and fs k).Reckoned p) (hf : f.Bounds p) : (and fs k).Bounds p := by
  intro x hx ids hnodup haccepts
  have hmem : f ∈ fs := (SearchCursor.sort_perm hsort).mem_iff.1 (.head _)
  obtain ⟨xs, hxs, hx⟩ := Except.bind_eq_ok.1 hx
  cases hx
  obtain ⟨y, hy⟩ := Evaluator.exists_ofFilters.1 ⟨xs, hxs⟩ f hmem
  have hdriver : p.AcceptsAll y ids := fun id hid => by
    obtain ⟨hstored, hall⟩ := haccepts id hid
    rw [Evaluator.evaluateId, Evaluator.evaluateIdAll_eq_true] at hall
    exact ⟨hstored, hall y ((Evaluator.mem_ofFilters hxs).2 ⟨f, hmem, hy⟩)⟩
  refine (hf y hy ids hnodup hdriver).trans ?_
  rw [reckon, reckonAll_eq_map]
  cases hmin : (fs.map (reckon p)).min? with
  | none => exact reckon_le p f
  | some m =>
    obtain ⟨g, hg, rfl⟩ := List.mem_map.1 (List.min?_mem hmin)
    have hle := estimate_le_of_sort hsort hg
    rwa [(hreckoned.of_part (.and hmem .self)).estimate_eq,
      (hreckoned.of_part (.and hg .self)).estimate_eq] at hle

theorem min_length_le_sum (h : ∀ f ∈ fs, f.Bounds p) {xs : List Evaluator}
    (hxs : Evaluator.ofFilters p fs = .ok xs) (hnodup : ids.Nodup)
    (haccepts : ∀ id ∈ ids, p.Stored id ∧ Evaluator.evaluateIdAny p id xs = .ok true) :
    min ids.length maxEstimate ≤ (reckonAll p fs).foldr (· + ·) 0 := by
  induction fs generalizing xs ids with
  | nil =>
    cases hxs
    cases ids with
    | nil => exact Nat.min_le_left ..
    | cons id ids => cases (haccepts id (.head _)).2
  | cons f fs ih =>
    obtain ⟨x, hx, hxs⟩ := Except.bind_eq_ok.1 hxs
    obtain ⟨xs, hxs', hxs⟩ := Except.bind_eq_ok.1 hxs
    cases hxs
    obtain ⟨hf, hfs⟩ := List.forall_mem_cons.1 h
    have hfirst := hf x hx (ids.filter (x.accepts p)) (hnodup.filter _) fun id hid => by
      obtain ⟨hid, hx⟩ := List.mem_filter.1 hid
      exact ⟨(haccepts id hid).1, Evaluator.evaluateId_of_accepts hx⟩
    have hothers := ih hfs hxs' (hnodup.filter fun id => !x.accepts p id) fun id hid => by
      obtain ⟨hid, hx⟩ := List.mem_filter.1 hid
      obtain ⟨hstored, hany⟩ := haccepts id hid
      rw [Evaluator.evaluateIdAny] at hany
      obtain ⟨b, hb, hany⟩ := Except.bind_eq_ok.1 hany
      rw [Evaluator.accepts_of_eq hb] at hx
      obtain rfl : b = false := by simpa using hx
      exact ⟨hstored, hany⟩
    have hlength := List.length_eq_length_filter_add (l := ids) (x.accepts p)
    rw [reckonAll, List.foldr_cons]
    omega

theorem bounds_or (h : ∀ f ∈ fs, f.Bounds p) : (or fs k).Bounds p := by
  intro x hx ids hnodup haccepts
  obtain ⟨xs, hxs, hx⟩ := Except.bind_eq_ok.1 hx
  cases hx
  refine Nat.le_min.2 ⟨Nat.min_le_right .., min_length_le_sum h hxs hnodup fun id hid => ?_⟩
  obtain ⟨hstored, hany⟩ := haccepts id hid
  rw [Evaluator.evaluateId] at hany
  exact ⟨hstored, hany⟩

end

mutual

/-- **A filter accepts no more entries than are reckoned for it.** -/
theorem bounds_reckon (hp : p.Valued n) : (f : Filter) → f.Reckoned p → f.Counted p →
    f.FollowsNone → f.Bounds p
  | scope .., _, _, hnone => bounds_scope hnone
  | presence .., _, _, _ => bounds_presence hp
  | comparison .., _, _, _ => bounds_comparison hp
  | substring .., _, _, _ => bounds_substring hp
  | extensible a r v d k, _, hcounted, _ => bounds_extensible hp fun b ha hd => by
    subst ha hd
    exact hcounted b r v k .self
  | and fs k, hreckoned, hcounted, hnone => by
    cases hsort : fs.mergeSort fun x y => x.estimate ≤ y.estimate with
    | nil =>
      obtain rfl : fs = [] := (hsort ▸ fs.mergeSort_perm _).nil_eq.symm
      exact fun _ _ _ _ _ => Nat.min_le_right ..
    | cons f gs =>
      have hmem : f ∈ fs := (SearchCursor.sort_perm hsort).mem_iff.1 (.head _)
      exact bounds_and hsort hreckoned <| bounds_reckonAll hp fs f hmem
        (hreckoned.of_part (.and hmem .self)) (fun a r v n h => hcounted a r v n (.and hsort h))
        (hnone.of_part (.and hmem .self))
  | or fs k, hreckoned, hcounted, hnone => bounds_or fun f hmem =>
    bounds_reckonAll hp fs f hmem (hreckoned.of_part (.or hmem .self))
      (fun a r v n h => hcounted a r v n (.or hmem h)) (hnone.of_part (.or hmem .self))
  | not .., _, _, _ => fun _ _ _ _ _ => Nat.min_le_right ..

theorem bounds_reckonAll (hp : p.Valued n) : (fs : List Filter) → ∀ f ∈ fs, f.Reckoned p →
    f.Counted p → f.FollowsNone → f.Bounds p
  | [] => List.forall_mem_nil _
  | f :: fs => List.forall_mem_cons.2 ⟨bounds_reckon hp f, bounds_reckonAll hp fs⟩

end

end Filter

/-! ## Walks -/

/-- **Estimates are bounds.** The filter is in normal form, follows no aliases below a base and has
been annotated. A walk with the walker of any part of it gives no more elements than the estimate of
the part, if it does not fail, however many steps it makes. This is so unless the candidates come
from an extensible condition that looks at names too, on an attribute with an index, and unless
there are more entries than the greatest estimate, which is the estimate then. -/
theorem Partition.Reachable.walk_le_estimate (hp : p.Reachable) {g f h : Filter}
    (hf : g.normalize p.schema = .ok f) (hnone : f.FollowsNone) (hpart : h.Part (f.annotate p))
    (hcounted : h.Counted p) {w w' : Walker h.depth} (hw : Walker.ofFilter p h = .ok w) {m : Nat}
    {es : List (Element SearchKey)} (hwalk : (Walker.navigation p h.depth).elements
      (Walker.navigation p h.depth).next m w = .ok es w') :
    ∃ n, h.estimate? = some n ∧ (es.length ≤ n ∨ n = maxEstimate ∧ maxEstimate < p.count) := by
  obtain ⟨k, hvalued⟩ := hp.valued
  obtain ⟨_, _, hreached⟩ := hp
  have hbare := Filter.bare_annotate p f
  have hnormal := (Filter.normalize_isNormal hf hbare).of_part hpart
  have hnone := (hnone.of_bare hbare).of_part hpart
  have hreckoned := (Filter.annotate_reckoned p f).of_part hpart
  obtain ⟨x, hx, hnodup, haccepts⟩ :=
    Walker.elements_accepted hvalued hreached.arranged hnormal hnone hw hwalk
  have hbounds := Filter.bounds_reckon hvalued h hreckoned hcounted hnone x hx _ hnodup haccepts
  have hcount := Partition.length_le_count hnodup fun id hid => (haccepts id hid).1
  have hle := Filter.reckon_le p h
  rw [List.length_map] at hbounds hcount
  refine ⟨h.reckon p, hreckoned h .self, ?_⟩
  omega

/-! ### Estimates of two conditions, and one that is too small -/

namespace Sample

/-- The suffix and a unit, and an index of the attribute that names the suffix. -/
def namedWrites : List Write := [.add (.ofName suffix), .add (.ofName (unit "A")), .addIndex "dc"]

/-- Whatever has the value, also in its name. -/
def named : Filter := .extensible (some ⟨"dc"⟩) none (.text "example") true none

theorem namedWrites_reachedBy : (after namedWrites).ReachedBy .standard namedWrites :=
  after_reachedBy namedWrites (by decide)

theorem named_normal : named.normalize (after namedWrites).schema = .ok named := rfl

theorem named_followsNone : named.FollowsNone := by
  intro b s m n h
  cases h

theorem exists_walk (p : Partition) (f : Filter) (ids : List EntryId)
    (h : (Walker.ofFilter p f).toOption.any (fun w =>
      match (Walker.navigation p f.depth).walk w with
      | .ok es _ => es.map Element.id == ids
      | .error _ _ => false) = true) :
    ∃ w es w', Walker.ofFilter p f = .ok w ∧
      (Walker.navigation p f.depth).walk w = .ok es w' ∧ es.map Element.id = ids := by
  obtain ⟨w, hw, h⟩ := (Option.any_eq_true _ _).1 h
  split at h
  · rename_i es w' hwalk
    exact ⟨w, es, w', Except.toOption_eq_some.1 hw, hwalk, eq_of_beq h⟩
  · cases h

end Sample

/-- One entry is of the one class and two are of the other; the walk gives the two entries. -/
theorem Partition.walk_le_estimate_sample : ∃ w es w',
    Walker.ofFilter (Sample.after Sample.unitWrites)
      (Sample.branches.annotate (Sample.after Sample.unitWrites)) = .ok w ∧
    (Walker.navigation (Sample.after Sample.unitWrites) _).walk w = .ok es w' ∧
    es.map Element.id = [2, 3] ∧
    ∃ n, (Sample.branches.annotate (Sample.after Sample.unitWrites)).estimate? = some n ∧
      es.length ≤ n ∧ n = 3 := by
  obtain ⟨w, es, w', hw, hwalk, hids⟩ := Sample.exists_walk (Sample.after Sample.unitWrites)
    (Sample.branches.annotate (Sample.after Sample.unitWrites)) [2, 3] (by decide +kernel)
  have hestimate : (Sample.branches.annotate (Sample.after Sample.unitWrites)).estimate? = some 3 :=
    by decide +kernel
  obtain ⟨n, hn, hle⟩ := Reachable.walk_le_estimate ⟨_, _, Sample.unitWrites_reachedBy⟩
    Sample.branches_normal Sample.branches_followsNone .self
    (fun a r v n h => by
      cases h with
      | or hf h => rcases List.mem_pair.1 hf with rfl | rfl <;> cases h) hw hwalk
  obtain rfl : 3 = n := Option.some.inj (hestimate.symm.trans hn)
  refine ⟨w, es, w', hw, hwalk, hids, 3, hn, hle.resolve_right fun h => ?_, rfl⟩
  exact absurd h.1 (by decide)

/-- One entry has a value of the attribute, but both have one in their names. -/
theorem Partition.short_estimate_sample : ∃ w es w',
    (Sample.after Sample.namedWrites).Reachable ∧
    Sample.named.normalize (Sample.after Sample.namedWrites).schema = .ok Sample.named ∧
    Sample.named.FollowsNone ∧
    Walker.ofFilter (Sample.after Sample.namedWrites)
      (Sample.named.annotate (Sample.after Sample.namedWrites)) = .ok w ∧
    (Walker.navigation (Sample.after Sample.namedWrites) _).walk w = .ok es w' ∧
    es.map Element.id = [1, 2] ∧
    (Sample.named.annotate (Sample.after Sample.namedWrites)).estimate? = some 1 := by
  obtain ⟨w, es, w', hw, hwalk, hids⟩ := Sample.exists_walk (Sample.after Sample.namedWrites)
    (Sample.named.annotate (Sample.after Sample.namedWrites)) [1, 2] (by decide +kernel)
  exact ⟨w, es, w', ⟨_, _, Sample.namedWrites_reachedBy⟩, Sample.named_normal,
    Sample.named_followsNone, hw, hwalk, hids, by decide +kernel⟩

end Directory
