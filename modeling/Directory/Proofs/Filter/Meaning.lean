import Directory.Proofs.Filter.Parts
import Directory.Proofs.Partition.Tree
import Directory.Proofs.Search.Evaluator

/-!
# The meaning of filters

* `Pieces.Matches`: a value has pieces, with gaps of any kind between them; `Pieces.fits_iff`: the
  search for the first place of each finds them.
* `Partition.InScope`: an entry lies in a scope, by the parents that the entries hold.
* `Filter.Holds`: an entry satisfies a filter, by its own values.
* `Evaluator.evaluateEntry_spec`: **the test on a stored record tells whether the entry satisfies
  the filter**.
-/

namespace Directory

/-! ## Pieces -/

namespace Pieces

/-- The text has the inner pieces in order and without overlap, and ends with the final one behind
them. -/
def InOrder (final : List Char) : (inner : List (List Char)) → List Char → Prop
  | [], cs => final <:+ cs
  | piece :: inner, cs => ∃ gap rest, cs = gap ++ (piece ++ rest) ∧ InOrder final inner rest

/-- The text of the value starts with the initial piece, and has the others in order behind it. -/
def Matches (p : Pieces) (v : Value) : Prop :=
  ∃ rest, v.display.toList = (p.initial.getD "").toList ++ rest ∧
    InOrder (p.final.getD "").toList (p.inner.map String.toList) rest

theorem afterInitial?_eq_some {piece cs rest : List Char} :
    afterInitial? piece cs = some rest ↔ cs = piece ++ rest := by
  rw [afterInitial?, Option.ite_none_right_eq_some, List.isPrefixOf_iff_prefix]
  constructor
  · rintro ⟨⟨t, rfl⟩, h⟩
    cases h
    rw [List.drop_left]
  · rintro rfl
    exact ⟨List.prefix_append _ _, by rw [List.drop_left]⟩

/-- At an occurrence of the piece the first occurrence is found, unless it was before. -/
theorem afterFirst?_eq {piece cs rest : List Char} (h : cs = piece ++ rest) :
    afterFirst? piece cs = some rest := by
  have h := afterInitial?_eq_some.2 h
  cases cs with
  | nil => exact h
  | cons c cs => rw [afterFirst?, h]

theorem exists_gap {piece cs rest : List Char} (h : afterFirst? piece cs = some rest) :
    ∃ gap, cs = gap ++ (piece ++ rest) := by
  induction cs with
  | nil =>
    have hcs := afterInitial?_eq_some.1 h
    exact ⟨[], hcs⟩
  | cons c cs ih =>
    rw [afterFirst?] at h
    cases hinitial : afterInitial? piece (c :: cs) with
    | some rest' =>
      rw [hinitial] at h
      cases h
      have hcs := afterInitial?_eq_some.1 hinitial
      exact ⟨[], hcs⟩
    | none =>
      rw [hinitial] at h
      obtain ⟨gap, rfl⟩ := ih h
      exact ⟨c :: gap, rfl⟩

theorem afterFirst?_suffix (piece gap rest : List Char) :
    ∃ most, afterFirst? piece (gap ++ (piece ++ rest)) = some most ∧ rest <:+ most := by
  induction gap with
  | nil => exact ⟨rest, afterFirst?_eq rfl, List.suffix_refl rest⟩
  | cons c gap ih =>
    rw [List.cons_append, afterFirst?]
    cases hinitial : afterInitial? piece (c :: (gap ++ (piece ++ rest))) with
    | none => exact ih
    | some most =>
      refine ⟨most, rfl, ?_⟩
      have hmost := afterInitial?_eq_some.1 hinitial
      have hlength := congrArg List.length hmost
      simp only [List.length_cons, List.length_append] at hlength
      have hrest : rest <:+ c :: (gap ++ (piece ++ rest)) :=
        ⟨c :: (gap ++ piece), by rw [List.cons_append, List.append_assoc]⟩
      exact List.suffix_of_suffix_length_le hrest ⟨piece, hmost.symm⟩ (by omega)

theorem InOrder.of_suffix {final : List Char} {inner : List (List Char)} {cs ds : List Char}
    (h : InOrder final inner cs) (hsuffix : cs <:+ ds) : InOrder final inner ds := by
  cases inner with
  | nil => exact h.trans hsuffix
  | cons piece inner =>
    obtain ⟨gap, rest, rfl, h⟩ := h
    obtain ⟨t, rfl⟩ := hsuffix
    exact ⟨t ++ gap, rest, by rw [List.append_assoc], h⟩

/-- To look for the first place of each piece is enough. -/
theorem fitsRest_iff {final : List Char} {inner : List (List Char)} {cs : List Char} :
    fitsRest final inner cs = true ↔ InOrder final inner cs := by
  induction inner generalizing cs with
  | nil => exact List.isSuffixOf_iff_suffix
  | cons piece inner ih =>
    rw [fitsRest]
    constructor
    · intro h
      split at h
      · rename_i rest hrest
        obtain ⟨gap, hgap⟩ := exists_gap hrest
        exact ⟨gap, rest, hgap, ih.1 h⟩
      · cases h
    · rintro ⟨gap, rest, rfl, h⟩
      obtain ⟨most, hmost, hsuffix⟩ := afterFirst?_suffix piece gap rest
      rw [hmost]
      exact ih.2 (h.of_suffix hsuffix)

theorem fits_iff {p : Pieces} {v : Value} : p.fits v = true ↔ p.Matches v := by
  unfold fits fitsChars
  constructor
  · intro h
    split at h
    · rename_i rest hrest
      exact ⟨rest, afterInitial?_eq_some.1 hrest, fitsRest_iff.1 h⟩
    · cases h
  · rintro ⟨rest, hrest, h⟩
    rw [afterInitial?_eq_some.2 hrest]
    exact fitsRest_iff.2 h

end Pieces

/-! ## Scopes -/

namespace Partition

variable {p : Partition} {n : Nat} {id base : EntryId} {e : Entry}

/-- The entry lies in the scope, by the parents that the entries hold. -/
def InScope (p : Partition) (base : EntryId) : SearchScope → EntryId → Prop
  | .base, id => id = base
  | .oneLevel, id => p.HasParent id base
  | .subtree, id => p.Above base id

theorem inScope_iff (hp : p.Arranged) (hid : p.Stored id) {s : SearchScope} {follow : Bool}
    (hfollow : s ≠ .base → follow = false) :
    p.inScope base s follow id = true ↔ p.InScope base s id := by
  cases s with
  | base => exact beq_iff_eq
  | oneLevel =>
    obtain rfl := hfollow nofun
    simp only [inScope, Bool.false_and, Bool.or_false, Bool.not_false, Bool.true_and]
    exact Index.has_iff.trans (hp.oneLevel base id)
  | subtree =>
    obtain rfl := hfollow nofun
    simp only [inScope, Bool.false_and, Bool.or_false, Bool.not_false, Bool.true_and]
    exact Index.has_iff.trans ((hp.subLevel base id).trans (and_iff_right hid))

end Partition

/-! ## Extensible conditions -/

/-- A value that an extensible condition looks at: one of the entry or, on demand, one in its
name. -/
def Entry.Offers (e : Entry) (a : Option AttributeId) (inName : Bool) (b : AttributeId)
    (v : Value) : Prop :=
  (∀ c, a = some c → b = c) ∧
    (v ∈ e.valuesOf b ∨ (inName = true ∧ ∃ r ∈ e.name.rdns, r.type = b ∧ v = .text r.value))

namespace Evaluator

theorem mem_heldValues {e : Entry} {wanted : AttributeId → Bool} {b : AttributeId} {v : Value} :
    (b, v) ∈ (e.attributes.toList.filter fun x => wanted x.1).flatMap (fun x => x.2.map (x.1, ·)) ↔
      wanted b = true ∧ v ∈ e.valuesOf b := by
  rw [List.mem_flatMap, Entry.valuesOf, SortedMap.getD]
  constructor
  · rintro ⟨⟨b', vs⟩, hx, hv⟩
    obtain ⟨hx, hb⟩ := List.mem_filter.1 hx
    obtain ⟨v', hv, e⟩ := List.mem_map.1 hv
    cases e
    rw [SortedMap.get?_eq_some_iff.2 hx]
    exact ⟨hb, hv⟩
  · rintro ⟨hb, hv⟩
    cases hvs : e.attributes.get? b with
    | none =>
      rw [hvs] at hv
      cases hv
    | some vs =>
      rw [hvs] at hv
      exact ⟨(b, vs), List.mem_filter.2 ⟨SortedMap.get?_eq_some_iff.1 hvs, hb⟩,
        List.mem_map_of_mem hv⟩

theorem mem_namedValues {e : Entry} {wanted : AttributeId → Bool} {b : AttributeId} {v : Value} :
    (b, v) ∈ (e.name.rdns.filter fun r => wanted r.type).map
        (fun r => (r.type, Value.text r.value)) ↔
      wanted b = true ∧ ∃ r ∈ e.name.rdns, r.type = b ∧ v = .text r.value := by
  rw [List.mem_map]
  constructor
  · rintro ⟨r, hr, e⟩
    cases e
    obtain ⟨hr, hb⟩ := List.mem_filter.1 hr
    exact ⟨hb, r, hr, rfl, rfl⟩
  · rintro ⟨hb, r, hr, rfl, rfl⟩
    exact ⟨r, List.mem_filter.2 ⟨hr, hb⟩, rfl⟩

theorem mem_extensibleValues {e : Entry} {a : Option AttributeId} {inName : Bool}
    {b : AttributeId} {v : Value} :
    (b, v) ∈ extensibleValues e a inName ↔ e.Offers a inName b v := by
  have hwanted : a.all (· == b) = true ↔ ∀ c, a = some c → b = c := by
    rw [Option.all_eq_true]
    exact forall₂_congr fun c _ => beq_iff_eq.trans eq_comm
  have hheld := @mem_heldValues e (fun c => a.all (· == c)) b v
  have hnamed := @mem_namedValues e (fun c => a.all (· == c)) b v
  unfold extensibleValues Entry.Offers
  cases inName with
  | true =>
    rw [if_pos rfl, List.mem_append, hheld, hnamed, ← hwanted]
    simp only [true_and]
    exact and_or_left.symm
  | false =>
    rw [if_neg Bool.false_ne_true, hheld, ← hwanted]
    simp only [Bool.false_eq_true, false_and, or_false]

theorem anyExtensible_spec {p : Partition} {r : String} (hr : p.schema.supportsRule r = true)
    (v : Value) (xs : List (AttributeId × Value)) : ∃ b, anyExtensible p (some r) v xs = .ok b ∧
      (b = true ↔ ∃ x ∈ xs, p.schema.extensibleMatch x.1 (some r) v x.2 = .ok true) := by
  obtain ⟨rule, hrule⟩ := Option.isSome_iff_exists.1 hr
  have hmatch : ∀ a w, p.schema.extensibleMatch a (some r) v w = .ok (rule.applies a v w) := by
    intro a w
    rw [Schema.extensibleMatch, hrule]
  induction xs with
  | nil => exact ⟨false, rfl, iff_of_false Bool.false_ne_true fun ⟨_, h, _⟩ => nomatch h⟩
  | cons x xs ih =>
    obtain ⟨b, hb, hiff⟩ := ih
    rw [anyExtensible, hmatch]
    cases hx : rule.applies x.1 v x.2 with
    | true =>
      exact ⟨true, rfl, iff_of_true rfl ⟨x, .head _, by rw [hmatch, hx]⟩⟩
    | false =>
      refine ⟨b, hb, hiff.trans ?_⟩
      simp [hmatch, hx]

end Evaluator

/-! ## Filters -/

namespace Filter

mutual

/-- The entry satisfies the filter, by its own values and by its place in the tree. -/
def Holds (p : Partition) (e : Entry) : Filter → Prop
  | scope b s _ _ => p.InScope b s e.id
  | presence a _ => e.valuesOf a ≠ []
  | comparison op a v _ => ∃ k, p.IsForm a (e.valuesOf a) k ∧ op.holds v k = true
  | substring a ps _ => ∃ k, p.IsForm a (e.valuesOf a) k ∧ ps.Matches k
  | extensible a r v d _ =>
    ∃ b w, e.Offers a d b w ∧ p.schema.extensibleMatch b r v w = .ok true
  | and fs _ => HoldAll p e fs
  | or fs _ => HoldAny p e fs
  | not f _ => ¬f.Holds p e

/-- The entry satisfies all filters. -/
def HoldAll (p : Partition) (e : Entry) : List Filter → Prop
  | [] => True
  | f :: fs => f.Holds p e ∧ HoldAll p e fs

/-- The entry satisfies some of the filters. -/
def HoldAny (p : Partition) (e : Entry) : List Filter → Prop
  | [] => False
  | f :: fs => f.Holds p e ∨ HoldAny p e fs

end

end Filter

namespace Evaluator

variable {p : Partition} {n : Nat} {id : EntryId} {e : Entry}

mutual

/-- **The test on a stored record** tells whether the entry satisfies the filter. -/
theorem evaluateEntry_spec (hp : p.Valued n) (ht : p.Arranged) (he : p.get? id = some e) :
    (f : Filter) → f.Ruled → {x : Evaluator} → ofFilter p f = .ok x →
      ∃ b, x.evaluateEntry p e = .ok b ∧ (f.FollowsNone → (b = true ↔ f.Holds p e))
  | .scope b s m k, _, x, h => by
    cases h
    have hstored : p.Stored e.id := ⟨e, by rw [hp.own id e he]; exact he⟩
    exact ⟨_, rfl, fun hnone => Partition.inScope_iff ht hstored (hnone b s m k .self)⟩
  | .presence a _, _, x, h => by
    cases h
    exact ⟨_, rfl, fun _ => Partition.has_iff⟩
  | .comparison op a v _, _, x, h => by
    obtain ⟨c, _, h⟩ := Except.bind_eq_ok.1 h
    cases h
    obtain ⟨b, hb, hiff⟩ := Partition.anyValue_eq (p := p) (a := a) (e := e)
      (fun v hv => hp.normal id a v (Partition.valuesOf_some he ▸ hv)) (op.holds v)
    exact ⟨b, hb, fun _ => hiff⟩
  | .substring a ps _, _, x, h => by
    cases h
    obtain ⟨b, hb, hiff⟩ := Partition.anyValue_eq (p := p) (a := a) (e := e)
      (fun v hv => hp.normal id a v (Partition.valuesOf_some he ▸ hv)) ps.fits
    refine ⟨b, hb, fun _ => hiff.trans ?_⟩
    simp only [Pieces.fits_iff]
    rfl
  | .extensible a none v d k, hruled, _, _ => absurd Filter.Part.self (hruled a v d k)
  | .extensible a (some r) v d _, _, x, h => by
    rw [ofFilter] at h
    split at h
    · cases h
      obtain ⟨b, hb, hiff⟩ := anyExtensible_spec (p := p) ‹_› v (extensibleValues e a d)
      refine ⟨b, hb, fun _ => hiff.trans ?_⟩
      simp only [Prod.exists, mem_extensibleValues]
      rfl
    · cases h
  | .and fs k, hruled, x, h => by
    obtain ⟨xs, hxs, h⟩ := Except.bind_eq_ok.1 h
    cases h
    obtain ⟨⟨b, hb, hiff⟩, _⟩ := evaluateEntryAll_spec hp ht he fs
      (fun f hf a v d m h => hruled a v d m (.and hf h)) hxs
    exact ⟨b, hb, fun hnone => hiff fun f hf b s m n h => hnone b s m n (.and hf h)⟩
  | .or fs k, hruled, x, h => by
    obtain ⟨xs, hxs, h⟩ := Except.bind_eq_ok.1 h
    cases h
    obtain ⟨_, b, hb, hiff⟩ := evaluateEntryAll_spec hp ht he fs
      (fun f hf a v d m h => hruled a v d m (.or hf h)) hxs
    exact ⟨b, hb, fun hnone => hiff fun f hf b s m n h => hnone b s m n (.or hf h)⟩
  | .not f k, hruled, x, h => by
    obtain ⟨y, hy, h⟩ := Except.bind_eq_ok.1 h
    cases h
    obtain ⟨b, hb, hiff⟩ := evaluateEntry_spec hp ht he f
      (fun a v d m h => hruled a v d m (.not h)) hy
    refine ⟨!b, by rw [evaluateEntry, hb]; rfl, fun hnone => ?_⟩
    rw [Filter.Holds, ← hiff fun b s m n h => hnone b s m n (.not h)]
    cases b <;> simp

theorem evaluateEntryAll_spec (hp : p.Valued n) (ht : p.Arranged) (he : p.get? id = some e) :
    (fs : List Filter) → (∀ f ∈ fs, f.Ruled) → {xs : List Evaluator} → ofFilters p fs = .ok xs →
      (∃ b, evaluateEntryAll p e xs = .ok b ∧
        ((∀ f ∈ fs, f.FollowsNone) → (b = true ↔ Filter.HoldAll p e fs))) ∧
      ∃ b, evaluateEntryAny p e xs = .ok b ∧
        ((∀ f ∈ fs, f.FollowsNone) → (b = true ↔ Filter.HoldAny p e fs))
  | [], _, xs, h => by
    cases h
    exact ⟨⟨true, rfl, fun _ => iff_of_true rfl trivial⟩,
      false, rfl, fun _ => iff_of_false Bool.false_ne_true not_false⟩
  | f :: fs, hruled, xs, h => by
    obtain ⟨y, hy, h⟩ := Except.bind_eq_ok.1 h
    obtain ⟨ys, hys, h⟩ := Except.bind_eq_ok.1 h
    cases h
    obtain ⟨b, hb, hiff⟩ := evaluateEntry_spec hp ht he f (hruled f (.head _)) hy
    obtain ⟨⟨c, hc, hall⟩, d, hd, hany⟩ := evaluateEntryAll_spec hp ht he fs
      (fun f hf => hruled f (.tail _ hf)) hys
    rw [evaluateEntryAll, evaluateEntryAny, hb, hc, hd]
    constructor
    · refine ⟨b && c, by cases b <;> rfl, fun hnone => ?_⟩
      rw [Bool.and_eq_true, hiff (hnone f (.head _)), hall fun f hf => hnone f (.tail _ hf)]
      rfl
    · refine ⟨b || d, by cases b <;> rfl, fun hnone => ?_⟩
      rw [Bool.or_eq_true, hiff (hnone f (.head _)), hany fun f hf => hnone f (.tail _ hf)]
      rfl

end

end Evaluator

end Directory
