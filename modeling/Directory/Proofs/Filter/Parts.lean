import Directory.Proofs.Search.Stem
import Directory.Search.Estimate

/-!
# Parts of filters

* `Filter.Part`: a node of a filter, with all that is below it.
* `Filter.bare`: the filter without estimates. `Part.bare`, `exists_part_of_bare`: its parts are
  those of the filter, without estimates; `bare_annotate`: the estimates are all that is added.
* `exists_part_of_normalize`: the parts of a normal form are the normal forms of the parts.
* `Filter.IsNormal`: all pieces in the filter are in normal form, as `normalize` makes them.
* `Filter.FollowsNone`, `Filter.NoScope`, `Filter.Ruled`: the filter has no scope that follows
  aliases below its base, no scope at all, no extensible condition without a rule.
-/

namespace Directory

namespace Filter

/-! ## Parts -/

/-- The filter `g` is a node of another one, with all that is below it. -/
inductive Part (g : Filter) : Filter → Prop
  | self : Part g g
  | and {f : Filter} {fs : List Filter} {n : Option Nat} (hf : f ∈ fs) (h : Part g f) :
      Part g (.and fs n)
  | or {f : Filter} {fs : List Filter} {n : Option Nat} (hf : f ∈ fs) (h : Part g f) :
      Part g (.or fs n)
  | not {f : Filter} {n : Option Nat} (h : Part g f) : Part g (.not f n)

theorem Part.trans {f g h : Filter} (hg : Part h g) (hf : Part g f) : Part h f := by
  induction hf with
  | self => exact hg
  | and hmem _ ih => exact .and hmem ih
  | or hmem _ ih => exact .or hmem ih
  | not _ ih => exact .not ih

theorem part_and {g : Filter} {fs : List Filter} {n : Option Nat} :
    Part g (.and fs n) ↔ g = .and fs n ∨ ∃ f ∈ fs, Part g f := by
  constructor
  · intro h
    cases h with
    | self => exact .inl rfl
    | and hf h => exact .inr ⟨_, hf, h⟩
  · rintro (rfl | ⟨f, hf, h⟩)
    · exact .self
    · exact .and hf h

/-- All pieces in the filter are in normal form. -/
def IsNormal (s : Schema) (f : Filter) : Prop :=
  ∀ a p n, Part (.substring a p n) f → p.IsNormal s a

/-- Only scopes of the base alone may follow aliases. -/
def FollowsNone (f : Filter) : Prop :=
  ∀ b s m n, Part (.scope b s m n) f → s ≠ .base → m.followsBelow = false

/-- No part is a scope. -/
def NoScope (f : Filter) : Prop := ∀ b s m n, ¬Part (.scope b s m n) f

/-- Extensible conditions name a rule. -/
def Ruled (f : Filter) : Prop := ∀ a v d n, ¬Part (.extensible a none v d n) f

theorem IsNormal.of_part {s : Schema} {f g : Filter} (h : f.IsNormal s) (hpart : Part g f) :
    g.IsNormal s := fun a p n h' => h a p n (h'.trans hpart)

theorem FollowsNone.of_part {f g : Filter} (h : f.FollowsNone) (hpart : Part g f) :
    g.FollowsNone := fun b s m n h' => h b s m n (h'.trans hpart)

theorem Ruled.of_part {f g : Filter} (h : f.Ruled) (hpart : Part g f) : g.Ruled :=
  fun a v d n h' => h a v d n (h'.trans hpart)

/-! ## Estimates -/

mutual

/-- The filter without estimates. -/
def bare : Filter → Filter
  | scope b s m _ => scope b s m none
  | presence a _ => presence a none
  | comparison op a v _ => comparison op a v none
  | substring a p _ => substring a p none
  | extensible a r v d _ => extensible a r v d none
  | and fs _ => and (bareAll fs) none
  | or fs _ => or (bareAll fs) none
  | not f _ => not f.bare none

/-- The filters without estimates. -/
def bareAll : List Filter → List Filter
  | [] => []
  | f :: fs => f.bare :: bareAll fs

end

theorem bareAll_eq_map (fs : List Filter) : bareAll fs = fs.map bare := by
  induction fs with
  | nil => rfl
  | cons f fs ih => rw [bareAll, ih, List.map_cons]

theorem bare_setEstimate (f : Filter) (n : Option Nat) : (f.setEstimate n).bare = f.bare := by
  cases f <;> rfl

theorem bare_withEstimate (f : Filter) (n : Nat) : (f.withEstimate n).bare = f.bare :=
  bare_setEstimate f _

mutual

/-- An annotated filter differs in its estimates alone. -/
theorem bare_annotate (p : Partition) : (f : Filter) → (f.annotate p).bare = f.bare
  | scope .. | presence .. | comparison .. | substring .. | extensible .. => bare_withEstimate _ _
  | and fs n => (bare_withEstimate _ _).trans (by rw [bare, bare, bareAll_annotateAll p fs])
  | or fs n => (bare_withEstimate _ _).trans (by rw [bare, bare, bareAll_annotateAll p fs])
  | not f n => (bare_withEstimate _ _).trans (by rw [bare, bare, bare_annotate p f])

theorem bareAll_annotateAll (p : Partition) :
    (fs : List Filter) → bareAll (annotateAll p fs) = bareAll fs
  | [] => rfl
  | f :: fs => by rw [annotateAll, bareAll, bareAll, bare_annotate p f, bareAll_annotateAll p fs]

end

theorem Part.bare {g f : Filter} (h : Part g f) : Part g.bare f.bare := by
  induction h with
  | self => exact .self
  | and hf _ ih =>
    rw [Filter.bare, bareAll_eq_map]
    exact .and (List.mem_map_of_mem hf) ih
  | or hf _ ih =>
    rw [Filter.bare, bareAll_eq_map]
    exact .or (List.mem_map_of_mem hf) ih
  | not _ ih => exact .not ih

mutual

/-- The parts of a filter without estimates are parts of the filter. -/
theorem exists_part_of_bare {h : Filter} : (f : Filter) → Part h f.bare → ∃ g, Part g f ∧ g.bare = h
  | scope .., hpart | presence .., hpart | comparison .., hpart | substring .., hpart
  | extensible .., hpart => by
    rw [bare] at hpart
    cases hpart
    exact ⟨_, .self, rfl⟩
  | and fs n, hpart => by
    rw [bare] at hpart
    cases hpart with
    | self => exact ⟨_, .self, by rw [bare]⟩
    | and hf hpart =>
      obtain ⟨_, hf, g, hg, e⟩ := exists_part_of_bareAll fs hf hpart
      exact ⟨g, .and hf hg, e⟩
  | or fs n, hpart => by
    rw [bare] at hpart
    cases hpart with
    | self => exact ⟨_, .self, by rw [bare]⟩
    | or hf hpart =>
      obtain ⟨_, hf, g, hg, e⟩ := exists_part_of_bareAll fs hf hpart
      exact ⟨g, .or hf hg, e⟩
  | not f n, hpart => by
    rw [bare] at hpart
    cases hpart with
    | self => exact ⟨_, .self, by rw [bare]⟩
    | not hpart =>
      obtain ⟨g, hg, e⟩ := exists_part_of_bare f hpart
      exact ⟨g, .not hg, e⟩

theorem exists_part_of_bareAll {h : Filter} : (fs : List Filter) → {b : Filter} → b ∈ bareAll fs →
    Part h b → ∃ f ∈ fs, ∃ g, Part g f ∧ g.bare = h
  | f :: fs, _, hb, hpart => by
    rw [bareAll] at hb
    rcases List.mem_cons.1 hb with rfl | hb
    · obtain ⟨g, hg, e⟩ := exists_part_of_bare f hpart
      exact ⟨f, .head _, g, hg, e⟩
    · obtain ⟨f, hf, g, hg, e⟩ := exists_part_of_bareAll fs hb hpart
      exact ⟨f, .tail _ hf, g, hg, e⟩

end

/-- Filters that differ in their estimates alone have the same parts, up to estimates. -/
theorem exists_part_of_eq_bare {h f f' : Filter} (hpart : Part h f') (hbare : f'.bare = f.bare) :
    ∃ g, Part g f ∧ g.bare = h.bare :=
  exists_part_of_bare f (hbare ▸ hpart.bare)

/-! ## Normal forms -/

section

variable {s : Schema}

mutual

/-- The parts of a normal form are the normal forms of the parts. -/
theorem exists_part_of_normalize {h : Filter} : (g : Filter) → {f : Filter} →
    g.normalize s = .ok f → Part h f → ∃ g', Part g' g ∧ g'.normalize s = .ok h
  | scope .., _, hf, hpart | presence .., _, hf, hpart | extensible .., _, hf, hpart => by
    cases hf
    cases hpart
    exact ⟨_, .self, rfl⟩
  | comparison op a v n, f, hf, hpart => by
    obtain ⟨w, hw, h⟩ := Except.bind_eq_ok.1 hf
    cases h
    cases hpart
    exact ⟨_, .self, hf⟩
  | substring a p n, f, hf, hpart => by
    obtain ⟨q, hq, h⟩ := Except.bind_eq_ok.1 hf
    cases h
    cases hpart
    exact ⟨_, .self, hf⟩
  | and gs n, f, hf, hpart => by
    obtain ⟨fs, hfs, h⟩ := Except.bind_eq_ok.1 hf
    cases h
    cases hpart with
    | self => exact ⟨_, .self, hf⟩
    | and hmem hpart =>
      obtain ⟨g, hg, g', hg', h⟩ := exists_part_of_normalizeAll gs hfs hmem hpart
      exact ⟨g', .and hg hg', h⟩
  | or gs n, f, hf, hpart => by
    obtain ⟨fs, hfs, h⟩ := Except.bind_eq_ok.1 hf
    cases h
    cases hpart with
    | self => exact ⟨_, .self, hf⟩
    | or hmem hpart =>
      obtain ⟨g, hg, g', hg', h⟩ := exists_part_of_normalizeAll gs hfs hmem hpart
      exact ⟨g', .or hg hg', h⟩
  | not g n, f, hf, hpart => by
    obtain ⟨f', hf', h⟩ := Except.bind_eq_ok.1 hf
    cases h
    cases hpart with
    | self => exact ⟨_, .self, hf⟩
    | not hpart =>
      obtain ⟨g', hg', h⟩ := exists_part_of_normalize g hf' hpart
      exact ⟨g', .not hg', h⟩

theorem exists_part_of_normalizeAll {h : Filter} : (gs : List Filter) → {fs : List Filter} →
    normalizeAll s gs = .ok fs → {f : Filter} → f ∈ fs → Part h f →
      ∃ g ∈ gs, ∃ g', Part g' g ∧ g'.normalize s = .ok h
  | [], _, hfs, _, hmem, _ => by
    cases hfs
    cases hmem
  | g :: gs, _, hfs, _, hmem, hpart => by
    obtain ⟨f', hf', h⟩ := Except.bind_eq_ok.1 hfs
    obtain ⟨fs', hfs', h⟩ := Except.bind_eq_ok.1 h
    cases h
    rcases List.mem_cons.1 hmem with rfl | hmem
    · obtain ⟨g', hg', h⟩ := exists_part_of_normalize g hf' hpart
      exact ⟨g, .head _, g', hg', h⟩
    · obtain ⟨g, hg, g', hg', h⟩ := exists_part_of_normalizeAll gs hfs' hmem hpart
      exact ⟨g, .tail _ hg, g', hg', h⟩

end

theorem eq_substring_of_normalize {g : Filter} {a : AttributeId} {q : Pieces} {n : Option Nat}
    (h : g.normalize s = .ok (.substring a q n)) :
    ∃ p, g = .substring a p n ∧ p.normalize s a = .ok q := by
  cases g with
  | substring a p n =>
    obtain ⟨q, hq, h⟩ := Except.bind_eq_ok.1 h
    cases h
    exact ⟨p, rfl, hq⟩
  | scope | presence | extensible => cases h
  | comparison | and | or | not =>
    obtain ⟨_, _, h⟩ := Except.bind_eq_ok.1 h
    cases h

theorem eq_scope_of_normalize {g : Filter} {b : EntryId} {c : SearchScope} {m : AliasMode}
    {n : Option Nat} (h : g.normalize s = .ok (.scope b c m n)) : g = .scope b c m n := by
  cases g with
  | scope =>
    cases h
    rfl
  | presence | extensible => cases h
  | comparison | substring | and | or | not =>
    obtain ⟨_, _, h⟩ := Except.bind_eq_ok.1 h
    cases h

theorem eq_extensible_of_normalize {g : Filter} {a : Option AttributeId} {r : Option String}
    {v : Value} {d : Bool} {n : Option Nat} (h : g.normalize s = .ok (.extensible a r v d n)) :
    g = .extensible a r v d n := by
  cases g with
  | extensible =>
    cases h
    rfl
  | scope | presence => cases h
  | comparison | substring | and | or | not =>
    obtain ⟨_, _, h⟩ := Except.bind_eq_ok.1 h
    cases h

theorem normalize_isNormal {g f f' : Filter} (hf : g.normalize s = .ok f)
    (hbare : f'.bare = f.bare) :
    f'.IsNormal s := by
  intro a p n hpart
  obtain ⟨h, hpart, e⟩ := exists_part_of_eq_bare hpart hbare
  cases h with
  | substring _ _ m =>
    cases e
    obtain ⟨g', _, hg'⟩ := exists_part_of_normalize g hf hpart
    obtain ⟨q, _, hq⟩ := eq_substring_of_normalize hg'
    exact Pieces.normalize_isNormal hq
  | _ => cases e

/-! ## Filters without some kinds of conditions -/

theorem NoScope.followsNone {f : Filter} (h : f.NoScope) : f.FollowsNone :=
  fun b c m n hpart => absurd hpart (h b c m n)

theorem FollowsNone.of_bare {f f' : Filter} (h : f.FollowsNone) (hbare : f'.bare = f.bare) :
    f'.FollowsNone := by
  intro b c m n hpart
  obtain ⟨g, hpart, e⟩ := exists_part_of_eq_bare hpart hbare
  cases g with
  | scope _ _ _ k =>
    cases e
    exact h b c m k hpart
  | _ => cases e

theorem followsNone_of_normalize {g f f' : Filter} (hf : g.normalize s = .ok f)
    (hbare : f'.bare = f.bare) (hg : g.FollowsNone) : f'.FollowsNone := by
  intro b c m n hpart
  obtain ⟨h, hpart, e⟩ := exists_part_of_eq_bare hpart hbare
  cases h with
  | scope _ _ _ k =>
    cases e
    obtain ⟨g', hg', h⟩ := exists_part_of_normalize g hf hpart
    exact hg b c m k (eq_scope_of_normalize h ▸ hg')
  | _ => cases e

theorem ruled_of_normalize {g f f' : Filter} (hf : g.normalize s = .ok f)
    (hbare : f'.bare = f.bare) (hg : g.Ruled) : f'.Ruled := by
  intro a v d n hpart
  obtain ⟨h, hpart, e⟩ := exists_part_of_eq_bare hpart hbare
  cases h with
  | extensible _ _ _ _ k =>
    cases e
    obtain ⟨g', hg', h⟩ := exists_part_of_normalize g hf hpart
    exact hg a v d k (eq_extensible_of_normalize h ▸ hg')
  | _ => cases e

end

end Filter

end Directory
