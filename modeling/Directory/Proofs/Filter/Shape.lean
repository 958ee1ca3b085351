import Directory.Proofs.Filter.Limits

/-!
# The shape that limits admit

The check counts depth on the way down and stops where the limit is passed; the depth of a filter
is counted on the way up. Everything else that is checked concerns single nodes.

* `Filter.branches`: the filters that a node joins or negates. `branches_induction`, `forall_part`,
  `depth_add_le`: induction, parts and depth, told through them.
* `FilterLimits.Allows`: what the limits ask of a node by itself.
* `FilterLimits.checkAt_branches`, `checkAt_refused`: the check of a node passes, or is refused,
  through the node itself or through its branches one step further down.
* `FilterLimits.check_decides`: **the check passes exactly the filters of no greater depth all of
  whose nodes are allowed**, and it complains about the depth of no other filters.
-/

namespace Directory

namespace Filter

/-! ## Branches -/

/-- The filters that the root joins or negates. -/
def branches : Filter → List Filter
  | .and fs _ | .or fs _ => fs
  | .not f _ => [f]
  | .scope .. | .presence .. | .comparison .. | .substring .. | .extensible .. => []

mutual

/-- Induction over a filter, with all branches of a node at once. -/
theorem branches_induction {P : Filter → Prop} (node : ∀ f, (∀ g ∈ f.branches, P g) → P f) :
    (f : Filter) → P f
  | .scope .. | .presence .. | .comparison .. | .substring .. | .extensible .. =>
    node _ (List.forall_mem_nil _)
  | .and fs n => node (.and fs n) (forall_branches node fs)
  | .or fs n => node (.or fs n) (forall_branches node fs)
  | .not f n => node (.not f n) (List.forall_mem_singleton.2 (branches_induction node f))

theorem forall_branches {P : Filter → Prop} (node : ∀ f, (∀ g ∈ f.branches, P g) → P f) :
    (fs : List Filter) → ∀ f ∈ fs, P f
  | [] => List.forall_mem_nil _
  | f :: fs => List.forall_mem_cons.2 ⟨branches_induction node f, forall_branches node fs⟩

end

variable {f g : Filter} {fs : List Filter}

theorem part_of_branch {h : Filter} (hg : g ∈ f.branches) (hh : Part h g) : Part h f := by
  cases f with
  | and => exact .and hg hh
  | or => exact .or hg hh
  | not => exact .not (List.mem_singleton.1 hg ▸ hh)
  | scope | presence | comparison | substring | extensible => cases hg

/-- A property of all nodes is one of the root and of all nodes of the branches. -/
theorem forall_part {P : Filter → Prop} :
    (∀ g, Part g f → P g) ↔ P f ∧ ∀ g ∈ f.branches, ∀ h, Part h g → P h := by
  constructor
  · exact fun hf => ⟨hf f .self, fun g hg h hh => hf h (part_of_branch hg hh)⟩
  · rintro ⟨hself, hbranches⟩ g hg
    cases hg with
    | self => exact hself
    | and hf hg | or hf hg => exact hbranches _ hf g hg
    | not hg => exact hbranches _ (.head _) g hg

theorem depth_eq (f : Filter) : f.depth = 1 + depthAll f.branches := by
  cases f with
  | not f n => rw [Filter.depth, branches, depthAll, depthAll, Nat.max_zero]
  | _ => rfl

theorem depthAll_le {k : Nat} : depthAll fs ≤ k ↔ ∀ f ∈ fs, f.depth ≤ k := by
  induction fs with
  | nil => exact iff_of_true (Nat.zero_le k) (List.forall_mem_nil _)
  | cons f fs ih => rw [depthAll, Nat.max_le, ih, List.forall_mem_cons]

/-- There is room for a filter where there is room for its root and, one step further down, for each
branch. -/
theorem depth_add_le {depth limit : Nat} : f.depth + depth ≤ limit + 1 ↔
    depth ≤ limit ∧ ∀ g ∈ f.branches, g.depth + (depth + 1) ≤ limit + 1 := by
  rw [depth_eq]
  constructor
  · intro h
    refine ⟨by omega, fun g hg => ?_⟩
    have hg : g.depth ≤ depthAll f.branches := depthAll_le.1 (Nat.le_refl _) g hg
    omega
  · rintro ⟨hroot, hbranches⟩
    have hall : depthAll f.branches ≤ limit - depth := depthAll_le.2 fun g hg => by
      have := hbranches g hg
      omega
    omega

end Filter

namespace FilterLimits

open Directory.Filter

variable {l : FilterLimits} {depth : Nat} {f : Filter} {fs : List Filter} {e : Error}

/-- What the limits ask of a node by itself: how many children it has, or how many pieces at the
start, inside and at the end together, and that an extensible condition names an attribute or a
rule. -/
def Allows (l : FilterLimits) : Filter → Prop
  | .and fs _ | .or fs _ => 1 ≤ fs.length ∧ fs.length ≤ l.children
  | .substring _ p _ =>
    1 ≤ p.initial.toList.length + p.inner.length + p.final.toList.length ∧
      p.initial.toList.length + p.inner.length + p.final.toList.length ≤ l.pieces
  | .extensible a r _ _ _ => a.isSome = true ∨ r.isSome = true
  | .not .. | .scope .. | .presence .. | .comparison .. => True

instance (l : FilterLimits) : (f : Filter) → Decidable (l.Allows f)
  | .and fs _ | .or fs _ => inferInstanceAs (Decidable (1 ≤ fs.length ∧ fs.length ≤ l.children))
  | .substring _ p _ => inferInstanceAs (Decidable
      (1 ≤ p.initial.toList.length + p.inner.length + p.final.toList.length ∧
        p.initial.toList.length + p.inner.length + p.final.toList.length ≤ l.pieces))
  | .extensible a r _ _ _ => inferInstanceAs (Decidable (a.isSome = true ∨ r.isSome = true))
  | .not .. | .scope .. | .presence .. | .comparison .. => inferInstanceAs (Decidable True)

theorem allows_substring {a : AttributeId} {p : Pieces} {n : Option Nat} :
    l.Allows (.substring a p n) ↔ 1 ≤ p.count ∧ p.count ≤ l.pieces := by
  have hcount : p.count = p.initial.toList.length + p.inner.length + p.final.toList.length := by
    rw [Pieces.count, Nat.add_comm p.inner.length]
  rw [hcount, Allows]

/-! ## When the check passes -/

theorem width_iff : (fs ≠ [] ∧ fs.length ≤ l.children) ↔
    1 ≤ fs.length ∧ fs.length ≤ l.children := by
  rw [Nat.one_le_iff_ne_zero, ne_eq, ne_eq, List.length_eq_zero_iff]

/-- The check of a node passes if the depth and the node are right and the checks of its branches
pass, one step further down. -/
theorem checkAt_branches : l.checkAt depth f = .ok () ↔ depth ≤ l.depth ∧ l.Allows f ∧
    ∀ g ∈ f.branches, l.checkAt (depth + 1) g = .ok () := by
  cases f with
  | and => rw [checkAt_and, width_iff, Allows, branches]
  | or => rw [checkAt_or, width_iff, Allows, branches]
  | not => rw [checkAt_not, Allows, branches, List.forall_mem_singleton, true_and]
  | substring => simp [checkAt_substring, allows_substring, branches, Nat.one_le_iff_ne_zero]
  | scope | presence | comparison =>
    rw [checkAt.eq_def, depth_then_eq_ok]
    simp [Allows, branches]
  | extensible a r v inName n =>
    rw [checkAt.eq_def, depth_then_eq_ok]
    cases a <;> cases r <;> simp [Allows, branches]

theorem checkAt_eq_ok_iff (f : Filter) : ∀ {depth}, l.checkAt depth f = .ok () ↔
    f.depth + depth ≤ l.depth + 1 ∧ ∀ g, Part g f → l.Allows g := by
  induction f using branches_induction with
  | node f ih =>
    intro depth
    have hbranches : (∀ g ∈ f.branches, l.checkAt (depth + 1) g = .ok ()) ↔
        (∀ g ∈ f.branches, g.depth + (depth + 1) ≤ l.depth + 1) ∧
          ∀ g ∈ f.branches, ∀ h, Part h g → l.Allows h := by
      rw [← forall₂_and]
      exact forall₂_congr fun g hg => ih g hg
    rw [checkAt_branches, hbranches, depth_add_le, forall_part]
    tauto

/-! ## What the check is refused with -/

/-- The error is about something else than the depth. -/
def Other (e : Error) : Prop := ∀ m n, e ≠ .filterTooDeep m n

theorem checkAllAt_refused (h : l.checkAllAt depth fs = .error e) :
    ∃ f ∈ fs, l.checkAt depth f = .error e := by
  induction fs with
  | nil =>
    rw [checkAllAt.eq_def] at h
    cases h
  | cons f fs ih =>
    rw [checkAllAt.eq_def] at h
    cases hf : l.checkAt depth f with
    | error e' =>
      simp only [hf, Except.error_bind] at h
      exact ⟨f, .head _, hf.trans h⟩
    | ok =>
      simp only [hf, Except.ok_bind] at h
      obtain ⟨g, hg, hcheck⟩ := ih h
      exact ⟨g, .tail _ hg, hcheck⟩

theorem checkWidth_refused (h : l.checkWidth fs.length = .error e) :
    ¬(1 ≤ fs.length ∧ fs.length ≤ l.children) ∧ Other e := by
  refine ⟨fun hwidth => ?_, ?_⟩
  · rw [checkWidth_eq_ok.2 (width_iff.2 hwidth)] at h
    cases h
  · unfold checkWidth at h
    split at h
    · cases h
      exact nofun
    · split at h
      · cases h
        exact nofun
      · cases h

/-- The check of a node is refused for its depth, for the node itself, or for one of its
branches. -/
theorem checkAt_refused (h : l.checkAt depth f = .error e) :
    (l.depth < depth ∧ e = .filterTooDeep depth l.depth) ∨ (depth ≤ l.depth ∧
      ((¬l.Allows f ∧ Other e) ∨ ∃ g ∈ f.branches, l.checkAt (depth + 1) g = .error e)) := by
  have hjoined : ∀ {fs : List Filter},
      (l.checkWidth fs.length >>= fun _ => l.checkAllAt (depth + 1) fs) = .error e →
        (¬(1 ≤ fs.length ∧ fs.length ≤ l.children) ∧ Other e) ∨
          ∃ g ∈ fs, l.checkAt (depth + 1) g = .error e := by
    intro fs h
    cases hwidth : l.checkWidth fs.length with
    | error e' =>
      rw [hwidth] at h
      cases h
      exact .inl (checkWidth_refused hwidth)
    | ok =>
      rw [hwidth] at h
      exact .inr (checkAllAt_refused h)
  rw [checkAt.eq_def] at h
  split at h
  · rename_i hdepth
    cases h
    exact .inl ⟨hdepth, rfl⟩
  · rename_i hdepth
    refine .inr ⟨Nat.le_of_not_lt hdepth, ?_⟩
    cases f with
    | and | or => exact hjoined h
    | not f => exact .inr ⟨f, .head _, h⟩
    | substring a p n =>
      refine .inl ?_
      simp only at h
      split at h
      · rename_i hcount
        cases h
        refine ⟨fun hpieces => ?_, fun _ _ he => by cases he⟩
        obtain ⟨hlow, hhigh⟩ := allows_substring.1 hpieces
        omega
      · cases h
    | extensible a r =>
      cases a with
      | some => cases h
      | none =>
        cases r with
        | some => cases h
        | none =>
          cases h
          exact .inl ⟨by simp [Allows], fun _ _ he => by cases he⟩
    | scope | presence | comparison => cases h

/-- A refusal for the depth comes one step behind the limit, and only where the filter is too deep.
Any other refusal is owed to a node that is not allowed. -/
theorem checkAt_complains (f : Filter) : ∀ {depth}, depth ≤ l.depth + 1 →
    l.checkAt depth f = .error e →
      (l.depth + 1 < f.depth + depth ∧ e = .filterTooDeep (l.depth + 1) l.depth) ∨
        ((¬∀ g, Part g f → l.Allows g) ∧ Other e) := by
  induction f using branches_induction with
  | node f ih =>
    intro depth hdepth h
    rcases checkAt_refused h with ⟨hdeep, rfl⟩ | ⟨hroom, hnode | ⟨g, hg, h⟩⟩
    · obtain rfl : depth = l.depth + 1 := by omega
      have := depth_eq f
      exact .inl ⟨by omega, rfl⟩
    · exact .inr ⟨fun hall => hnode.1 (hall f .self), hnode.2⟩
    · refine (ih g hg (by omega) h).imp (fun ⟨hdeep, he⟩ => ⟨?_, he⟩) fun ⟨hall, he⟩ => ⟨?_, he⟩
      · have : g.depth ≤ depthAll f.branches := depthAll_le.1 (Nat.le_refl _) g hg
        rw [depth_eq]
        omega
      · exact fun hf => hall ((forall_part.1 hf).2 g hg)

/-- **What the check decides.** A filter passes exactly if it is no deeper than the limit and all of
its nodes are allowed. It is refused for its depth only if it is deeper than the limit, and always
if that is all that is wrong with it; the error then names the first depth that is too great. -/
theorem check_decides (l : FilterLimits) (f : Filter) :
    (l.check f = .ok () ↔ f.depth ≤ l.depth ∧ ∀ g, Part g f → l.Allows g) ∧
    (∀ m n, l.check f = .error (.filterTooDeep m n) →
      l.depth < f.depth ∧ m = l.depth + 1 ∧ n = l.depth) ∧
    ((∀ g, Part g f → l.Allows g) → l.depth < f.depth →
      l.check f = .error (.filterTooDeep (l.depth + 1) l.depth)) := by
  have hcheck : l.check f = .ok () ↔ f.depth ≤ l.depth ∧ ∀ g, Part g f → l.Allows g :=
    (checkAt_eq_ok_iff f).trans (and_congr_left' (Nat.add_le_add_iff_right ..))
  refine ⟨hcheck, fun m n h => ?_, fun hall hdeep => ?_⟩
  · rcases checkAt_complains f (Nat.le_add_left ..) h with ⟨hdeep, he⟩ | ⟨_, hother⟩
    · cases he
      exact ⟨by omega, rfl, rfl⟩
    · exact absurd rfl (hother m n)
  · cases h : l.check f with
    | ok =>
      have hroom := (hcheck.1 h).1
      omega
    | error e =>
      rcases checkAt_complains f (Nat.le_add_left ..) h with ⟨_, rfl⟩ | ⟨hnot, _⟩
      · rfl
      · exact absurd hall hnot

/-- A negated condition in a conjunction stands as deep as the limit says, and is refused one step
further down. -/
theorem check_decides_sample :
    let l : FilterLimits := ⟨3, 1, 1⟩
    let f : Filter := .and [.not (.substring ⟨"cn"⟩ ⟨some "a", [], none⟩ none) none] none
    l.check f = .ok () ∧ l.check (.not f none) = .error (.filterTooDeep 4 3) := by
  intro l f
  have hall : ∀ g, Part g f → l.Allows g := by
    refine forall_part.2 ⟨by decide, List.forall_mem_singleton.2 (forall_part.2 ⟨trivial, ?_⟩)⟩
    exact List.forall_mem_singleton.2 (forall_part.2 ⟨by decide, List.forall_mem_nil _⟩)
  have hnot : ∀ g, Part g (.not f none) → l.Allows g :=
    forall_part.2 ⟨trivial, List.forall_mem_singleton.2 hall⟩
  exact ⟨(check_decides l f).1.2 ⟨by decide, hall⟩,
    (check_decides l (.not f none)).2.2 hnot (by decide)⟩

end FilterLimits

end Directory
