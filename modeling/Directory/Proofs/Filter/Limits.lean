import Directory.Filter.Limits
import Directory.Proofs.Filter.Reread
import Directory.Proofs.Steps

/-!
# Read filters under limits

* `FilterLimits.checkAt_and`, `checkAt_or`, `checkAt_not`, `checkAt_substring`: when the check of a
  node succeeds.
* `Filter.Admitted`: the filter passes all limits that are large enough;
  `Filter.admitted_iff`: a filter that has been read is admitted exactly if its substring conditions
  have pieces.
* `Filter.reread_of_parse`: **of the filters that are read, those whose substring conditions have
  pieces, and no others, are admitted and are read again from their written form**.
-/

namespace Directory

/-! ## The check of a node -/

namespace FilterLimits

variable {l : FilterLimits} {depth : Nat} {fs : List Filter} {f : Filter} {n : Option Nat}

theorem then_eq_ok {x y : Except Error Unit} :
    (x >>= fun _ => y) = .ok () ↔ x = .ok () ∧ y = .ok () := by
  cases x with
  | error e => exact ⟨fun h => (nomatch h), fun h => nomatch h.1⟩
  | ok => exact ⟨fun h => ⟨rfl, h⟩, And.right⟩

theorem checkAllAt_eq_ok :
    l.checkAllAt depth fs = .ok () ↔ ∀ f ∈ fs, l.checkAt depth f = .ok () := by
  induction fs with
  | nil =>
    rw [checkAllAt.eq_def]
    exact ⟨fun _ => List.forall_mem_nil _, fun _ => rfl⟩
  | cons f fs ih =>
    rw [checkAllAt.eq_def, List.forall_mem_cons, ← ih]
    exact then_eq_ok

theorem checkWidth_eq_ok :
    l.checkWidth fs.length = .ok () ↔ fs ≠ [] ∧ fs.length ≤ l.children := by
  rw [checkWidth, ne_eq, ← List.length_eq_zero_iff]
  split
  · rename_i hzero
    exact ⟨fun e => (nomatch e), fun e => absurd hzero e.1⟩
  · rename_i hne
    split
    · exact ⟨fun e => (nomatch e), fun e => by omega⟩
    · exact ⟨fun _ => ⟨hne, by omega⟩, fun _ => rfl⟩

theorem depth_then_eq_ok {x : Except Error Unit} :
    (if l.depth < depth then .error (.filterTooDeep depth l.depth) else x) = .ok () ↔
      depth ≤ l.depth ∧ x = .ok () := by
  split <;> simp <;> omega

theorem checkAt_and : l.checkAt depth (.and fs n) = .ok () ↔ depth ≤ l.depth ∧
    (fs ≠ [] ∧ fs.length ≤ l.children) ∧ ∀ f ∈ fs, l.checkAt (depth + 1) f = .ok () := by
  rw [checkAt.eq_def, depth_then_eq_ok, ← checkWidth_eq_ok, ← checkAllAt_eq_ok]
  exact and_congr_right fun _ => then_eq_ok

theorem checkAt_or : l.checkAt depth (.or fs n) = .ok () ↔ depth ≤ l.depth ∧
    (fs ≠ [] ∧ fs.length ≤ l.children) ∧ ∀ f ∈ fs, l.checkAt (depth + 1) f = .ok () := by
  rw [← checkAt_and (n := n), checkAt, checkAt]

theorem checkAt_not : l.checkAt depth (.not f n) = .ok () ↔
    depth ≤ l.depth ∧ l.checkAt (depth + 1) f = .ok () := by
  rw [checkAt, depth_then_eq_ok]

theorem checkAt_substring {a : AttributeId} {p : Pieces} :
    l.checkAt depth (.substring a p n) = .ok () ↔
      depth ≤ l.depth ∧ p.count ≠ 0 ∧ p.count ≤ l.pieces := by
  rw [checkAt.eq_def, depth_then_eq_ok]
  refine and_congr_right fun _ => ?_
  simp only
  split <;> simp <;> omega

end FilterLimits

namespace Filter

/-! ## Parts of checked filters -/

theorem checkAt_of_part {l : FilterLimits} {f g : Filter} (hpart : Part g f) {depth : Nat}
    (h : l.checkAt depth f = .ok ()) : ∃ depth', l.checkAt depth' g = .ok () := by
  induction hpart generalizing depth with
  | self => exact ⟨depth, h⟩
  | and hf _ ih => exact ih ((FilterLimits.checkAt_and.1 h).2.2 _ hf)
  | or hf _ ih => exact ih ((FilterLimits.checkAt_or.1 h).2.2 _ hf)
  | not _ ih => exact ih (FilterLimits.checkAt_not.1 h).2

theorem pieced_of_check {l : FilterLimits} {f : Filter} (h : l.check f = .ok ()) : f.Pieced := by
  intro a p n hpart hcount
  obtain ⟨_, h⟩ := checkAt_of_part hpart h
  exact (FilterLimits.checkAt_substring.1 h).2.1 hcount

/-! ## Limits that suffice -/

/-- From these bounds on, all limits let the filter pass at any depth for which they leave room. -/
def Suffices (b : FilterLimits) (f : Filter) : Prop :=
  ∀ (l : FilterLimits) depth, b.depth + depth ≤ l.depth → b.children ≤ l.children →
    b.pieces ≤ l.pieces → l.checkAt depth f = .ok ()

theorem Suffices.mono {b c : FilterLimits} {f : Filter} (h : Suffices b f)
    (hdepth : b.depth ≤ c.depth) (hchildren : b.children ≤ c.children)
    (hpieces : b.pieces ≤ c.pieces) : Suffices c f := fun l depth h₁ h₂ h₃ =>
  h l depth (by omega) (by omega) (by omega)

/-- Finitely many filters have common bounds. -/
theorem exists_suffices_all {fs : List Filter} (h : ∀ f ∈ fs, ∃ b, Suffices b f) :
    ∃ b, ∀ f ∈ fs, Suffices b f := by
  induction fs with
  | nil => exact ⟨default, List.forall_mem_nil _⟩
  | cons f fs ih =>
    obtain ⟨b, hb⟩ := h f (.head _)
    obtain ⟨c, hc⟩ := ih fun g hg => h g (.tail _ hg)
    refine ⟨⟨max b.depth c.depth, max b.children c.children, max b.pieces c.pieces⟩,
      List.forall_mem_cons.2 ⟨?_, fun g hg => ?_⟩⟩
    · exact hb.mono (Nat.le_max_left ..) (Nat.le_max_left ..) (Nat.le_max_left ..)
    · exact (hc g hg).mono (Nat.le_max_right ..) (Nat.le_max_right ..) (Nat.le_max_right ..)

theorem exists_suffices_and {fs : List Filter} (hne : fs ≠ []) (h : ∀ f ∈ fs, ∃ b, Suffices b f) :
    ∃ b, Suffices b (.and fs none) := by
  obtain ⟨b, hb⟩ := exists_suffices_all h
  refine ⟨⟨b.depth + 1, max b.children fs.length, b.pieces⟩, fun l depth h₁ h₂ h₃ => ?_⟩
  have h₁ : b.depth + 1 + depth ≤ l.depth := h₁
  have h₂ : max b.children fs.length ≤ l.children := h₂
  exact FilterLimits.checkAt_and.2 ⟨by omega, ⟨hne, by omega⟩,
    fun f hf => hb f hf l (depth + 1) (by omega) (by omega) h₃⟩

theorem suffices_leaf {f : Filter}
    (h : ∀ (l : FilterLimits) depth, depth ≤ l.depth → l.checkAt depth f = .ok ()) :
    ∃ b, Suffices b f :=
  ⟨⟨0, 0, 0⟩, fun l depth h₁ _ _ => h l depth (by rwa [Nat.zero_add] at h₁)⟩

theorem exists_suffices {f : Filter} (hf : f.IsRead) (hp : f.Pieced) : ∃ b, Suffices b f := by
  induction hf with
  | presence =>
    refine suffices_leaf fun l depth h => ?_
    rw [FilterLimits.checkAt.eq_def, FilterLimits.depth_then_eq_ok]
    exact ⟨h, rfl⟩
  | comparison =>
    refine suffices_leaf fun l depth h => ?_
    rw [FilterLimits.checkAt.eq_def, FilterLimits.depth_then_eq_ok]
    exact ⟨h, rfl⟩
  | @substring a p =>
    refine ⟨⟨0, 0, p.count⟩, fun l depth h₁ _ h₃ => ?_⟩
    exact FilterLimits.checkAt_substring.2 ⟨by rwa [Nat.zero_add] at h₁, hp a p none .self, h₃⟩
  | @extensible a r v inName ha hr hsubject hv =>
    refine suffices_leaf fun l depth h => ?_
    rw [FilterLimits.checkAt.eq_def, FilterLimits.depth_then_eq_ok]
    refine ⟨h, ?_⟩
    cases a with
    | some a => rfl
    | none =>
      cases r with
      | some r => rfl
      | none => exact absurd hsubject (by simp)
  | and hne _ ih =>
    exact exists_suffices_and hne fun f hf => ih f hf (hp.of_part (.and hf .self))
  | or hne _ ih =>
    obtain ⟨b, hb⟩ := exists_suffices_and hne fun f hf => ih f hf (hp.of_part (.or hf .self))
    refine ⟨b, fun l depth h₁ h₂ h₃ => ?_⟩
    exact FilterLimits.checkAt_or.2 (FilterLimits.checkAt_and.1 (hb l depth h₁ h₂ h₃))
  | not _ ih =>
    obtain ⟨b, hb⟩ := ih (hp.of_part (.not .self))
    refine ⟨⟨b.depth + 1, b.children, b.pieces⟩, fun l depth h₁ h₂ h₃ => ?_⟩
    have h₁ : b.depth + 1 + depth ≤ l.depth := h₁
    exact FilterLimits.checkAt_not.2 ⟨by omega, hb l (depth + 1) (by omega) h₂ h₃⟩

/-! ## Filters that have been read -/

/-- The filter passes all limits that are large enough. -/
def Admitted (f : Filter) : Prop :=
  ∃ b : FilterLimits, ∀ l : FilterLimits, b.depth ≤ l.depth → b.children ≤ l.children →
    b.pieces ≤ l.pieces → l.check f = .ok ()

theorem admitted_iff {f : Filter} (hf : f.IsRead) : f.Admitted ↔ f.Pieced := by
  constructor
  · rintro ⟨b, hb⟩
    exact pieced_of_check (hb b (Nat.le_refl _) (Nat.le_refl _) (Nat.le_refl _))
  · intro hp
    obtain ⟨b, hb⟩ := exists_suffices hf hp
    exact ⟨⟨b.depth + 1, b.children, b.pieces⟩, fun l h₁ h₂ h₃ => hb l 1 h₁ h₂ h₃⟩

/-- **Reading and writing.** A filter that has been read passes all limits that are large enough,
and is read again from its written form, exactly if its substring conditions have pieces. Otherwise
no limits let it pass, and presence is read in place of the conditions without one. -/
theorem reread_of_parse {s : String} {f : Filter} (h : parse s = .ok f) :
    (f.Admitted ↔ f.Pieced) ∧ (parse f.display = .ok f ↔ f.Pieced) ∧
      (f.Pieced ∨ ∀ l : FilterLimits, l.check f ≠ .ok ()) ∧ parse f.display = .ok f.reread := by
  have hf := isRead_of_parse h
  have hreread := parse_display_eq_reread hf
  refine ⟨admitted_iff hf, ?_, ?_, hreread⟩
  · rw [hreread, Except.ok.injEq, reread_eq_self_iff]
  · by_cases hp : f.Pieced
    · exact .inl hp
    · exact .inr fun l hl => hp (pieced_of_check hl)

/-- A condition with a piece. -/
theorem reread_of_parse_sample :
    parse "cn=a*" = .ok (.substring ⟨"cn"⟩ ⟨some "a", [], none⟩ none) ∧
      Admitted (.substring ⟨"cn"⟩ ⟨some "a", [], none⟩ none) ∧
      parse (display (.substring ⟨"cn"⟩ ⟨some "a", [], none⟩ none)) =
        .ok (.substring ⟨"cn"⟩ ⟨some "a", [], none⟩ none) := by
  have hparse : parse "cn=a*" = .ok (.substring ⟨"cn"⟩ ⟨some "a", [], none⟩ none) :=
    Except.toOption_eq_some.1 (by decide +kernel)
  have hp : Pieced (.substring ⟨"cn"⟩ ⟨some "a", [], none⟩ none) := reread_eq_self_iff.1 rfl
  obtain ⟨hadmitted, hreread, _⟩ := reread_of_parse hparse
  exact ⟨hparse, hadmitted.2 hp, hreread.2 hp⟩

/-- Several asterisks are read as a condition of no piece, which no limits let pass and which is
written as presence is. -/
theorem asterisks_sample :
    parse "(cn=**)" = .ok (.substring ⟨"cn"⟩ ⟨none, [], none⟩ none) ∧
      ¬Admitted (.substring ⟨"cn"⟩ ⟨none, [], none⟩ none) ∧
      parse (display (.substring ⟨"cn"⟩ ⟨none, [], none⟩ none)) = .ok (.presence ⟨"cn"⟩ none) := by
  have hparse : parse "(cn=**)" = .ok (.substring ⟨"cn"⟩ ⟨none, [], none⟩ none) :=
    Except.toOption_eq_some.1 (by decide +kernel)
  refine ⟨hparse, fun h => ?_, Except.toOption_eq_some.1 (by decide +kernel)⟩
  exact (admitted_iff (isRead_of_parse hparse)).1 h _ _ _ .self rfl

end Filter

end Directory
