import Directory.Proofs.Filter.Items
import Directory.Proofs.Filter.Parts
import Directory.Proofs.Filter.Written

/-!
# Written assertions

* `Filter.IsRead`: what reading can give; `Item.isRead`, `Extensible.isRead`: that the grammar gives
  nothing else for an assertion.
* `Filter.Pieced`, `Filter.reread`: all substring conditions of the filter have a piece; the filter
  with those of no piece replaced by presence.
* `Filter.item_of_condition`, `Filter.extensible_write`: **the written form of a read assertion
  stands for it**, where an attribute, the mark and a rule are told apart.
-/

namespace Directory

namespace Filter

/-! ## What reading gives -/

/-- A filter that reading can give. -/
inductive IsRead : Filter → Prop
  | presence {a : AttributeId} (ha : a.IsRead) : IsRead (.presence a none)
  | comparison {op : Comparison} {a : AttributeId} {v : Value} (ha : a.IsRead) (hv : v.IsRead) :
      IsRead (.comparison op a v none)
  | substring {a : AttributeId} {p : Pieces} (ha : a.IsRead) (hp : p.IsRead) :
      IsRead (.substring a p none)
  | extensible {a : Option AttributeId} {r : Option String} {v : Value} {inName : Bool}
      (ha : ∀ b ∈ a, b.IsRead) (hr : ∀ s ∈ r, IsRule inName s.toList)
      (hsubject : a ≠ none ∨ r ≠ none) (hv : v.IsRead) : IsRead (.extensible a r v inName none)
  | and {fs : List Filter} (hne : fs ≠ []) (hfs : ∀ f ∈ fs, IsRead f) : IsRead (.and fs none)
  | or {fs : List Filter} (hne : fs ≠ []) (hfs : ∀ f ∈ fs, IsRead f) : IsRead (.or fs none)
  | not {f : Filter} (hf : IsRead f) : IsRead (.not f none)

/-- All substring conditions of the filter have a piece. -/
def Pieced (f : Filter) : Prop := ∀ a p n, Part (.substring a p n) f → p.count ≠ 0

mutual

/-- The filter with conditions of no piece replaced by presence. -/
def reread : Filter → Filter
  | substring a p n => if p.count = 0 then presence a n else substring a p n
  | and fs n => and (rereadAll fs) n
  | or fs n => or (rereadAll fs) n
  | not f n => not f.reread n
  | scope b s m n => scope b s m n
  | presence a n => presence a n
  | comparison op a v n => comparison op a v n
  | extensible a r v d n => extensible a r v d n

/-- The same for each filter. -/
def rereadAll : List Filter → List Filter
  | [] => []
  | f :: fs => f.reread :: rereadAll fs

end

/-! ## Written conditions -/

theorem condition_writeValue (a : AttributeId) (op : Comparison) {v : Value} (hv : v.IsRead) :
    Condition a op (writeValue v) (comparison op a v none) :=
  .comparison (fun _ h => absurd (isPlain_of_mem_writeValue hv h) (by decide))
    (writesValue_writeValue hv)

theorem writePieces_eq_singleton {p : Pieces} (hp : p.IsRead) :
    writePieces p = ['*'] ↔ p.count = 0 := by
  obtain ⟨initial, inner, final⟩ := p
  constructor
  · intro h
    have hlength := congrArg List.length h
    simp only [writePieces, List.length_append, List.length_cons, List.length_nil] at hlength
    obtain rfl : initial = none :=
      (writePiece_eq_nil hp.initial).1 (List.eq_nil_of_length_eq_zero (by simp only; omega))
    obtain rfl : final = none :=
      (writePiece_eq_nil hp.final).1 (List.eq_nil_of_length_eq_zero (by simp only; omega))
    cases inner with
    | nil => rfl
    | cons s inner =>
      rw [List.flatMap_cons, List.length_append, List.length_append,
        List.length_singleton] at hlength
      omega
  · intro h
    simp only [Pieces.count, Nat.add_eq_zero_iff, List.length_eq_zero_iff,
      Option.toList_eq_nil_iff] at h
    obtain ⟨⟨rfl, rfl⟩, rfl⟩ := h
    rfl

theorem condition_writePieces (a : AttributeId) {p : Pieces} (hp : p.IsRead) :
    Condition a .equality (writePieces p) (substring a p none).reread := by
  rw [reread]
  split
  · rename_i hcount
    rw [(writePieces_eq_singleton hp).2 hcount]
    exact .presence
  · rename_i hcount
    exact .substring (fun h => hcount ((writePieces_eq_singleton hp).1 h))
      (writesPieces_writePieces hp)

/-! ## Written assertions -/

theorem isWord_of_isRead {a : AttributeId} (ha : a.IsRead) : IsWord isAttributeChar a.name.toList :=
  ⟨ha.ne_nil, fun c hc => (ha.letters c hc).1⟩

/-- The written form of a condition is an assertion. -/
theorem item_of_condition {a : AttributeId} (ha : a.IsRead) {op : Comparison} {raw : List Char}
    {f : Filter} (h : Condition a op raw f) : Item (a.name.toList ++ op.sign ++ raw) f := by
  refine .mk (isWord_of_isRead ha) h.isRaw ?_
  rwa [String.ofList_toList, AttributeId.ofName_name ha]

section Extensible

variable {a : Option AttributeId} {r : Option String} {v : Value} {inName : Bool}

theorem map_ofName (ha : ∀ b ∈ a, b.IsRead) :
    (a.map (String.toList ∘ AttributeId.name)).map (.ofName ∘ String.ofList) = a := by
  cases a with
  | none => rfl
  | some b =>
    rw [Option.map_some, Option.map_some, Function.comp_apply, Function.comp_apply,
      String.ofList_toList, AttributeId.ofName_name (ha b rfl)]

/-- **The written form of a read extensible assertion stands for it.** -/
theorem extensible_write (ha : ∀ b ∈ a, b.IsRead) (hr : ∀ s ∈ r, IsRule inName s.toList)
    (hone : a ≠ none ∨ r ≠ none) (hv : v.IsRead) (n : Option Nat) :
    ∃ body, (extensible a r v inName n).write = '(' :: (body ++ [')']) ∧
      Extensible body (extensible a r v inName none) := by
  have hsubject : ∀ word ∈ a.map (String.toList ∘ AttributeId.name), IsWord isAttributeChar word :=
    fun word hword => by
      obtain ⟨b, hb, rfl⟩ := Option.map_eq_some_iff.1 hword
      exact isWord_of_isRead (ha b hb)
  have hmark : Mark (if inName then [':', 'd', 'n'] else []) inName := by
    cases inName with
    | false => exact .none
    | true => exact .dn (by decide) (by decide)
  have hrule : ∀ word ∈ r.map String.toList, IsRule inName word := fun word hword => by
    obtain ⟨s, hs, rfl⟩ := Option.map_eq_some_iff.1 hword
    exact hr s hs
  have hrules : (r.map String.toList).map String.ofList = r := by
    cases r with
    | none => rfl
    | some s => rw [Option.map_some, Option.map_some, String.ofList_toList]
  have h := Extensible.mk hsubject hmark hrule
    (by rwa [ne_eq, ne_eq, Option.map_eq_none_iff, Option.map_eq_none_iff])
    (writesValue_writeValue hv)
  rw [map_ofName ha, hrules] at h
  refine ⟨_, ?_, h⟩
  rw [write.eq_def]
  cases a <;> cases r <;> simp

end Extensible

/-! ## What is read -/

theorem Condition.isRead {a : AttributeId} (ha : a.IsRead) {op : Comparison} {raw : List Char}
    {f : Filter} (h : Condition a op raw f) : f.IsRead := by
  cases h with
  | presence => exact .presence ha
  | substring _ h => exact .substring ha h.isRead
  | comparison _ h => exact .comparison ha (isRead_of_writesValue h)

theorem Item.isRead {body : List Char} {f : Filter} (h : Item body f) : f.IsRead := by
  obtain @⟨a, raw, op, f, ha, _, h⟩ := h
  exact h.isRead (AttributeId.isRead_ofName ha.ne_nil ha.letters)

theorem Extensible.isRead {body : List Char} {f : Filter} (h : Extensible body f) : f.IsRead := by
  obtain @⟨subject, rule, mark, raw, inName, v, hsubject, hmark, hrule, hone, hv⟩ := h
  refine .extensible ?_ ?_ ?_ (isRead_of_writesValue hv)
  · rintro _ hb
    obtain ⟨a, rfl, rfl⟩ := Option.map_eq_some_iff.1 hb
    exact AttributeId.isRead_ofName (hsubject a rfl).ne_nil (hsubject a rfl).letters
  · rintro _ hs
    obtain ⟨r, rfl, rfl⟩ := Option.map_eq_some_iff.1 hs
    rw [String.toList_ofList]
    exact hrule r rfl
  · rwa [ne_eq, ne_eq, Option.map_eq_none_iff, Option.map_eq_none_iff]

end Filter

end Directory
