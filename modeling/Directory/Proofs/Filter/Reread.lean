import Directory.Proofs.Filter.Assertions
import Directory.Proofs.Filter.Derivations

/-!
# Written filters read back

* `Filter.derives_write`: the written form of a read filter is derived, but for conditions of no
  piece.
* `Filter.isRead_of_parse`: what is known of a filter that has been read.
* `Filter.reread_eq_self_iff`: the filters that stay as they are.
* `Filter.parse_display`: **a filter with pieces is read again from its written form**.
-/

namespace Directory

namespace Filter

/-! ## Written filters -/

theorem rereadAll_eq_map (fs : List Filter) : rereadAll fs = fs.map reread := by
  induction fs with
  | nil => rfl
  | cons f fs ih => rw [rereadAll, ih, List.map_cons]

theorem writeAll_eq_flatMap (fs : List Filter) : writeAll fs = fs.flatMap write := by
  induction fs with
  | nil => rfl
  | cons f fs ih => rw [writeAll, ih, List.flatMap_cons]

theorem encloses {Pad : List Char → Prop} (hPad : Pad []) (body : List Char) :
    Encloses Pad body ('(' :: (body ++ [')'])) :=
  @Encloses.mk Pad body [] [] [] (List.forall_mem_nil _) (List.forall_mem_nil _) hPad

/-- **The written form of a read filter is derived,** but for conditions of no piece. -/
theorem derives_write {f : Filter} (hf : f.IsRead) : Derives (· = []) f.write f.reread := by
  have hparts : ∀ {fs : List Filter}, (∀ f ∈ fs, Derives (· = []) f.write f.reread) →
      ∀ x ∈ fs.map fun f => (f.write, f.reread), Derives (· = []) x.1 x.2 := fun h x hx => by
    obtain ⟨f, hf, rfl⟩ := List.mem_map.1 hx
    exact h f hf
  have hjoin : ∀ fs : List Filter,
      (fs.map fun f => (f.write, f.reread)).flatMap Prod.fst = writeAll fs := fun fs => by
    rw [writeAll_eq_flatMap, List.flatMap_map]
  have htrees : ∀ fs : List Filter,
      (fs.map fun f => (f.write, f.reread)).map Prod.snd = rereadAll fs := fun fs => by
    rw [rereadAll_eq_map, List.map_map]
    rfl
  have hitem : ∀ {a : AttributeId} {op : Comparison} {raw : List Char} {f : Filter}, a.IsRead →
      Condition a op raw f →
        Derives (· = []) ('(' :: (a.name.toList ++ op.sign ++ raw ++ [')'])) f := fun ha h =>
    .assertion (.inl (item_of_condition ha h)) (@encloses (· = []) rfl _)
  induction hf with
  | @presence a ha =>
    have h := hitem ha (.presence (a := a))
    rw [write, reread]
    simpa only [Comparison.sign, List.append_assoc, List.cons_append, List.nil_append] using h
  | @comparison op a v ha hv =>
    have h := hitem ha (condition_writeValue a op hv)
    rwa [write, reread]
  | @substring a p ha hp =>
    have h := hitem ha (condition_writePieces a hp)
    rw [write]
    simpa only [Comparison.sign, List.append_assoc, List.cons_append, List.nil_append] using h
  | extensible ha hr hone hv =>
    obtain ⟨body, hwrite, h⟩ := extensible_write ha hr hone hv none
    rw [hwrite, reread]
    exact .assertion (.inr h) (@encloses (· = []) rfl _)
  | @and fs hne _ ih =>
    have h := Derives.and (mt List.map_eq_nil_iff.1 hne) (hparts ih)
      (encloses (List.forall_mem_nil _) _)
    rw [hjoin, htrees] at h
    rwa [write, reread]
  | @or fs hne _ ih =>
    have h := Derives.or (mt List.map_eq_nil_iff.1 hne) (hparts ih)
      (encloses (List.forall_mem_nil _) _)
    rw [hjoin, htrees] at h
    rwa [write, reread]
  | not _ ih =>
    have h := Derives.not ih (encloses (List.forall_mem_nil _) _)
    rwa [write, reread]

/-! ## What is read -/

theorem Derives.isRead {Pad : List Char → Prop} {text : List Char} {f : Filter}
    (h : Derives Pad text f) : f.IsRead := by
  induction h with
  | @and parts text hne _ _ ih =>
    refine .and (fun e => hne (List.map_eq_nil_iff.1 e)) fun f hf => ?_
    obtain ⟨x, hx, rfl⟩ := List.mem_map.1 hf
    exact ih x hx
  | @or parts text hne _ _ ih =>
    refine .or (fun e => hne (List.map_eq_nil_iff.1 e)) fun f hf => ?_
    obtain ⟨x, hx, rfl⟩ := List.mem_map.1 hf
    exact ih x hx
  | not _ _ ih => exact .not ih
  | assertion hf _ => exact hf.elim Item.isRead Extensible.isRead

theorem isRead_of_parse {s : String} {f : Filter} (h : parse s = .ok f) : f.IsRead := by
  obtain ⟨_, _, _, _, h, _⟩ := parse_eq_ok_iff_spells.1 h
  exact h.isRead

/-! ## Whole texts -/

theorem trimmed_write {f : Filter} (hf : f.IsRead) : ∃ cs, f.write = '(' :: cs ++ [')'] := by
  cases hf with
  | @presence a => exact ⟨a.name.toList ++ ['=', '*'], by simp [write]⟩
  | @comparison op a v => exact ⟨a.name.toList ++ op.sign ++ writeValue v, by rw [write]; rfl⟩
  | @substring a p => exact ⟨a.name.toList ++ '=' :: writePieces p, by rw [write]; rfl⟩
  | extensible ha hr hone hv =>
    obtain ⟨body, hwrite, _⟩ := extensible_write ha hr hone hv none
    exact ⟨body, hwrite⟩
  | _ => exact ⟨_, by rw [write]⟩

theorem parse_display_eq_reread {f : Filter} (hf : f.IsRead) : parse f.display = .ok f.reread := by
  obtain ⟨cs, hcs⟩ := trimmed_write hf
  have htrim : Text.trimChars f.display.toList = f.write := by
    rw [display, String.toList_ofList, hcs]
    refine Text.trimChars_eq_self ⟨by rintro _ ⟨⟩; decide, ?_⟩
    rw [List.getLast?_concat]
    rintro _ ⟨⟩
    decide
  refine parse_eq_ok_iff_spells.2 ⟨?_, f.write, [], .inl ?_, derives_write hf,
    List.forall_mem_nil _⟩
  · rw [htrim, hcs]
    exact List.cons_ne_nil _ _
  · rw [htrim, hcs, List.append_nil]
    exact ⟨rfl, rfl⟩

/-! ## Filters with pieces -/

theorem Pieced.of_part {f g : Filter} (h : f.Pieced) (hpart : Part g f) : g.Pieced :=
  fun a p n h' => h a p n (h'.trans hpart)

theorem reread_of_part {f g : Filter} (hpart : Part g f) (h : f.reread = f) : g.reread = g := by
  have hmem : ∀ {fs : List Filter} {f : Filter}, f ∈ fs → rereadAll fs = fs → f.reread = f :=
    fun {fs f} hf hfs => by
      rw [rereadAll_eq_map] at hfs
      exact List.map_inj_left.1 (hfs.trans (List.map_id fs).symm) f hf
  induction hpart with
  | self => exact h
  | and hf _ ih =>
    rw [reread] at h
    injection h with hfs
    exact ih (hmem hf hfs)
  | or hf _ ih =>
    rw [reread] at h
    injection h with hfs
    exact ih (hmem hf hfs)
  | not _ ih =>
    rw [reread] at h
    injection h with hf
    exact ih hf

mutual

theorem reread_eq_self : (f : Filter) → f.Pieced → f.reread = f
  | .substring a p n, h => by rw [reread, if_neg (h a p n .self)]
  | .and fs n, h => by rw [reread, rereadAll_eq_self fs fun f hf => h.of_part (.and hf .self)]
  | .or fs n, h => by rw [reread, rereadAll_eq_self fs fun f hf => h.of_part (.or hf .self)]
  | .not f n, h => by rw [reread, reread_eq_self f (h.of_part (.not .self))]
  | .scope .., _ | .presence .., _ | .comparison .., _ | .extensible .., _ => by rw [reread]

theorem rereadAll_eq_self : (fs : List Filter) → (∀ f ∈ fs, f.Pieced) → rereadAll fs = fs
  | [], _ => rfl
  | f :: fs, h => by
    rw [rereadAll, reread_eq_self f (h f (.head _)),
      rereadAll_eq_self fs fun g hg => h g (.tail _ hg)]

end

theorem reread_eq_self_iff {f : Filter} : f.reread = f ↔ f.Pieced := by
  refine ⟨fun h a p n hpart hcount => ?_, reread_eq_self f⟩
  have hreread := reread_of_part hpart h
  rw [reread, if_pos hcount] at hreread
  cases hreread

/-- **A filter with pieces is read again from its written form.** -/
theorem parse_display {f : Filter} (hf : f.IsRead) (hp : f.Pieced) : parse f.display = .ok f := by
  rw [parse_display_eq_reread hf, reread_eq_self f hp]

/-- Signs in values, blanks as pieces, bytes that are no text, and a rule behind the mark. -/
theorem parse_display_sample :
    let f := .and [.comparison .equality ⟨"cn"⟩ (.text "(a*)\\\x00 ") none,
      .not (.extensible none (some "dn") (.binary [0xff]) true none) none,
      .or [.substring ⟨"sn;x"⟩ ⟨none, [" "], none⟩ none] none] none
    parse f.display = .ok f := by
  have hattribute : AttributeId.IsRead ⟨"cn"⟩ ∧ AttributeId.IsRead ⟨"sn;x"⟩ :=
    ⟨.of_all (by decide) (by decide), .of_all (by decide) (by decide)⟩
  refine parse_display (.and (List.cons_ne_nil _ _) ?_) (reread_eq_self_iff.1 rfl)
  rintro _ (_ | ⟨_, _ | ⟨_, _ | ⟨_, ⟨⟩⟩⟩⟩)
  · exact .comparison hattribute.1 (.text _)
  · refine .not (.extensible (by rintro _ ⟨⟩) ?_ (.inr (Option.some_ne_none _)) ?_)
    · rintro _ ⟨⟩
      exact ⟨by decide, List.all_eq_true.1 (by decide), fun h => nomatch h⟩
    · exact .binary (by decide +kernel)
  · refine .or (List.cons_ne_nil _ _) ?_
    rintro _ (_ | ⟨_, ⟨⟩⟩)
    exact .substring hattribute.2 ⟨by decide, by decide, by decide⟩

end Filter

end Directory
