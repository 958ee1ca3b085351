import Directory.Proofs.Filter.Items

/-!
# The grammar of filters

* `Filter.Derives`: the filter of a text in parentheses, with blanks between its signs.
* `Filter.Spells`: the same for a whole text, without the blanks around it and in parentheses if it
  does not begin with one; `wrap_eq_iff`: this is how a text is read.
* `Derives.exists_tight`: blanks behind a value can be taken as part of it.
* `Filter.readFilter_of_derives`, `Reads.all`: what is derived is read, whatever follows, and what
  is read is derived.
* `Filter.parse_iff_derives`: **the filters that are accepted are those of the grammar**, each read
  as the tree of its derivation.
-/

namespace Directory

namespace Filter

/-! ## Derivations -/

/-- Blanks between the signs of a filter. -/
def IsGap (cs : List Char) : Prop := ∀ c ∈ cs, isGap c = true

/-- The text is the body in parentheses, with blanks in front of it and of either parenthesis. Those
in front of the closing one are of the kind `Pad`. -/
inductive Encloses (Pad : List Char → Prop) (body : List Char) : List Char → Prop
  | mk {before inside after : List Char} (hbefore : IsGap before) (hinside : IsGap inside)
      (hafter : Pad after) :
      Encloses Pad body (before ++ '(' :: (inside ++ (body ++ (after ++ [')']))))

/-- A text and its filter. Behind an assertion stand blanks of the kind `Pad`. They can be taken as
part of its value, so that a text has one tree only if there are none. -/
inductive Derives (Pad : List Char → Prop) : List Char → Filter → Prop
  | and {parts : List (List Char × Filter)} {text : List Char} (hne : parts ≠ [])
      (hparts : ∀ x ∈ parts, Derives Pad x.1 x.2)
      (h : Encloses IsGap ('&' :: parts.flatMap Prod.fst) text) :
      Derives Pad text (.and (parts.map Prod.snd) none)
  | or {parts : List (List Char × Filter)} {text : List Char} (hne : parts ≠ [])
      (hparts : ∀ x ∈ parts, Derives Pad x.1 x.2)
      (h : Encloses IsGap ('|' :: parts.flatMap Prod.fst) text) :
      Derives Pad text (.or (parts.map Prod.snd) none)
  | not {part text : List Char} {f : Filter} (hf : Derives Pad part f)
      (h : Encloses IsGap ('!' :: part) text) : Derives Pad text (.not f none)
  | assertion {body text : List Char} {f : Filter} (hf : Item body f ∨ Extensible body f)
      (h : Encloses Pad body text) : Derives Pad text f

/-- A whole text and its filter. Without the blanks around it the text is not empty. If it begins
with a parenthesis, it is a filter with blanks behind it; if not, it is one in a pair of
parentheses. -/
def Spells (Pad : List Char → Prop) (s : String) (f : Filter) : Prop :=
  let cs := Text.trimChars s.toList
  cs ≠ [] ∧ ∃ text gap,
    (cs.head? = some '(' ∧ cs = text ++ gap ∨
      cs.head? ≠ some '(' ∧ '(' :: cs ++ [')'] = text ++ gap) ∧
    Derives Pad text f ∧ IsGap gap

section Gaps

variable {gap cs text body : List Char} {Pad Pad' : List Char → Prop}

theorem skipGap_append (hgap : IsGap gap) (hcs : ∀ c ∈ cs.head?, isGap c = false) :
    skipGap (gap ++ cs) = cs :=
  (takeWhile_append hgap hcs).2

theorem exists_gap (cs : List Char) : ∃ gap, IsGap gap ∧ cs = gap ++ skipGap cs :=
  ⟨cs.takeWhile isGap, List.all_eq_true.1 List.all_takeWhile, List.takeWhile_append_dropWhile.symm⟩

theorem Encloses.mono (h : Encloses Pad body text) (hPad : ∀ cs, Pad cs → Pad' cs) :
    Encloses Pad' body text := by
  obtain ⟨hbefore, hinside, hafter⟩ := h
  exact .mk hbefore hinside (hPad _ hafter)

theorem Encloses.length_le (h : Encloses Pad body text) : body.length + 2 ≤ text.length := by
  obtain ⟨_, _, _⟩ := h
  simp only [List.length_append, List.length_cons, List.length_nil]
  omega

theorem Encloses.exists_depth (h : Encloses Pad body text) {n : Nat} (hn : text.length ≤ n) :
    ∃ m, n = m + 2 ∧ body.length ≤ m := by
  have hlength := h.length_le
  exact ⟨n - 2, by omega, by omega⟩

theorem Derives.mono {f : Filter} (h : Derives Pad text f) (hPad : ∀ cs, Pad cs → Pad' cs) :
    Derives Pad' text f := by
  induction h with
  | and hne _ h ih => exact .and hne ih h
  | or hne _ h ih => exact .or hne ih h
  | not _ h ih => exact .not ih h
  | assertion hf h => exact .assertion hf (h.mono hPad)

theorem Derives.two_le_length {f : Filter} (h : Derives Pad text f) : 2 ≤ text.length := by
  cases h with
  | and _ _ h | or _ _ h | not _ h | assertion _ h =>
    exact Nat.le_trans (Nat.le_add_left _ _) h.length_le

end Gaps

/-! ## Blanks behind values -/

section Blanks

variable {gap body text : List Char} {f : Filter}

theorem IsGap.isRaw (h : IsGap gap) : IsRaw gap := by
  have hchar : ∀ c, isGap c = true → isValueChar c = true ∧ c ≠ '\\' := fun c hc => by
    simp only [isGap, Bool.or_eq_true, beq_iff_eq] at hc
    obtain ((rfl | rfl) | rfl) | rfl := hc <;> decide
  induction gap with
  | nil => exact ⟨[], .nil⟩
  | cons c gap ih =>
    obtain ⟨bytes, hgap⟩ := ih fun d hd => h d (.tail _ hd)
    obtain ⟨hc, hne⟩ := hchar c (h c (.head _))
    exact ⟨_, .char hc hne hgap⟩

theorem Item.exists_append (h : Item body f) (hgap : IsRaw gap) : ∃ g, Item (body ++ gap) g := by
  obtain @⟨a, raw, op, f, ha, hraw, -⟩ := h
  obtain ⟨g, hg⟩ := (hraw.append hgap).exists_condition (.ofName (String.ofList a)) op
  exact ⟨g, List.append_assoc _ raw gap ▸ .mk ha (hraw.append hgap) hg⟩

theorem Extensible.exists_append (h : Extensible body f) (hgap : IsRaw gap) :
    ∃ g, Extensible (body ++ gap) g := by
  obtain @⟨subject, rule, mark, raw, inName, v, hsubject, hmark, hrule, hone, hv⟩ := h
  obtain ⟨w, hw⟩ := ((isRaw_of_writesValue hv).append hgap).exists_writesValue
  have h := Extensible.mk hsubject hmark hrule hone hw
  exact ⟨_, by simpa only [List.append_assoc, List.cons_append] using h⟩

theorem exists_trees {parts : List (List Char × Filter)}
    (h : ∀ x ∈ parts, ∃ g, Derives (· = []) x.1 g) : ∃ trees : List (List Char × Filter),
      (parts ≠ [] → trees ≠ []) ∧ trees.flatMap Prod.fst = parts.flatMap Prod.fst ∧
        ∀ x ∈ trees, Derives (· = []) x.1 x.2 := by
  induction parts with
  | nil => exact ⟨[], id, rfl, List.forall_mem_nil _⟩
  | cons x parts ih =>
    obtain ⟨⟨g, hg⟩, h⟩ := List.forall_mem_cons.1 h
    obtain ⟨trees, -, hjoin, htrees⟩ := ih h
    refine ⟨(x.1, g) :: trees, fun _ => List.cons_ne_nil _ _, ?_,
      List.forall_mem_cons.2 ⟨hg, htrees⟩⟩
    rw [List.flatMap_cons, List.flatMap_cons, hjoin]

/-- **Blanks behind a value can be taken as part of it.** -/
theorem Derives.exists_tight (h : Derives IsGap text f) : ∃ g, Derives (· = []) text g := by
  induction h with
  | and hne _ h ih =>
    obtain ⟨trees, htrees, hjoin, hderives⟩ := exists_trees ih
    exact ⟨_, .and (htrees hne) hderives (hjoin ▸ h)⟩
  | or hne _ h ih =>
    obtain ⟨trees, htrees, hjoin, hderives⟩ := exists_trees ih
    exact ⟨_, .or (htrees hne) hderives (hjoin ▸ h)⟩
  | not _ h ih =>
    obtain ⟨g, hg⟩ := ih
    exact ⟨_, .not hg h⟩
  | @assertion body text f hf h =>
    obtain @⟨before, inside, after, hbefore, hinside, hafter⟩ := h
    obtain ⟨g, hg⟩ : ∃ g, Item (body ++ after) g ∨ Extensible (body ++ after) g := by
      obtain hf | hf := hf
      · obtain ⟨g, hg⟩ := hf.exists_append hafter.isRaw
        exact ⟨g, .inl hg⟩
      · obtain ⟨g, hg⟩ := hf.exists_append hafter.isRaw
        exact ⟨g, .inr hg⟩
    refine ⟨g, .assertion hg ?_⟩
    rw [← List.append_assoc body after [')']]
    exact @Encloses.mk _ (body ++ after) before inside [] hbefore hinside rfl

end Blanks

/-! ## What is derived is read -/

theorem head?_assertion {body : List Char} {f : Filter} (h : Item body f ∨ Extensible body f)
    (cs : List Char) :
    ∀ c ∈ (body ++ cs).head?, isGap c = false ∧ c ≠ '&' ∧ c ≠ '|' ∧ c ≠ '!' := by
  obtain ⟨c, ds, rfl, hc⟩ : ∃ c ds, body = c :: ds ∧ (isAttributeChar c = true ∨ c = ':') := by
    obtain h | h := h
    · obtain ⟨c, ds, hbody, hc⟩ := h.exists_cons
      exact ⟨c, ds, hbody, .inl hc⟩
    · exact h.exists_cons
  rintro _ ⟨⟩
  obtain hletter | rfl := hc
  · have hother : ∀ d, isAttributeChar d = false → c ≠ d := fun d hd => by
      rintro rfl
      exact absurd (hletter.symm.trans hd) (by decide)
    refine ⟨?_, hother '&' (by decide), hother '|' (by decide), hother '!' (by decide)⟩
    simp only [isGap, Bool.or_eq_false_iff, beq_eq_false_iff_ne]
    exact ⟨⟨⟨hother ' ' (by decide), hother '\t' (by decide)⟩, hother '\r' (by decide)⟩,
      hother '\n' (by decide)⟩
  · decide

theorem readBody_eq {n : Nat} {cs : List Char}
    (h : ∀ c ∈ cs.head?, c ≠ '&' ∧ c ≠ '|' ∧ c ≠ '!') :
    readBody (n + 1) cs = (readExtensible? cs <|> readItem? cs) := by
  rw [readBody]
  · rintro ds rfl
    exact (h _ rfl).1 rfl
  · rintro ds rfl
    exact (h _ rfl).2.1 rfl
  · rintro ds rfl
    exact (h _ rfl).2.2 rfl

section Complete

variable {Pad : List Char → Prop} {body text rest : List Char} {f : Filter} {n : Nat}

/-- What stands in parentheses is read if the body is, in front of blanks of that kind. -/
theorem readFilter_of_encloses (h : Encloses Pad body text) (hPad : ∀ cs, Pad cs → IsGap cs)
    (hhead : ∀ cs, ∀ c ∈ (body ++ cs).head?, isGap c = false)
    (hbody : ∀ after, Pad after →
      readBody n (body ++ (after ++ ')' :: rest)) = some (f, after ++ ')' :: rest)) :
    readFilter (n + 1) (text ++ rest) = some (f, rest) := by
  obtain @⟨before, inside, after, hbefore, hinside, hafter⟩ := h
  have hopen : ∀ cs, ∀ c ∈ ('(' :: cs).head?, isGap c = false := by
    rintro cs _ ⟨⟩
    decide
  have hclose : ∀ cs, ∀ c ∈ (')' :: cs).head?, isGap c = false := by
    rintro cs _ ⟨⟩
    decide
  simp only [List.append_assoc, List.cons_append, List.nil_append, readFilter,
    skipGap_append hbefore (hopen _), skipGap_append hinside (hhead _), hbody after hafter,
    skipGap_append (hPad after hafter) (hclose rest)]

theorem readMany_close {after : List Char} (hafter : IsGap after) (n : Nat) (rest : List Char) :
    readMany n (after ++ ')' :: rest) = ([], after ++ ')' :: rest) := by
  have hskip : skipGap (after ++ ')' :: rest) = ')' :: rest :=
    skipGap_append hafter (by rintro _ ⟨⟩; decide)
  have hnone : ∀ n, readFilter n (after ++ ')' :: rest) = none := fun n => by
    cases n with
    | zero => rfl
    | succ n =>
      rw [readFilter, hskip]
      rfl
  cases n with
  | zero => rfl
  | succ n => rw [readMany, hnone]

theorem readMany_parts {parts : List (List Char × Filter)} {after : List Char}
    (hlength : ∀ x ∈ parts, 2 ≤ x.1.length)
    (h : ∀ x ∈ parts, ∀ n rest, x.1.length ≤ n → readFilter n (x.1 ++ rest) = some (x.2, rest))
    (hafter : IsGap after) (hn : (parts.flatMap Prod.fst).length < n) (rest : List Char) :
    readMany n (parts.flatMap Prod.fst ++ (after ++ ')' :: rest)) =
      (parts.map Prod.snd, after ++ ')' :: rest) := by
  induction parts generalizing n with
  | nil => exact readMany_close hafter n rest
  | cons x parts ih =>
    rw [List.flatMap_cons, List.length_append] at hn
    obtain ⟨hx, hlength⟩ := List.forall_mem_cons.1 hlength
    obtain ⟨hread, h⟩ := List.forall_mem_cons.1 h
    obtain ⟨n, rfl⟩ : ∃ m, n = m + 1 := ⟨n - 1, by omega⟩
    rw [List.flatMap_cons, List.append_assoc, readMany, hread n _ (by omega)]
    simp only [ih hlength h (n := n) (by omega), List.map_cons]

theorem readBody_many {cs : List Char} {fs : List Filter} (h : readMany n cs = (fs, rest))
    (hne : fs ≠ []) : readBody (n + 1) ('&' :: cs) = some (.and fs none, rest) ∧
      readBody (n + 1) ('|' :: cs) = some (.or fs none, rest) := by
  obtain ⟨f, fs, rfl⟩ := List.exists_cons_of_ne_nil hne
  constructor <;> rw [readBody, h]

end Complete

/-- **What is derived is read,** whatever follows. The induction is on the derivation; the text is
longer than the depth of its filter. -/
theorem readFilter_of_derives {text : List Char} {f : Filter} (h : Derives (· = []) text f) :
    ∀ n rest, text.length ≤ n → readFilter n (text ++ rest) = some (f, rest) := by
  induction h with
  | @and parts text hne hparts h ih =>
    intro n rest hn
    obtain ⟨n, rfl, hbody⟩ := h.exists_depth hn
    refine readFilter_of_encloses h (fun _ => id) (by rintro _ _ ⟨⟩; decide) fun after hafter => ?_
    have hmany := readMany_parts (fun x hx => (hparts x hx).two_le_length) ih hafter hbody rest
    exact (readBody_many hmany (mt List.map_eq_nil_iff.1 hne)).1
  | @or parts text hne hparts h ih =>
    intro n rest hn
    obtain ⟨n, rfl, hbody⟩ := h.exists_depth hn
    refine readFilter_of_encloses h (fun _ => id) (by rintro _ _ ⟨⟩; decide) fun after hafter => ?_
    have hmany := readMany_parts (fun x hx => (hparts x hx).two_le_length) ih hafter hbody rest
    exact (readBody_many hmany (mt List.map_eq_nil_iff.1 hne)).2
  | not hf h ih =>
    intro n rest hn
    obtain ⟨n, rfl, hbody⟩ := h.exists_depth hn
    refine readFilter_of_encloses h (fun _ => id) (by rintro _ _ ⟨⟩; decide) fun after _ => ?_
    rw [List.cons_append, readBody, ih n _ (Nat.le_of_succ_le hbody)]
  | assertion hf h =>
    intro n rest hn
    obtain ⟨n, rfl, _⟩ := h.exists_depth hn
    refine readFilter_of_encloses h ?_ (fun cs c hc => (head?_assertion hf cs c hc).1) ?_
    · rintro _ rfl
      exact List.forall_mem_nil _
    · rintro _ rfl
      rw [List.nil_append, readBody_eq fun c hc => (head?_assertion hf _ c hc).2]
      exact readAssertion?_iff.2 ⟨_, rfl, hf, by rintro _ ⟨⟩; decide⟩

/-! ## What is read is derived -/

/-- The texts of what is read: of a filter, of a body in front of a closing parenthesis, and of the
filters of a sequence. -/
structure Reads (n : Nat) : Prop where
  filter {cs rest : List Char} {f : Filter} (h : readFilter n cs = some (f, rest)) :
    ∃ text, cs = text ++ rest ∧ Derives (· = []) text f
  body {cs after rest : List Char} {f : Filter} (hafter : IsGap after)
    (h : readBody n cs = some (f, after ++ ')' :: rest)) :
    ∃ body, cs = body ++ (after ++ ')' :: rest) ∧
      ∀ text, Encloses (· = after) body text → Derives (· = []) text f
  many {cs rest : List Char} {fs : List Filter} (h : readMany n cs = (fs, rest)) :
    ∃ parts : List (List Char × Filter), cs = parts.flatMap Prod.fst ++ rest ∧
      parts.map Prod.snd = fs ∧ ∀ x ∈ parts, Derives (· = []) x.1 x.2

namespace Reads

variable {n : Nat} {cs after rest : List Char} {f : Filter} {fs : List Filter}

theorem zero : Reads 0 where
  filter h := by
    rw [readFilter] at h
    cases h
  body _ h := by
    rw [readBody] at h
    cases h
  many h := by
    rw [readMany] at h
    cases h
    exact ⟨[], rfl, rfl, List.forall_mem_nil _⟩

theorem filter_succ (ih : Reads n) (h : readFilter (n + 1) cs = some (f, rest)) :
    ∃ text, cs = text ++ rest ∧ Derives (· = []) text f := by
  rw [readFilter] at h
  split at h
  · rename_i ds hopen
    split at h
    · rename_i g es hbody
      split at h
      · rename_i rest hclose
        cases h
        obtain ⟨before, hbefore, hcs⟩ := exists_gap cs
        obtain ⟨inside, hinside, hds⟩ := exists_gap ds
        obtain ⟨after, hafter, hes⟩ := exists_gap es
        rw [hclose] at hes
        subst hes
        obtain ⟨body, htext, hderives⟩ := ih.body hafter hbody
        refine ⟨_, ?_, hderives _ (.mk hbefore hinside rfl)⟩
        rw [hcs, hopen, hds, htext]
        simp only [List.append_assoc, List.cons_append, List.nil_append]
      · cases h
    · cases h
  · cases h

theorem many_succ (ih : Reads n) (h : readMany (n + 1) cs = (fs, rest)) :
    ∃ parts : List (List Char × Filter), cs = parts.flatMap Prod.fst ++ rest ∧
      parts.map Prod.snd = fs ∧ ∀ x ∈ parts, Derives (· = []) x.1 x.2 := by
  rw [readMany] at h
  split at h
  · rename_i f ds hread
    obtain ⟨text, rfl, htext⟩ := ih.filter hread
    cases h
    obtain ⟨parts, hds, hfs, hparts⟩ := ih.many rfl
    refine ⟨(text, f) :: parts, ?_, ?_, List.forall_mem_cons.2 ⟨htext, hparts⟩⟩
    · rw [List.flatMap_cons, List.append_assoc, ← hds]
    · rw [List.map_cons, hfs]
  · cases h
    exact ⟨[], rfl, rfl, List.forall_mem_nil _⟩

theorem many_ne_nil (ih : Reads n) (h : readMany n cs = (fs, rest)) (hne : fs = [] → False) :
    ∃ parts : List (List Char × Filter), parts ≠ [] ∧ cs = parts.flatMap Prod.fst ++ rest ∧
      parts.map Prod.snd = fs ∧ ∀ x ∈ parts, Derives (· = []) x.1 x.2 := by
  obtain ⟨parts, hcs, rfl, hparts⟩ := ih.many h
  exact ⟨parts, fun e => hne (List.map_eq_nil_iff.2 e), hcs, rfl, hparts⟩

theorem body_succ (ih : Reads n) (hafter : IsGap after)
    (h : readBody (n + 1) cs = some (f, after ++ ')' :: rest)) :
    ∃ body, cs = body ++ (after ++ ')' :: rest) ∧
      ∀ text, Encloses (· = after) body text → Derives (· = []) text f := by
  have hgap : ∀ {body text}, Encloses (· = after) body text → Encloses IsGap body text :=
    fun h => h.mono fun _ e => e ▸ hafter
  rw [readBody.eq_def] at h
  simp only at h
  split at h
  · split at h
    · cases h
    · rename_i fs ds hne hmany
      cases h
      obtain ⟨parts, hparts', rfl, rfl, hparts⟩ := ih.many_ne_nil hmany hne
      exact ⟨_, rfl, fun text h => .and hparts' hparts (hgap h)⟩
  · split at h
    · cases h
    · rename_i fs ds hne hmany
      cases h
      obtain ⟨parts, hparts', rfl, rfl, hparts⟩ := ih.many_ne_nil hmany hne
      exact ⟨_, rfl, fun text h => .or hparts' hparts (hgap h)⟩
  · split at h
    · rename_i g ds hread
      cases h
      obtain ⟨part, rfl, hpart⟩ := ih.filter hread
      exact ⟨_, rfl, fun text h => .not hpart (hgap h)⟩
    · cases h
  · obtain ⟨body, rfl, hbody, hend⟩ := readAssertion?_iff.1 h
    refine ⟨body, rfl, fun text h => .assertion hbody (h.mono fun _ e => e.trans ?_)⟩
    -- a value goes on to the next parenthesis
    cases after with
    | nil => rfl
    | cons c after =>
      obtain ⟨bytes, hraw⟩ := hafter.isRaw
      exact absurd ((hend c rfl).symm.trans (hraw.isValueChar c (.head _))) (by decide)

theorem all (n : Nat) : Reads n := by
  induction n with
  | zero => exact .zero
  | succ n ih => exact ⟨ih.filter_succ, ih.body_succ, ih.many_succ⟩

end Reads

/-! ## Whole texts -/

theorem isGap_iff_skipGap {cs : List Char} : IsGap cs ↔ skipGap cs = [] := by
  constructor
  · intro h
    have hskip : skipGap (cs ++ []) = [] := skipGap_append h fun c hc => nomatch hc
    rwa [List.append_nil] at hskip
  · intro h
    obtain ⟨gap, hgap, hcs⟩ := exists_gap cs
    rw [h, List.append_nil] at hcs
    rwa [hcs]

theorem wrap_eq_iff {cs ds : List Char} : wrap cs = ds ↔
    cs.head? = some '(' ∧ cs = ds ∨ cs.head? ≠ some '(' ∧ '(' :: cs ++ [')'] = ds := by
  rw [wrap.eq_def]
  split
  · simp
  · rename_i hopen
    have hhead : cs.head? ≠ some '(' := fun h => by
      obtain ⟨ds, rfl⟩ := List.head?_eq_some_iff.1 h
      exact hopen ds rfl
    simp [hhead]

theorem parse_eq_ok {s : String} {f : Filter} : parse s = .ok f ↔
    Text.trimChars s.toList ≠ [] ∧ ∃ rest, IsGap rest ∧
      readFilter ((wrap (Text.trimChars s.toList)).length + 1) (wrap (Text.trimChars s.toList)) =
        some (f, rest) := by
  rw [parse]
  cases Text.trimChars s.toList with
  | nil => exact ⟨fun h => (nomatch h), fun h => absurd rfl h.1⟩
  | cons c cs =>
    simp only [ne_eq, reduceCtorEq, not_false_eq_true, true_and, isGap_iff_skipGap]
    cases readFilter ((wrap (c :: cs)).length + 1) (wrap (c :: cs)) with
    | none => simp
    | some x =>
      obtain ⟨g, rest⟩ := x
      cases hrest : skipGap rest with
      | nil => simp [hrest]
      | cons d ds => simp [hrest]

/-- **A filter is read if the text spells it.** -/
theorem parse_eq_ok_iff_spells {s : String} {f : Filter} :
    parse s = .ok f ↔ Spells (· = []) s f := by
  rw [parse_eq_ok, Spells]
  simp only [← wrap_eq_iff]
  refine and_congr_right fun _ => ⟨?_, ?_⟩
  · rintro ⟨rest, hrest, h⟩
    obtain ⟨text, hwrap, htext⟩ := (Reads.all _).filter h
    exact ⟨text, rest, hwrap, htext, hrest⟩
  · rintro ⟨text, gap, hwrap, htext, hgap⟩
    refine ⟨gap, hgap, ?_⟩
    rw [hwrap]
    refine readFilter_of_derives htext _ _ ?_
    rw [List.length_append]
    omega

/-- **The filters that are accepted are those of the grammar,** where blanks can stand behind a
value; each is read as the tree in which these are part of the value. -/
theorem parse_iff_derives (s : String) :
    (∀ f, parse s = .ok f ↔ Spells (· = []) s f) ∧
      ((∃ f, parse s = .ok f) ↔ ∃ f, Spells IsGap s f) := by
  refine ⟨fun f => parse_eq_ok_iff_spells, ?_⟩
  simp only [parse_eq_ok_iff_spells]
  constructor
  · rintro ⟨f, hne, text, gap, hwrap, h, hgap⟩
    refine ⟨f, hne, text, gap, hwrap, h.mono ?_, hgap⟩
    rintro _ rfl
    exact List.forall_mem_nil _
  · rintro ⟨f, hne, text, gap, hwrap, h, hgap⟩
    obtain ⟨g, hg⟩ := h.exists_tight
    exact ⟨g, hne, text, gap, hwrap, hg, hgap⟩

/-- Only the blank behind the value is part of it. -/
example : (parse " ( & (cn=a ) )").toOption =
    some (.and [.comparison .equality ⟨"cn"⟩ (.text "a ") none] none) := by
  decide +kernel

end Filter

end Directory
