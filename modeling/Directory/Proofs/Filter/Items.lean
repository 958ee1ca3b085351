import Directory.Filter.Printer
import Directory.Proofs.Filter.Grammar
import Directory.Proofs.Text.Folded

/-!
# The grammar of assertions

An assertion is a comparison or extensible; no text is both.

* `Filter.Item`: an attribute, the sign of a comparison and a value.
* `Filter.Extensible`: an attribute, the mark that the values in the name count, and a rule, each of
  which can be missing, in front of a value. `Filter.IsRule`: where the mark counts, it is no rule.
* `Filter.readSome_iff`: the longest word at the start of the input is read.
* `Filter.readItem?_iff`, `Filter.readExtensible?_iff`, `Filter.readAssertion?_iff`: **an assertion
  is read if it goes on to the next parenthesis**.
-/

namespace Directory

namespace Filter

/-- A word of such characters. -/
structure IsWord (p : Char → Bool) (word : List Char) : Prop where
  ne_nil : word ≠ []
  letters : ∀ c ∈ word, p c = true

/-- A rule that reading can give. The letters `dn` are taken for the mark that the values in the
name count, unless they stand behind that mark. -/
structure IsRule (inName : Bool) (rule : List Char) : Prop where
  ne_nil : rule ≠ []
  letters : ∀ c ∈ rule, isRuleChar c = true
  not_mark : inName = false → rule.map Char.toLower ≠ ['d', 'n']

/-- The mark that the values in the name count, or none. -/
inductive Mark : List Char → Bool → Prop
  | none : Mark [] false
  | dn {d n : Char} (hd : d.toLower = 'd') (hn : n.toLower = 'n') : Mark [':', d, n] true

/-- An attribute, the sign of a comparison and a written value. -/
inductive Item : List Char → Filter → Prop
  | mk {a raw : List Char} {op : Comparison} {f : Filter} (ha : IsWord isAttributeChar a)
      (hraw : IsRaw raw) (h : Condition (.ofName (String.ofList a)) op raw f) :
      Item (a ++ op.sign ++ raw) f

/-- An attribute, the mark and a rule, each of which can be missing, but not both attribute and
rule; then a written value. -/
inductive Extensible : List Char → Filter → Prop
  | mk {subject rule : Option (List Char)} {mark raw : List Char} {inName : Bool} {v : Value}
      (hsubject : ∀ a ∈ subject, IsWord isAttributeChar a) (hmark : Mark mark inName)
      (hrule : ∀ r ∈ rule, IsRule inName r) (hone : subject ≠ none ∨ rule ≠ none)
      (hv : WritesValue raw v) :
      Extensible (subject.getD [] ++ (mark ++ (rule.elim [] (':' :: ·) ++ ':' :: '=' :: raw)))
        (.extensible (subject.map (.ofName ∘ String.ofList)) (rule.map String.ofList) v inName none)

/-! ## Words -/

section Words

variable {p : Char → Bool} {word rest cs : List Char}

theorem takeWhile_append (h : ∀ c ∈ word, p c = true) (hrest : ∀ c ∈ rest.head?, p c = false) :
    (word ++ rest).takeWhile p = word ∧ (word ++ rest).dropWhile p = rest := by
  have htake : rest.takeWhile p = [] := by
    cases rest with
    | nil => rfl
    | cons c rest => rw [List.takeWhile_cons, hrest c rfl, if_neg Bool.false_ne_true]
  rw [List.takeWhile_append_of_pos h, List.dropWhile_append_of_pos h, htake,
    Text.dropWhile_eq_self hrest, List.append_nil]
  exact ⟨rfl, rfl⟩

/-- **The longest word at the start is read.** -/
theorem readSome_iff : readSome p cs = some (word, rest) ↔
    cs = word ++ rest ∧ IsWord p word ∧ ∀ c ∈ rest.head?, p c = false := by
  constructor
  · intro h
    unfold readSome at h
    split at h
    · cases h
    · rename_i c word hword
      cases h
      refine ⟨?_, ⟨List.cons_ne_nil _ _, ?_⟩, Text.first_dropWhile p cs⟩
      · rw [← hword, List.takeWhile_append_dropWhile]
      · exact List.all_eq_true.1 (hword ▸ List.all_takeWhile)
  · rintro ⟨rfl, hword, hrest⟩
    obtain ⟨htake, hdrop⟩ := takeWhile_append hword.letters hrest
    obtain ⟨c, word, rfl⟩ := List.exists_cons_of_ne_nil hword.ne_nil
    rw [readSome, htake, hdrop]

theorem readSome_eq_none : readSome p cs = none ↔ ∀ c ∈ cs.head?, p c = false := by
  rw [readSome]
  cases cs with
  | nil => exact ⟨fun _ _ hc => (nomatch hc), fun _ => rfl⟩
  | cons c cs =>
    rw [List.takeWhile_cons]
    cases hc : p c with
    | true => exact ⟨fun h => (nomatch h), fun h => absurd (h c rfl) (by rw [hc]; decide)⟩
    | false =>
      refine ⟨fun _ => ?_, fun _ => rfl⟩
      rintro _ ⟨⟩
      exact hc

end Words

/-! ## Reading assertions -/

theorem readSign?_iff {op : Comparison} {cs rest : List Char} :
    readSign? cs = some (op, rest) ↔ cs = op.sign ++ rest := by
  constructor
  · intro h
    unfold readSign? at h
    split at h <;> cases h <;> rfl
  · rintro rfl
    cases op <;> rfl

theorem head?_sign (op : Comparison) (cs : List Char) :
    ∀ c ∈ (op.sign ++ cs).head?, isAttributeChar c = false ∧ c ≠ ':' := by
  cases op <;> rintro _ ⟨⟩ <;> decide

/-- **The longest comparison at the start is read.** -/
theorem readItem?_iff {cs rest : List Char} {f : Filter} : readItem? cs = some (f, rest) ↔
    ∃ text, cs = text ++ rest ∧ Item text f ∧ ∀ c ∈ rest.head?, isValueChar c = false := by
  constructor
  · intro h
    simp only [readItem?, Option.bind_eq_bind, Option.bind_eq_some_iff, Option.pure_def,
      Option.some.injEq, Prod.exists, Prod.mk.injEq] at h
    obtain ⟨a, cs₁, ha, op, cs₂, hop, f, hitem, rfl, rfl⟩ := h
    obtain ⟨rfl, hword, _⟩ := readSome_iff.1 ha
    obtain rfl := readSign?_iff.1 hop
    have hcondition := (item?_iff (List.all_eq_true.1 List.all_takeWhile)).1 hitem
    refine ⟨_, ?_, .mk hword hcondition.isRaw hcondition, Text.first_dropWhile _ _⟩
    rw [List.append_assoc, List.append_assoc, List.takeWhile_append_dropWhile]
  · rintro ⟨_, rfl, @⟨a, raw, op, f, ha, ⟨bytes, hraw⟩, h⟩, hrest⟩
    have hattribute := readSome_iff.2 ⟨rfl, ha, fun c hc => (head?_sign op (raw ++ rest) c hc).1⟩
    obtain ⟨htake, hdrop⟩ := takeWhile_append hraw.isValueChar hrest
    simp only [readItem?, List.append_assoc, hattribute, readSign?_iff.2 rfl, htake, hdrop,
      (item?_iff hraw.isValueChar).2 h, Option.bind_eq_bind, Option.bind_some, Option.pure_def]

section Extensible

variable {cs rest : List Char}

/-- **The longest attribute at the start is read,** if there is one. -/
theorem readAttribute_iff {subject : Option (List Char)} : readAttribute cs = (subject, rest) ↔
    cs = subject.getD [] ++ rest ∧ (∀ a ∈ subject, IsWord isAttributeChar a) ∧
      ∀ c ∈ rest.head?, isAttributeChar c = false := by
  rw [readAttribute]
  cases h : readSome isAttributeChar cs with
  | none =>
    have hhead := readSome_eq_none.1 h
    constructor
    · rintro ⟨⟩
      exact ⟨rfl, fun a ha => (nomatch ha), hhead⟩
    · rintro ⟨rfl, ha, hrest⟩
      cases subject with
      | none => rfl
      | some a =>
        rw [Option.getD_some, readSome_iff.2 ⟨rfl, ha a rfl, hrest⟩] at h
        cases h
  | some x =>
    obtain ⟨a, ds⟩ := x
    obtain ⟨rfl, ha, hds⟩ := readSome_iff.1 h
    constructor
    · rintro ⟨⟩
      exact ⟨rfl, fun b hb => Option.mem_some.1 hb ▸ ha, hds⟩
    · rintro ⟨hcs, hb, hrest⟩
      cases subject with
      | none =>
        rw [readSome_eq_none.2 (hcs ▸ hrest)] at h
        cases h
      | some b =>
        rw [readSome_iff.2 ⟨hcs, hb b rfl, hrest⟩] at h
        cases h
        rfl

/-- **A rule in front of the sign is read.** -/
theorem readRule_iff {rule : Option (List Char)} : readRule cs = (rule, ':' :: '=' :: rest) ↔
    cs = rule.elim [] (':' :: ·) ++ ':' :: '=' :: rest ∧ ∀ r ∈ rule, IsWord isRuleChar r := by
  constructor
  · intro h
    unfold readRule at h
    split at h
    · split at h
      · rename_i hread
        cases h
        obtain ⟨rfl, hr, _⟩ := readSome_iff.1 hread
        exact ⟨rfl, fun r h => Option.mem_some.1 h ▸ hr⟩
      · cases h
        exact ⟨rfl, fun r hr => (nomatch hr)⟩
    · cases h
      exact ⟨rfl, fun r hr => (nomatch hr)⟩
  · rintro ⟨rfl, hr⟩
    cases rule with
    | none => rfl
    | some r =>
      have hread : readSome isRuleChar (r ++ ':' :: '=' :: rest) = some (r, ':' :: '=' :: rest) :=
        readSome_iff.2 ⟨rfl, hr r rfl, by rintro _ ⟨⟩; decide⟩
      simp only [Option.elim_some, List.cons_append, readRule, hread]

/-- The text begins with the mark, and a colon follows it. -/
def Marked (cs : List Char) : Prop :=
  ∃ d n ds, cs = ':' :: d :: n :: ':' :: ds ∧ d.toLower = 'd' ∧ n.toLower = 'n'

/-- **The mark is read if a colon follows it.** -/
theorem readNameMark_iff {inName : Bool} : readNameMark cs = (inName, rest) ↔
    ∃ mark, cs = mark ++ rest ∧ Mark mark inName ∧ (inName = true → ∃ ds, rest = ':' :: ds) ∧
      (inName = false → ¬Marked cs) := by
  constructor
  · intro h
    unfold readNameMark at h
    split at h
    · rename_i d n ds
      split at h
      · rename_i hdn
        cases h
        exact ⟨[':', d, n], rfl, .dn hdn.1 hdn.2, fun _ => ⟨ds, rfl⟩, fun h => (nomatch h)⟩
      · rename_i hdn
        cases h
        refine ⟨[], rfl, .none, fun h => (nomatch h), ?_⟩
        rintro - ⟨_, _, _, ⟨⟩, hmark⟩
        exact hdn hmark
    · rename_i hother
      cases h
      refine ⟨[], rfl, .none, fun h => (nomatch h), ?_⟩
      rintro - ⟨d, n, ds, rfl, _⟩
      exact hother d n ds rfl
  · rintro ⟨_, rfl, hmark, hcolon, hnot⟩
    cases hmark with
    | none =>
      rw [List.nil_append] at hnot ⊢
      unfold readNameMark
      split
      · exact if_neg fun hdn => hnot rfl ⟨_, _, _, rfl, hdn⟩
      · rfl
    | dn hd hn =>
      obtain ⟨ds, rfl⟩ := hcolon rfl
      exact if_pos ⟨hd, hn⟩

/-- In front of the sign, a rule is taken for the mark if it has its letters. -/
theorem marked_iff {rule : Option (List Char)} (hrule : ∀ r ∈ rule, IsWord isRuleChar r) :
    Marked (rule.elim [] (':' :: ·) ++ ':' :: '=' :: cs) ↔
      ∃ r ∈ rule, r.map Char.toLower = ['d', 'n'] := by
  constructor
  · rintro ⟨d, n, ds, h, hd, hn⟩
    cases rule with
    | none =>
      cases h
      exact absurd hd (by decide)
    | some r =>
      refine ⟨r, rfl, ?_⟩
      have hcolon : ':' ∉ r := fun hmem => absurd ((hrule r rfl).letters _ hmem) (by decide)
      rw [Option.elim_some, List.cons_append, List.cons_inj_right] at h
      rcases r with _ | ⟨x, _ | ⟨y, _ | ⟨z, r⟩⟩⟩
      · exact absurd rfl (hrule _ rfl).ne_nil
      · cases h
      · cases h
        rw [List.map_cons, List.map_cons, hd, hn, List.map_nil]
      · cases h
        exact absurd (.tail _ (.tail _ (.head _))) hcolon
  · rintro ⟨r, hr, hdn⟩
    obtain rfl := Option.mem_def.1 hr
    obtain ⟨d, _, rfl, hd, hrest⟩ := List.map_eq_cons_iff.1 hdn
    obtain ⟨n, _, rfl, hn, htail⟩ := List.map_eq_cons_iff.1 hrest
    obtain rfl := List.map_eq_nil_iff.1 htail
    exact ⟨d, n, _, rfl, hd, hn⟩

theorem readMark_iff {inName : Bool} {rule : Option (List Char)} :
    (∃ ds, readNameMark cs = (inName, ds) ∧ readRule ds = (rule, ':' :: '=' :: rest)) ↔
      ∃ mark, cs = mark ++ (rule.elim [] (':' :: ·) ++ ':' :: '=' :: rest) ∧ Mark mark inName ∧
        ∀ r ∈ rule, IsRule inName r := by
  constructor
  · rintro ⟨ds, hmark, hrule⟩
    obtain ⟨rfl, hword⟩ := readRule_iff.1 hrule
    obtain ⟨mark, rfl, hmark, _, hnot⟩ := readNameMark_iff.1 hmark
    refine ⟨mark, rfl, hmark, fun r hr => ⟨(hword r hr).ne_nil, (hword r hr).letters, ?_⟩⟩
    rintro rfl hdn
    cases hmark
    exact hnot rfl ((marked_iff hword).2 ⟨r, hr, hdn⟩)
  · rintro ⟨mark, rfl, hmark, hrule⟩
    have hword : ∀ r ∈ rule, IsWord isRuleChar r := fun r hr =>
      ⟨(hrule r hr).ne_nil, (hrule r hr).letters⟩
    refine ⟨_, readNameMark_iff.2 ⟨mark, rfl, hmark, fun _ => ?_, ?_⟩, readRule_iff.2 ⟨rfl, hword⟩⟩
    · cases rule with
      | none => exact ⟨_, rfl⟩
      | some r => exact ⟨_, rfl⟩
    · rintro rfl h
      cases hmark
      obtain ⟨r, hr, hdn⟩ := (marked_iff hword).1 h
      exact (hrule r hr).not_mark rfl hdn

/-- The mark, a rule and the sign: whichever comes first begins with a colon. -/
theorem exists_eq_colon {mark : List Char} {inName : Bool} (hmark : Mark mark inName)
    (rule : Option (List Char)) (cs : List Char) :
    ∃ ds, mark ++ (rule.elim [] (':' :: ·) ++ ':' :: cs) = ':' :: ds := by
  cases hmark with
  | dn _ _ => exact ⟨_, rfl⟩
  | none =>
    cases rule with
    | none => exact ⟨_, rfl⟩
    | some r => exact ⟨_, rfl⟩

/-- **The longest extensible assertion at the start is read.** -/
theorem readExtensible?_iff {f : Filter} : readExtensible? cs = some (f, rest) ↔
    ∃ text, cs = text ++ rest ∧ Extensible text f ∧ ∀ c ∈ rest.head?, isValueChar c = false := by
  constructor
  · intro h
    unfold readExtensible? at h
    rcases hattribute : readAttribute cs with ⟨subject, cs₁⟩
    rcases hmark : readNameMark cs₁ with ⟨inName, cs₂⟩
    rcases hrule : readRule cs₂ with ⟨rule, cs₃⟩
    simp only [hattribute, hmark, hrule] at h
    split at h
    · rename_i cs₄
      split at h
      · cases h
      · rename_i hone
        simp only [Option.bind_eq_bind, Option.bind_eq_some_iff, Option.pure_def, Option.some.injEq,
          Prod.mk.injEq] at h
        obtain ⟨v, hv, rfl, rfl⟩ := h
        obtain ⟨rfl, hsubject, _⟩ := readAttribute_iff.1 hattribute
        obtain ⟨mark, rfl, hmark, hrule⟩ := readMark_iff.1 ⟨cs₂, hmark, hrule⟩
        have hvalue := (readValue?_iff (List.all_eq_true.1 List.all_takeWhile)).1 hv
        refine ⟨_, ?_, .mk hsubject hmark hrule ?_ hvalue, Text.first_dropWhile _ _⟩
        · simp only [List.append_assoc, List.cons_append, List.takeWhile_append_dropWhile]
        · cases subject with
          | some _ => exact .inl (Option.some_ne_none _)
          | none =>
            cases rule with
            | some _ => exact .inr (Option.some_ne_none _)
            | none => exact absurd rfl hone
    · cases h
  · rintro ⟨_, rfl, @⟨subject, rule, mark, raw, inName, v, hsubject, hmark, hrule, hone, hv⟩, hrest⟩
    obtain ⟨bytes, hraw, _⟩ := id hv
    obtain ⟨htake, hdrop⟩ := takeWhile_append hraw.isValueChar hrest
    obtain ⟨ds, hds⟩ := exists_eq_colon hmark rule ('=' :: (raw ++ rest))
    have hattribute : readAttribute (subject.getD [] ++ ':' :: ds) = (subject, ':' :: ds) :=
      readAttribute_iff.2 ⟨rfl, hsubject, by rintro _ ⟨⟩; decide⟩
    obtain ⟨es, hmark, hrule⟩ := readMark_iff.2 ⟨mark, hds.symm, hmark, hrule⟩
    have hsome : (subject.isNone && rule.isNone) = false := by
      rw [Bool.and_eq_false_iff, Option.isNone_eq_false_iff, Option.isNone_eq_false_iff,
        Option.isSome_iff_ne_none, Option.isSome_iff_ne_none]
      exact hone
    simp only [List.append_assoc, List.cons_append, hds, readExtensible?, hattribute, hmark, hrule,
      hsome, htake, hdrop, (readValue?_iff hraw.isValueChar).2 hv, Bool.false_eq_true, if_false,
      Option.bind_eq_bind, Option.bind_some, Option.pure_def]

end Extensible

/-! ## Both kinds -/

section Assertions

variable {text : List Char} {f : Filter}

theorem Item.exists_cons (h : Item text f) :
    ∃ c ds, text = c :: ds ∧ isAttributeChar c = true := by
  obtain @⟨a, raw, op, f, ha, -, -⟩ := h
  obtain ⟨c, a, rfl⟩ := List.exists_cons_of_ne_nil ha.ne_nil
  exact ⟨c, _, rfl, ha.letters c (.head _)⟩

theorem Extensible.exists_cons (h : Extensible text f) :
    ∃ c ds, text = c :: ds ∧ (isAttributeChar c = true ∨ c = ':') := by
  obtain @⟨subject, rule, mark, raw, inName, v, hsubject, hmark, -, -, -⟩ := h
  cases subject with
  | none =>
    obtain ⟨ds, hds⟩ := exists_eq_colon hmark rule ('=' :: raw)
    exact ⟨':', ds, hds, .inr rfl⟩
  | some a =>
    have ha := hsubject a rfl
    obtain ⟨c, a, rfl⟩ := List.exists_cons_of_ne_nil ha.ne_nil
    exact ⟨c, _, rfl, .inl (ha.letters c (.head _))⟩

theorem Item.readExtensible?_eq_none (h : Item text f) (rest : List Char) :
    readExtensible? (text ++ rest) = none := by
  obtain @⟨a, raw, op, f, ha, -, -⟩ := h
  have hattribute : readAttribute (a ++ (op.sign ++ (raw ++ rest))) =
      (some a, op.sign ++ (raw ++ rest)) :=
    readAttribute_iff.2 ⟨rfl, fun b hb => Option.mem_some.1 hb ▸ ha,
      fun c hc => (head?_sign op _ c hc).1⟩
  simp only [readExtensible?, List.append_assoc, hattribute]
  cases op <;> rfl

/-- **An assertion at the start is read,** of whichever kind it is. -/
theorem readAssertion?_iff {cs rest : List Char} :
    (readExtensible? cs <|> readItem? cs) = some (f, rest) ↔
      ∃ text, cs = text ++ rest ∧ (Item text f ∨ Extensible text f) ∧
        ∀ c ∈ rest.head?, isValueChar c = false := by
  constructor
  · intro h
    cases hextensible : readExtensible? cs with
    | some x =>
      rw [hextensible] at h
      cases h
      obtain ⟨text, hcs, htext, hrest⟩ := readExtensible?_iff.1 hextensible
      exact ⟨text, hcs, .inr htext, hrest⟩
    | none =>
      rw [hextensible] at h
      obtain ⟨text, hcs, htext, hrest⟩ := readItem?_iff.1 h
      exact ⟨text, hcs, .inl htext, hrest⟩
  · rintro ⟨text, rfl, htext | htext, hrest⟩
    · rw [htext.readExtensible?_eq_none, readItem?_iff.2 ⟨text, rfl, htext, hrest⟩]
      rfl
    · rw [readExtensible?_iff.2 ⟨text, rfl, htext, hrest⟩]
      rfl

end Assertions

end Filter

end Directory
