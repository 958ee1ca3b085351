import Directory.Proofs.Text.Folded

/-!
# Texts that are cut

* `FoldPlace`, `foldFrom`: folding as one pass that knows whether it is before the first word, in a
  word or in a gap; `foldChars_eq_foldFrom`.
* `foldChars_append`: **a text is folded piece by piece**.
* `lowerChars_foldChars`: **lower case and folding may be done in either order**, since a blank
  hides the letters on one side of it from a capital sigma on the other;
  `trimmed_lowerChars_foldChars`, `foldChars_lowerChars_foldChars` follow.
* `lowerWithin`: the lower-case form of a piece where it stands; `KeepsSigmas.lowerWithin_eq`: it is
  that of the piece by itself if no capital sigma of it ends a word only here or only there.
  `KeptPieces.lower` puts the pieces of a text together.
-/

namespace Directory.Text

/-! ## Folding in one pass -/

/-- Where a text is being read: before its first word, in a word, or in the gap behind one. -/
inductive FoldPlace where
  | front
  | word
  | gap

namespace FoldPlace

/-- Where a blank leads. -/
def onBlank : FoldPlace → FoldPlace
  | front => front
  | word | gap => gap

/-- What is written in front of a letter. -/
def lead : FoldPlace → List Char
  | front | word => []
  | gap => [' ']

end FoldPlace

/-- What is written of a text that is read from a place on. -/
def foldFrom : FoldPlace → List Char → List Char
  | _, [] => []
  | q, c :: cs =>
    if isBlank c then foldFrom q.onBlank cs else q.lead ++ c :: foldFrom .word cs

variable {q : FoldPlace} {a b c : Char} {cs ds : List Char}

theorem foldFrom_blank (hb : isBlank b = true) :
    foldFrom q (b :: cs) = foldFrom q.onBlank cs := by
  rw [foldFrom, if_pos hb]

theorem foldFrom_letter (hc : isBlank c = false) :
    foldFrom q (c :: cs) = q.lead ++ c :: foldFrom .word cs := by
  rw [foldFrom, hc, if_neg Bool.false_ne_true]

theorem joined_wordsFrom (cs : List Char) :
    (∀ word, joined (wordsFrom word cs) =
      word.reverse ++ foldFrom (if word.isEmpty then .front else .word) cs) ∧
    ∀ w, joined (w :: words cs) = w ++ foldFrom .gap cs := by
  induction cs with
  | nil =>
    refine ⟨fun word => ?_, fun w => (joined_singleton w).trans (List.append_nil w).symm⟩
    cases word with
    | nil => rfl
    | cons d word => exact (joined_singleton _).trans (List.append_nil _).symm
  | cons c cs ih =>
    obtain ⟨ihword, ihgap⟩ := ih
    cases hc : isBlank c with
    | true =>
      refine ⟨fun word => ?_, fun w => ?_⟩
      · rw [wordsFrom, if_pos hc, foldFrom_blank hc]
        cases word with
        | nil => exact ihword []
        | cons d word => exact ihgap (d :: word).reverse
      · rw [words, wordsFrom, if_pos hc, foldFrom_blank hc]
        exact ihgap w
    | false =>
      refine ⟨fun word => ?_, fun w => ?_⟩
      · rw [wordsFrom, hc, if_neg Bool.false_ne_true, ihword, foldFrom_letter hc]
        cases word <;> simp [FoldPlace.lead]
      · have hfirst := ihword [c]
        rw [words, wordsFrom, hc, if_neg Bool.false_ne_true, foldFrom_letter hc]
        cases hwords : wordsFrom [c] cs with
        | nil =>
          rw [hwords] at hfirst
          cases hfirst
        | cons v vs =>
          rw [joined_cons_cons, ← hwords, hfirst]
          rfl

theorem foldChars_eq_foldFrom (cs : List Char) : foldChars cs = foldFrom .front cs :=
  (joined_wordsFrom cs).1 []

/-- Wherever a text is read, it is written the same but for a space in front. -/
theorem foldFrom_place (q : FoldPlace) (cs : List Char) :
    ∃ gap, foldFrom q cs = gap ++ foldChars cs := by
  rw [foldChars_eq_foldFrom]
  induction cs generalizing q with
  | nil => exact ⟨[], rfl⟩
  | cons c cs ih =>
    cases hc : isBlank c with
    | true =>
      rw [foldFrom_blank hc, foldFrom_blank hc]
      exact ih q.onBlank
    | false =>
      rw [foldFrom_letter hc, foldFrom_letter hc]
      exact ⟨q.lead, rfl⟩

theorem foldFrom_append (q : FoldPlace) (cs ds : List Char) :
    ∃ q', foldFrom q (cs ++ ds) = foldFrom q cs ++ foldFrom q' ds := by
  induction cs generalizing q with
  | nil => exact ⟨q, rfl⟩
  | cons c cs ih =>
    rw [List.cons_append]
    cases hc : isBlank c with
    | true =>
      rw [foldFrom_blank hc, foldFrom_blank hc]
      exact ih q.onBlank
    | false =>
      obtain ⟨q', hq'⟩ := ih .word
      refine ⟨q', ?_⟩
      rw [foldFrom_letter hc, foldFrom_letter hc, hq', List.append_assoc]
      rfl

/-- **A text is folded piece by piece**: the folded pieces are next to each other, or apart by the
space between two words. -/
theorem foldChars_append (cs ds : List Char) :
    ∃ gap, foldChars (cs ++ ds) = foldChars cs ++ (gap ++ foldChars ds) := by
  obtain ⟨q, hq⟩ := foldFrom_append .front cs ds
  obtain ⟨gap, hgap⟩ := foldFrom_place q ds
  refine ⟨gap, ?_⟩
  rw [foldChars_eq_foldFrom (cs ++ ds), hq, hgap, foldChars_eq_foldFrom cs]

/-! ## Lower case around blanks -/

/-- A blank has no case and is not skipped, as a test of its code. -/
def isPlainBlank (n : Nat) : Bool :=
  lowerChar (Char.ofNat n) == [Char.ofNat n] && !inRanges ignorableRanges n &&
    !inRanges casedRanges n

theorem not_inRanges_of_apart {rs : List (Nat × Nat)}
    (h : (rs.all fun r => CaseRun.blankRanges.all (CaseRun.apart r)) = true) :
    ∀ b ∈ CaseRun.blanks, inRanges rs b = false := by
  intro b hb
  rw [inRanges, List.any_eq_false]
  intro r hr hmem
  have hmisses := CaseRun.misses_of_apart (List.all_eq_true.1 h r hr) b hb
  simp only [CaseRun.misses, Bool.or_eq_true, decide_eq_true_eq] at hmisses
  simp only [Bool.and_eq_true, decide_eq_true_eq] at hmem
  omega

theorem all_isPlainBlank : CaseRun.blanks.all isPlainBlank = true := by
  have hlower : (CaseRun.blanks.all fun n => lowerChar (Char.ofNat n) == [Char.ofNat n]) = true := by
    decide +kernel
  refine List.all_eq_true.2 fun b hb => ?_
  rw [isPlainBlank, List.all_eq_true.1 hlower b hb, not_inRanges_of_apart (by decide +kernel) b hb,
    not_inRanges_of_apart (by decide +kernel) b hb]
  rfl

theorem blank_spec (hb : isBlank b = true) : lowerChar b = [b] ∧
    inRanges ignorableRanges b.toNat = false ∧ inRanges casedRanges b.toNat = false := by
  have h := List.all_eq_true.1 all_isPlainBlank b.toNat (isBlank_iff.1 hb)
  simp only [isPlainBlank, Char.ofNat_toNat, Bool.and_eq_true, beq_iff_eq,
    Bool.not_eq_true'] at h
  exact ⟨h.1.1, h.1.2, h.2⟩

theorem lowerAt_blank (hb : isBlank b = true) (before behind : List Char) :
    lowerAt before b behind = [b] := by
  rw [lowerAt, if_neg, (blank_spec hb).1]
  rintro rfl
  exact absurd hb (by decide)

theorem meetsCased_blank (hb : isBlank b = true) (cs : List Char) :
    meetsCased (b :: cs) = false := by
  obtain ⟨_, hskipped, hcased⟩ := blank_spec hb
  rw [meetsCased, hskipped, if_neg Bool.false_ne_true, hcased]

theorem meetsCased_append_blank (hb : isBlank b = true) (cs ds : List Char) :
    meetsCased (cs ++ b :: ds) = meetsCased cs := by
  induction cs with
  | nil => exact meetsCased_blank hb ds
  | cons c cs ih => rw [List.cons_append, meetsCased, meetsCased, ih]

theorem lowerAt_congr {before before' behind behind' : List Char}
    (hbefore : meetsCased before' = meetsCased before)
    (hbehind : meetsCased behind' = meetsCased behind) :
    lowerAt before' c behind' = lowerAt before c behind := by
  rw [lowerAt, lowerAt, hbefore, hbehind]

/-- Whatever is read next, the letters before it look the same. -/
def SameBefore (before before' : List Char) : Prop :=
  ∀ us, meetsCased (us ++ before) = meetsCased (us ++ before')

theorem SameBefore.cons {before before' : List Char} (h : SameBefore before before') :
    SameBefore (c :: before) (c :: before') := by
  intro us
  have hus := h (us ++ [c])
  rwa [List.append_assoc, List.append_assoc] at hus

theorem sameBefore_blank (ha : isBlank a = true) (hb : isBlank b = true) (before before') :
    SameBefore (a :: before) (b :: before') := by
  intro us
  rw [meetsCased_append_blank ha, meetsCased_append_blank hb]

theorem sameBefore_nil_blank (hb : isBlank b = true) (before) : SameBefore [] (b :: before) := by
  intro us
  rw [meetsCased_append_blank hb, List.append_nil]

theorem meetsCased_foldFrom_gap (cs : List Char) : meetsCased (foldFrom .gap cs) = false := by
  induction cs with
  | nil => rfl
  | cons c cs ih =>
    cases hc : isBlank c with
    | true =>
      rw [foldFrom_blank hc]
      exact ih
    | false =>
      rw [foldFrom_letter hc]
      exact meetsCased_blank isBlank_space _

/-- Folding the rest of a text does not change what a word in front of it meets. -/
theorem meetsCased_foldFrom_word (cs : List Char) :
    meetsCased (foldFrom .word cs) = meetsCased cs := by
  induction cs with
  | nil => rfl
  | cons c cs ih =>
    cases hc : isBlank c with
    | true =>
      rw [foldFrom_blank hc, meetsCased_blank hc]
      exact meetsCased_foldFrom_gap cs
    | false =>
      rw [foldFrom_letter hc]
      show meetsCased (c :: foldFrom .word cs) = meetsCased (c :: cs)
      rw [meetsCased, meetsCased, ih]

/-- Letters are written as they are, behind what the first of them needs. -/
theorem foldFrom_letters {w : List Char} (hne : w ≠ []) (hw : ∀ c ∈ w, isBlank c = false) :
    foldFrom q (w ++ cs) = q.lead ++ (w ++ foldFrom .word cs) := by
  induction w generalizing q with
  | nil => exact absurd rfl hne
  | cons c w ih =>
    rw [List.cons_append, foldFrom_letter (hw c (.head _))]
    cases w with
    | nil => rfl
    | cons d w =>
      rw [ih (List.cons_ne_nil d w) fun d hd => hw d (.tail _ hd)]
      rfl

/-- Lower case of what a pass writes, where the letters before it look as those of the text: a pass
over the text in lower case. -/
theorem lowerFrom_foldFrom {before before' : List Char} (hfront : q = .front → before = [])
    (h : SameBefore (q.lead ++ before) before') (cs : List Char) :
    lowerFrom before (foldFrom q cs) = foldFrom q (lowerFrom before' cs) := by
  induction cs generalizing q before before' with
  | nil => rfl
  | cons c cs ih =>
    cases hc : isBlank c with
    | true =>
      rw [foldFrom_blank hc, lowerFrom_cons, lowerAt_blank hc]
      refine Eq.trans ?_ (foldFrom_blank hc).symm
      refine ih (fun hq => ?_) ?_
      · cases q with
        | front => exact hfront rfl
        | word | gap => cases hq
      · cases q with
        | front =>
          rw [hfront rfl]
          exact sameBefore_nil_blank hc before'
        | word | gap => exact sameBefore_blank isBlank_space hc before before'
    | false =>
      have hlead : lowerFrom before (q.lead ++ c :: foldFrom .word cs) =
          q.lead ++ lowerFrom (q.lead ++ before) (c :: foldFrom .word cs) := by
        cases q with
        | front | word => rfl
        | gap =>
          show lowerFrom before (' ' :: c :: foldFrom .word cs) = _
          rw [lowerFrom_cons, lowerAt_blank isBlank_space]
          rfl
      have hletter : lowerAt (q.lead ++ before) c (foldFrom .word cs) = lowerAt before' c cs :=
        lowerAt_congr (h []) (meetsCased_foldFrom_word cs)
      rw [foldFrom_letter hc, hlead, lowerFrom_cons, hletter, lowerFrom_cons,
        foldFrom_letters (lowerAt_ne_nil before' c cs) fun d hd => (lowerAt_spec hd).2.trans hc,
        ih (q := .word) nofun h.cons]

/-- **Lower case and folding** may be done in either order. -/
theorem lowerChars_foldChars (cs : List Char) :
    lowerChars (foldChars cs) = foldChars (lowerChars cs) := by
  rw [foldChars_eq_foldFrom, foldChars_eq_foldFrom]
  exact lowerFrom_foldFrom (fun _ => rfl) (fun _ => rfl) cs

/-- The folded lower-case form of a text is made once. -/
theorem foldChars_lowerChars_foldChars (cs : List Char) :
    foldChars (lowerChars (foldChars cs)) = lowerChars (foldChars cs) := by
  rw [lowerChars_foldChars, foldChars_foldChars]

theorem lowerChars_foldChars_eq_nil (hcs : Trimmed cs) :
    lowerChars (foldChars cs) = [] ↔ cs = [] := by
  constructor
  · intro h
    cases cs with
    | nil => rfl
    | cons c cs =>
      rw [foldChars_eq_foldFrom, foldFrom_letter (hcs.first c rfl)] at h
      exact absurd (List.append_eq_nil_iff.1 h).1 (lowerAt_ne_nil [] c _)
  · rintro rfl
    rfl

theorem trimmed_lowerChars_foldChars (cs : List Char) : Trimmed (lowerChars (foldChars cs)) := by
  rw [lowerChars_foldChars]
  exact trimmed_joined (words_words _)

/-! ## Lower case of pieces -/

/-- The lower-case form of a piece with what is before it, last first, and behind it. -/
def lowerWithin (before : List Char) : (cs behind : List Char) → List Char
  | [], _ => []
  | c :: cs, behind => lowerAt before c (cs ++ behind) ++ lowerWithin (c :: before) cs behind

theorem lowerFrom_cut (before cs behind : List Char) : lowerFrom before (cs ++ behind) =
    lowerWithin before cs behind ++ lowerFrom (cs.reverse ++ before) behind := by
  induction cs generalizing before with
  | nil => rfl
  | cons c cs ih =>
    rw [List.cons_append, lowerFrom_cons, ih, lowerWithin, List.append_assoc]
    simp

/-- A capital sigma between these texts, the first one read backwards, is the last of a word. -/
def endsWord (before behind : List Char) : Bool := meetsCased before && !meetsCased behind

/-- Each capital sigma of the piece is the last of a word where the piece stands just if it is so in
the piece by itself. -/
def KeepsSigmas (before cs behind : List Char) : Prop :=
  ∀ us vs, cs = us ++ 'Σ' :: vs →
    endsWord (us.reverse ++ before) (vs ++ behind) = endsWord us.reverse vs

theorem keepsSigmas_of_not_mem (h : 'Σ' ∉ cs) (before behind : List Char) :
    KeepsSigmas before cs behind := by
  rintro us vs rfl
  exact absurd (List.mem_append_right us (.head vs)) h

theorem KeepsSigmas.lowerWithin_eq {before cs behind : List Char}
    (h : KeepsSigmas before cs behind) : lowerWithin before cs behind = lowerChars cs := by
  -- The piece is read from left to right; `us` is the part that is done.
  have hrest : ∀ us vs, cs = us ++ vs →
      lowerWithin (us.reverse ++ before) vs behind = lowerFrom us.reverse vs := by
    intro us vs hcs
    induction vs generalizing us with
    | nil => rfl
    | cons c vs ih =>
      have hat : lowerAt (us.reverse ++ before) c (vs ++ behind) = lowerAt us.reverse c vs := by
        unfold lowerAt
        split
        · rename_i hc
          subst hc
          have hends := h us vs hcs
          unfold endsWord at hends
          rw [hends]
        · rfl
      have hnext := ih (us ++ [c]) (by rw [hcs, List.append_assoc]; rfl)
      rw [List.reverse_append, List.reverse_singleton] at hnext
      rw [lowerWithin, lowerFrom_cons, hat]
      exact congrArg _ hnext
  exact hrest [] cs rfl

/-- A text is cut into five parts. Each capital sigma of the first, the third and the last one is at
the end of a word in the text just if it is so in the part by itself. -/
structure KeptPieces (i x m y t : List Char) : Prop where
  initial : KeepsSigmas [] i (x ++ m ++ y ++ t)
  inner : KeepsSigmas (i ++ x).reverse m (y ++ t)
  final : KeepsSigmas (i ++ x ++ m ++ y).reverse t []

theorem keptPieces_of_not_mem {i x m y t : List Char} (hi : 'Σ' ∉ i) (hm : 'Σ' ∉ m)
    (ht : 'Σ' ∉ t) : KeptPieces i x m y t :=
  ⟨keepsSigmas_of_not_mem hi _ _, keepsSigmas_of_not_mem hm _ _, keepsSigmas_of_not_mem ht _ _⟩

/-- The lower-case form of the text has those of the parts. -/
theorem KeptPieces.lower {i x m y t : List Char} (h : KeptPieces i x m y t) : ∃ gap gap',
    lowerChars (i ++ x ++ m ++ y ++ t) =
      lowerChars i ++ (gap ++ (lowerChars m ++ (gap' ++ lowerChars t))) := by
  have hinitial := h.initial.lowerWithin_eq
  have hinner := h.inner.lowerWithin_eq
  have hfinal := h.final.lowerWithin_eq
  have hend (before) : lowerFrom before t = lowerWithin before t [] := by
    have hcut := lowerFrom_cut before t []
    rwa [List.append_nil, lowerFrom, List.append_nil] at hcut
  refine ⟨lowerWithin i.reverse x (m ++ y ++ t), lowerWithin (i ++ x ++ m).reverse y t, ?_⟩
  rw [lowerChars, List.append_assoc, List.append_assoc, List.append_assoc, lowerFrom_cut,
    lowerFrom_cut, lowerFrom_cut, lowerFrom_cut, hend]
  simp only [List.append_assoc, List.reverse_append, List.append_nil] at hinitial hinner hfinal ⊢
  rw [hinitial, hinner, hfinal]

end Directory.Text
