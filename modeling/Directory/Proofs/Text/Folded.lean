import Directory.Proofs.Text.LowerCase

/-!
# Folded texts

* `Words`: words that are not empty and have no blanks; `joined`: words with one space between any
  two.
* `words_joined`, `foldChars_foldChars`: the words of joined words are these words, so folding is
  done once.
* `Trimmed`, `trimmed_joined`: joined words neither begin nor end with a blank.
-/

namespace Directory.Text

/-- No word is empty or has a blank in it. -/
def Words (ws : List (List Char)) : Prop := ∀ w ∈ ws, w ≠ [] ∧ ∀ c ∈ w, isBlank c = false

/-- The words with a space between any two. -/
def joined (ws : List (List Char)) : List Char := [' '].intercalate ws

theorem foldChars_eq (cs : List Char) : foldChars cs = joined (words cs) := rfl

theorem isBlank_space : isBlank ' ' = true := by decide

theorem joined_cons_cons (v w : List Char) (ws : List (List Char)) :
    joined (v :: w :: ws) = v ++ ' ' :: joined (w :: ws) := by
  rw [joined, List.intercalate_cons_cons, List.append_assoc]
  rfl

theorem joined_singleton (w : List Char) : joined [w] = w := List.intercalate_singleton

/-! ## Words -/

theorem words_wordsFrom {word : List Char} (hword : ∀ c ∈ word, isBlank c = false)
    (cs : List Char) : Words (wordsFrom word cs) := by
  have hone : ∀ word : List Char, (∀ c ∈ word, isBlank c = false) → word.isEmpty = false →
      word.reverse ≠ [] ∧ ∀ c ∈ word.reverse, isBlank c = false := by
    intro word hword hne
    refine ⟨fun h => ?_, fun c hc => hword c (List.mem_reverse.1 hc)⟩
    rw [List.reverse_eq_nil_iff.1 h] at hne
    cases hne
  induction cs generalizing word with
  | nil =>
    rw [wordsFrom]
    split
    · exact fun w hw => nomatch hw
    · rename_i hne
      intro w hw
      obtain rfl := List.mem_singleton.1 hw
      exact hone word hword (Bool.eq_false_iff.2 hne)
  | cons c cs ih =>
    rw [wordsFrom]
    split
    · split
      · exact ih (List.forall_mem_nil _)
      · rename_i hne
        intro w hw
        rcases List.mem_cons.1 hw with rfl | hw
        · exact hone word hword (Bool.eq_false_iff.2 hne)
        · exact ih (List.forall_mem_nil _) w hw
    · rename_i hc
      refine ih fun d hd => ?_
      rcases List.mem_cons.1 hd with rfl | hd
      · exact Bool.eq_false_iff.2 hc
      · exact hword d hd

theorem words_words (cs : List Char) : Words (words cs) :=
  words_wordsFrom (List.forall_mem_nil _) cs

theorem wordsFrom_append {w : List Char} (hw : ∀ c ∈ w, isBlank c = false) (word cs : List Char) :
    wordsFrom word (w ++ cs) = wordsFrom (w.reverse ++ word) cs := by
  induction w generalizing word with
  | nil => rfl
  | cons c w ih =>
    rw [List.cons_append, wordsFrom, hw c (.head _)]
    simp only [Bool.false_eq_true, if_false]
    rw [ih fun d hd => hw d (.tail _ hd)]
    simp

theorem isEmpty_reverse {w : List Char} (h : w ≠ []) : (w.reverse ++ []).isEmpty = false := by
  simpa using h

/-- The words of joined words are these words. -/
theorem words_joined {ws : List (List Char)} (h : Words ws) : words (joined ws) = ws := by
  unfold words
  induction ws with
  | nil => rfl
  | cons w ws ih =>
    obtain ⟨hne, hw⟩ := h w (.head _)
    cases ws with
    | nil =>
      have := wordsFrom_append hw [] []
      rw [List.append_nil] at this
      rw [joined_singleton, this, wordsFrom, isEmpty_reverse hne]
      simp
    | cons v ws =>
      rw [joined_cons_cons, wordsFrom_append hw, wordsFrom, isBlank_space, isEmpty_reverse hne]
      simp only [if_true, Bool.false_eq_true, if_false]
      rw [ih fun w hw => h w (.tail _ hw)]
      simp

theorem foldChars_joined {ws : List (List Char)} (h : Words ws) :
    foldChars (joined ws) = joined ws := by
  rw [foldChars_eq, words_joined h]

theorem foldChars_foldChars (cs : List Char) : foldChars (foldChars cs) = foldChars cs :=
  foldChars_joined (words_words cs)

/-! ## Ends -/

/-- The text neither begins nor ends with a blank. -/
structure Trimmed (cs : List Char) : Prop where
  first : ∀ c ∈ cs.head?, isBlank c = false
  last : ∀ c ∈ cs.getLast?, isBlank c = false

theorem dropWhile_eq_self {p : Char → Bool} {cs : List Char} (h : ∀ c ∈ cs.head?, p c = false) :
    cs.dropWhile p = cs := by
  cases cs with
  | nil => rfl
  | cons c cs => rw [List.dropWhile_cons, h c rfl, if_neg Bool.false_ne_true]

theorem trimChars_eq_self {cs : List Char} (h : Trimmed cs) : trimChars cs = cs := by
  have hlast : ∀ c ∈ cs.reverse.head?, isBlank c = false := by
    rw [List.head?_reverse]
    exact h.last
  rw [trimChars, dropWhile_eq_self h.first, dropWhile_eq_self hlast, List.reverse_reverse]

theorem first_dropWhile (p : Char → Bool) (cs : List Char) :
    ∀ c ∈ (cs.dropWhile p).head?, p c = false := by
  have h := List.head?_dropWhile_not p cs
  intro c hc
  rw [Option.mem_def.1 hc] at h
  simpa using h

theorem trimChars_prefix (cs : List Char) : trimChars cs <+: cs.dropWhile isBlank := by
  refine List.reverse_suffix.1 ?_
  rw [trimChars, List.reverse_reverse]
  exact List.dropWhile_suffix _

theorem trimmed_trimChars (cs : List Char) : Trimmed (trimChars cs) := by
  refine ⟨fun c hc => ?_, ?_⟩
  · obtain ⟨t, ht⟩ := trimChars_prefix cs
    refine first_dropWhile isBlank cs c ?_
    rw [← ht, List.head?_append, Option.mem_def.1 hc]
    rfl
  · rw [trimChars, List.getLast?_reverse]
    exact first_dropWhile _ _

theorem trimmed_joined {ws : List (List Char)} (h : Words ws) : Trimmed (joined ws) := by
  constructor
  · cases ws with
    | nil => exact fun c h => nomatch h
    | cons w ws =>
      obtain ⟨hne, hw⟩ := h w (.head _)
      obtain ⟨d, w, rfl⟩ := List.exists_cons_of_ne_nil hne
      have : (joined ((d :: w) :: ws)).head? = some d := by
        cases ws with
        | nil => rw [joined_singleton]; rfl
        | cons v ws => rw [joined_cons_cons]; rfl
      rw [this]
      rintro c ⟨⟩
      exact hw d (.head _)
  · induction ws with
    | nil => exact fun c h => nomatch h
    | cons w ws ih =>
      obtain ⟨_, hw⟩ := h w (.head _)
      cases ws with
      | nil =>
        rw [joined_singleton]
        exact fun c hc => hw c (List.mem_of_getLast? hc)
      | cons v ws =>
        have hne : joined (v :: ws) ≠ [] := by
          obtain ⟨hv, _⟩ := h v (.tail _ (.head _))
          cases ws with
          | nil => rwa [joined_singleton]
          | cons u ws => simp [joined_cons_cons]
        rw [joined_cons_cons, List.getLast?_append, List.getLast?_cons_of_ne_nil hne]
        intro c hc
        refine ih (fun w hw => h w (.tail _ hw)) c ?_
        simpa [hne] using hc

end Directory.Text
