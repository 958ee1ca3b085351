import Mathlib.Data.List.Chain
import Directory.Text.Blank
import Directory.Text.LowerCase

/-!
# Lower case once and for all

* `CaseRun.IsSound`: what holds of each run of the table: its images are characters that no run
  changes again, and neither they nor what they come from are blanks.
* `CaseRun.checks`: the check of it, which uses that the table is ordered and compares ranges.
* `lowerChar_spec`: **the lower-case form of a character is settled, and blank only if the character
  is**.
* `lowerFrom_eq_self`: a text of settled characters stays as it is.
-/

namespace Directory.Text

/-- Lower-case forms stay: neither the table nor the rule for a capital sigma changes the
character. -/
def Settled (c : Char) : Prop := c ≠ 'Σ' ∧ lowerChar c = [c]

/-! ## The table -/

namespace CaseRun

/-- No image of the run is changed by the other one. -/
def avoids (r s : CaseRun) : Bool :=
  (r.image + (r.last - r.first)).blt s.first || s.last.blt r.image ||
    (s.step == 2 && (r.step == 2 || r.first == r.last) && (r.image + s.first) % 2 == 1)

/-- The codes of blanks. -/
def blanks : List Nat :=
  [9, 10, 11, 12, 13, 0x20, 0x85, 0xa0, 0x1680, 0x2000, 0x2001, 0x2002, 0x2003, 0x2004, 0x2005,
    0x2006, 0x2007, 0x2008, 0x2009, 0x200a, 0x2028, 0x2029, 0x202f, 0x205f, 0x3000]

/-- The codes between two bounds lie on one side of a code. -/
def misses (low high n : Nat) : Bool := n < low || high < n

/-- What holds of each run. -/
def IsSound (r : CaseRun) : Bool :=
  (r.image + (r.last - r.first) < 0xd800 ||
    (0xe000 ≤ r.image && r.image + (r.last - r.first) < 0x110000)) &&
  (0x80 ≤ r.image || (r.first == r.last && r.image == 0x6b)) &&
  misses r.image (r.image + (r.last - r.first)) 0x130 &&
  misses r.image (r.image + (r.last - r.first)) 0x3a3 &&
  (blanks.all fun b => misses r.first r.last b &&
    misses r.image (r.image + (r.last - r.first)) b) &&
  caseRuns.all r.avoids

/-! ### The check -/

/-- Two ranges of codes have none in common. -/
def apart (r s : Nat × Nat) : Bool := r.2.blt s.1 || s.2.blt r.1

/-- The ranges of blanks. -/
def blankRanges : List (Nat × Nat) :=
  [(9, 13), (0x20, 0x20), (0x85, 0x85), (0xa0, 0xa0), (0x1680, 0x1680), (0x2000, 0x200a),
    (0x2028, 0x2029), (0x202f, 0x202f), (0x205f, 0x205f), (0x3000, 0x3000)]

theorem exists_blankRange : ∀ b ∈ blanks, ∃ s ∈ blankRanges, s.1 ≤ b ∧ b ≤ s.2 := by decide

theorem misses_of_apart {low high : Nat} (h : blankRanges.all (apart (low, high)) = true) :
    ∀ b ∈ blanks, misses low high b = true := by
  intro b hb
  obtain ⟨s, hs, hlow, hhigh⟩ := exists_blankRange b hb
  have hs := List.all_eq_true.1 h s hs
  simp only [apart, Bool.or_eq_true, Nat.blt_eq] at hs
  simp only [misses, Bool.or_eq_true, decide_eq_true_eq]
  omega

/-- The run begins with a smaller code than the other one. -/
def Before (r s : CaseRun) : Prop := r.first < s.first

instance : DecidableRel Before := fun r s => inferInstanceAs (Decidable (r.first < s.first))

instance : Trans Before Before Before := ⟨Nat.lt_trans⟩

/-- The run avoids the others of an ordered list. Those with smaller codes are passed, and those
with greater codes are not looked at. -/
def avoidsNear (r : CaseRun) : List CaseRun → Bool
  | [] => true
  | s :: ss =>
    bif s.last.blt r.image then avoidsNear r ss
    else (r.image + (r.last - r.first)).blt s.first || (r.avoids s && avoidsNear r ss)

theorem avoids_of_avoidsNear {r : CaseRun} {ss : List CaseRun}
    (hss : ss.Pairwise Before) (h : r.avoidsNear ss = true) :
    ss.all r.avoids = true := by
  induction ss with
  | nil => rfl
  | cons s ss ih =>
    obtain ⟨hs, hss⟩ := List.pairwise_cons.1 hss
    rw [avoidsNear] at h
    rw [List.all_cons, Bool.and_eq_true]
    cases hpass : s.last.blt r.image with
    | true =>
      rw [hpass, cond_true] at h
      exact ⟨by simp [avoids, hpass], ih hss h⟩
    | false =>
      rw [hpass, cond_false, Bool.or_eq_true, Bool.and_eq_true] at h
      rcases h with h | ⟨h, hrest⟩
      · have hbeyond : r.image + (r.last - r.first) < s.first := by rwa [Nat.blt_eq] at h
        refine ⟨by simp [avoids, h], List.all_eq_true.2 fun t ht => ?_⟩
        have hbeyond := Nat.lt_trans hbeyond (hs t ht)
        rw [← Nat.blt_eq] at hbeyond
        simp [avoids, hbeyond]
      · exact ⟨h, ih hss hrest⟩

theorem pairwise_caseRuns : caseRuns.Pairwise Before :=
  List.isChain_iff_pairwise.1 (by decide +kernel)

/-- What holds of the run by itself. -/
def inPlace (r : CaseRun) : Bool :=
  (r.image + (r.last - r.first) < 0xd800 ||
    (0xe000 ≤ r.image && r.image + (r.last - r.first) < 0x110000)) &&
  (0x80 ≤ r.image || (r.first == r.last && r.image == 0x6b)) &&
  misses r.image (r.image + (r.last - r.first)) 0x130 &&
  misses r.image (r.image + (r.last - r.first)) 0x3a3

/-- What is checked of the run. -/
def checks (r : CaseRun) : Bool :=
  r.inPlace && blankRanges.all (apart (r.first, r.last)) &&
    blankRanges.all (apart (r.image, r.image + (r.last - r.first))) && r.avoidsNear caseRuns

theorem all_checks : caseRuns.all checks = true := by decide +kernel

theorem all_isSound : caseRuns.all IsSound = true := by
  refine List.all_eq_true.2 fun r hr => ?_
  have hchecks := List.all_eq_true.1 all_checks r hr
  simp only [checks, Bool.and_eq_true] at hchecks
  obtain ⟨⟨⟨hplace, hfrom⟩, hto⟩, hnear⟩ := hchecks
  show (r.inPlace && (blanks.all fun b => misses r.first r.last b &&
    misses r.image (r.image + (r.last - r.first)) b) && caseRuns.all r.avoids) = true
  rw [Bool.and_eq_true, Bool.and_eq_true, List.all_eq_true]
  exact ⟨⟨hplace, fun b hb => Bool.and_eq_true_iff.2 ⟨misses_of_apart hfrom b hb,
    misses_of_apart hto b hb⟩⟩, avoids_of_avoidsNear pairwise_caseRuns hnear⟩

/-! ### Images -/

theorem map?_eq_some {r : CaseRun} {n m : Nat} :
    r.map? n = some m ↔ r.first ≤ n ∧ n ≤ r.last ∧ (n - r.first) % r.step = 0 ∧
      m = r.image + (n - r.first) := by
  unfold map?
  split
  · rename_i h
    simp [h, eq_comm]
  · rename_i h
    simp only [reduceCtorEq, false_iff]
    exact fun h' => h ⟨h'.1, h'.2.1, h'.2.2.1⟩

theorem avoids_spec {r s : CaseRun} (h : r.avoids s = true) {n m : Nat} (hm : r.map? n = some m) :
    s.map? m = none := by
  obtain ⟨hfirst, hlast, hstep, rfl⟩ := map?_eq_some.1 hm
  refine Option.eq_none_iff_forall_ne_some.2 fun k hk => ?_
  obtain ⟨hfirst', hlast', hstep', _⟩ := map?_eq_some.1 hk
  unfold avoids at h
  simp only [Bool.or_eq_true, Bool.and_eq_true, Nat.blt_eq, beq_iff_eq] at h
  rcases h with (h | h) | ⟨⟨h, h'⟩, h''⟩
  · omega
  · omega
  · rw [h] at hstep'
    rcases h' with h' | h'
    · rw [h'] at hstep
      omega
    · omega

end CaseRun

/-! ## Characters -/

theorem isBlank_iff {c : Char} : isBlank c = true ↔ c.toNat ∈ CaseRun.blanks := by
  have hfew : 9 ≤ c.toNat ∧ c.toNat ≤ 13 ↔ c.toNat = 9 ∨ c.toNat = 10 ∨ c.toNat = 11 ∨
      c.toNat = 12 ∨ c.toNat = 13 := by omega
  have hmany : 0x2000 ≤ c.toNat ∧ c.toNat ≤ 0x200a ↔ c.toNat = 0x2000 ∨ c.toNat = 0x2001 ∨
      c.toNat = 0x2002 ∨ c.toNat = 0x2003 ∨ c.toNat = 0x2004 ∨ c.toNat = 0x2005 ∨
      c.toNat = 0x2006 ∨ c.toNat = 0x2007 ∨ c.toNat = 0x2008 ∨ c.toNat = 0x2009 ∨
      c.toNat = 0x200a := by omega
  unfold isBlank CaseRun.blanks
  simp only [Bool.or_eq_true, Bool.and_eq_true, decide_eq_true_eq, beq_iff_eq, List.mem_cons,
    List.not_mem_nil, or_false, hfew, hmany, or_assoc]

/-- The same of a character, as a test. -/
def isSettledAscii (n : Nat) : Bool :=
  let c := Char.ofNat n
  decide (c.toLower.toNat < 0x80) && c.toLower.toLower == c.toLower && c.toLower != 'Σ' &&
    isBlank c.toLower == isBlank c

theorem all_isSettledAscii : (List.range 0x80).all isSettledAscii = true := by decide +kernel

theorem toLower_spec {c : Char} (h : c.toNat < 0x80) :
    Settled c.toLower ∧ isBlank c.toLower = isBlank c := by
  have hall := List.all_eq_true.1 all_isSettledAscii c.toNat (List.mem_range.2 h)
  simp only [isSettledAscii, Char.ofNat_toNat, Bool.and_eq_true, decide_eq_true_eq, beq_iff_eq,
    bne_iff_ne] at hall
  obtain ⟨⟨⟨hlow, hlower⟩, hsigma⟩, hblank⟩ := hall
  exact ⟨⟨hsigma, by rw [lowerChar, if_pos hlow, hlower]⟩, hblank⟩

theorem lowerChar_of_none {c : Char} (hlow : ¬c.toNat < 0x80) (hne : c ≠ '\u0130')
    (h : caseRuns.findSome? (·.map? c.toNat) = none) : lowerChar c = [c] := by
  rw [lowerChar, if_neg hlow, if_neg hne, h]

theorem map?_spec {r : CaseRun} (hr : r ∈ caseRuns) {c : Char} {m : Nat}
    (hm : r.map? c.toNat = some m) :
    Settled (Char.ofNat m) ∧ isBlank (Char.ofNat m) = isBlank c := by
  have hsound := List.all_eq_true.1 CaseRun.all_isSound r hr
  simp only [CaseRun.IsSound, CaseRun.misses, Bool.and_eq_true, Bool.or_eq_true,
    decide_eq_true_eq, beq_iff_eq, List.all_eq_true] at hsound
  obtain ⟨⟨⟨⟨⟨hvalid, hascii⟩, hdotted⟩, hsigma⟩, hblank⟩, havoids⟩ := hsound
  obtain ⟨hfirst, hlast, _, heq⟩ := CaseRun.map?_eq_some.1 hm
  have hchar : (Char.ofNat m).toNat = m := by
    have hchar : m.isValidChar := by
      rcases hvalid with h | h
      · exact .inl (by omega)
      · exact .inr ⟨by omega, by omega⟩
    rw [Char.ofNat, dif_pos hchar]
    rfl
  have hnotBlank : ∀ b ∈ CaseRun.blanks, c.toNat ≠ b ∧ m ≠ b := by
    intro b hb
    have := hblank b hb
    omega
  have hne : ∀ n, m ≠ n → ∀ d : Char, d.toNat = n → Char.ofNat m ≠ d := by
    intro n hmn d hd h
    exact hmn (by rw [← hchar, h, hd])
  refine ⟨⟨hne 0x3a3 (by omega) 'Σ' rfl, ?_⟩, ?_⟩
  · by_cases hlow : m < 0x80
    · have hk : m = 0x6b := by omega
      rw [hk]
      decide +kernel
    · refine lowerChar_of_none (by rw [hchar]; exact hlow) (hne 0x130 (by omega) _ rfl) ?_
      rw [hchar, List.findSome?_eq_none_iff]
      exact fun s hs => CaseRun.avoids_spec (havoids s hs) hm
  · have hm' : isBlank (Char.ofNat m) = false := Bool.eq_false_iff.2 fun h =>
      (hnotBlank _ (isBlank_iff.1 h)).2 hchar.symm
    have hc' : isBlank c = false := Bool.eq_false_iff.2 fun h =>
      (hnotBlank _ (isBlank_iff.1 h)).1 rfl
    rw [hm', hc']

/-- **The lower-case form of a character** other than a capital sigma. -/
theorem lowerChar_spec {c d : Char} (hc : c ≠ 'Σ') (hd : d ∈ lowerChar c) :
    Settled d ∧ isBlank d = isBlank c := by
  by_cases hlow : c.toNat < 0x80
  · rw [lowerChar, if_pos hlow] at hd
    obtain rfl := List.mem_singleton.1 hd
    exact toLower_spec hlow
  · by_cases hdotted : c = '\u0130'
    · subst hdotted
      rw [lowerChar, if_neg hlow, if_pos rfl] at hd
      rcases List.mem_cons.1 hd with rfl | hd
      · exact ⟨⟨by decide, by decide +kernel⟩, by decide +kernel⟩
      · obtain rfl := List.mem_singleton.1 hd
        exact ⟨⟨by decide, by decide +kernel⟩, by decide +kernel⟩
    · cases hm : caseRuns.findSome? (·.map? c.toNat) with
      | none =>
        have hsame := lowerChar_of_none hlow hdotted hm
        rw [hsame] at hd
        obtain rfl := List.mem_singleton.1 hd
        exact ⟨⟨hc, hsame⟩, rfl⟩
      | some m =>
        rw [lowerChar, if_neg hlow, if_neg hdotted, hm] at hd
        obtain rfl := List.mem_singleton.1 hd
        obtain ⟨r, hr, hm⟩ := List.exists_of_findSome?_eq_some hm
        exact map?_spec hr hm

theorem lowerChar_ne_nil (c : Char) : lowerChar c ≠ [] := by
  unfold lowerChar
  split
  · exact List.cons_ne_nil _ _
  · split
    · exact List.cons_ne_nil _ _
    · split <;> exact List.cons_ne_nil _ _

/-! ## Texts -/

/-- What a character becomes, with what is before and behind it. -/
def lowerAt (before : List Char) (c : Char) (behind : List Char) : List Char :=
  if c = 'Σ' then if meetsCased before && !meetsCased behind then ['ς'] else ['σ']
  else lowerChar c

theorem lowerFrom_cons (before : List Char) (c : Char) (cs : List Char) :
    lowerFrom before (c :: cs) = lowerAt before c cs ++ lowerFrom (c :: before) cs := rfl

theorem lowerAt_spec {before behind : List Char} {c d : Char} (hd : d ∈ lowerAt before c behind) :
    Settled d ∧ isBlank d = isBlank c := by
  unfold lowerAt at hd
  split at hd
  · rename_i hc
    subst hc
    split at hd <;> obtain rfl := List.mem_singleton.1 hd <;>
      exact ⟨⟨by decide, by decide +kernel⟩, by decide +kernel⟩
  · rename_i hc
    exact lowerChar_spec hc hd

theorem lowerAt_ne_nil (before : List Char) (c : Char) (behind : List Char) :
    lowerAt before c behind ≠ [] := by
  unfold lowerAt
  split
  · split <;> exact List.cons_ne_nil _ _
  · exact lowerChar_ne_nil c

theorem settled_of_mem_lowerFrom {before cs : List Char} {d : Char}
    (hd : d ∈ lowerFrom before cs) : Settled d := by
  induction cs generalizing before with
  | nil => cases hd
  | cons c cs ih =>
    rw [lowerFrom_cons, List.mem_append] at hd
    rcases hd with hd | hd
    · exact (lowerAt_spec hd).1
    · exact ih hd

/-- A text of settled characters stays as it is. -/
theorem lowerFrom_eq_self {before cs : List Char} (h : ∀ c ∈ cs, Settled c) :
    lowerFrom before cs = cs := by
  induction cs generalizing before with
  | nil => rfl
  | cons c cs ih =>
    obtain ⟨hsigma, hsame⟩ := h c (.head _)
    rw [lowerFrom_cons, lowerAt, if_neg hsigma, hsame, ih fun d hd => h d (.tail _ hd)]
    rfl

theorem lowerChars_lowerChars (cs : List Char) : lowerChars (lowerChars cs) = lowerChars cs :=
  lowerFrom_eq_self fun _ hc => settled_of_mem_lowerFrom hc

end Directory.Text
