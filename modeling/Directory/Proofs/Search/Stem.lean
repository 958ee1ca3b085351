import Directory.Filter.Normal
import Directory.Proofs.Name.Reread
import Directory.Search.Candidates

/-!
# Stems

A search for pieces looks among the keys that start with the normal form of the initial piece. The
pieces of a filter in normal form are in normal form themselves, so that leaves no key out.

* `Schema.normalize_piece`: a piece in normal form that has a normal form again keeps it.
* `Pieces.IsNormal`, `Pieces.startsWith_of_fits`: **every key that has the pieces starts with the
  stem**.
-/

namespace Directory

/-! ## Normal forms of normal forms -/

namespace ValueSyntax

variable {x : ValueSyntax} {a : AttributeId}

theorem normalize_normalize {v : Value} {t u : String} (h : x.normalize a v = .ok (.text t))
    (h' : x.normalize a (.text t) = .ok (.text u)) : u = t := by
  cases x with
  | caseIgnore =>
    obtain ⟨s, _, h⟩ := Except.bind_eq_ok.1 h
    obtain rfl := Value.text.inj (Except.ok.inj h)
    obtain rfl := Value.text.inj (Except.ok.inj h')
    refine String.toList_inj.1 ?_
    simp only [Text.lower, Text.fold, String.toList_ofList]
    rw [Text.foldChars_lowerChars_foldChars, Text.lowerChars_lowerChars]
  | caseExact =>
    obtain ⟨s, _, h⟩ := Except.bind_eq_ok.1 h
    obtain rfl := Value.text.inj (Except.ok.inj h)
    obtain rfl := Value.text.inj (Except.ok.inj h')
    refine String.toList_inj.1 ?_
    simp only [Text.fold, String.toList_ofList]
    rw [Text.foldChars_foldChars]
  | integer =>
    obtain ⟨n, _, h⟩ := Except.bind_eq_ok.1 h
    cases h
  | binary => cases h
  | name =>
    obtain ⟨s, _, h⟩ := Except.bind_eq_ok.1 h
    obtain ⟨d, hd, h⟩ := Except.bind_eq_ok.1 h
    cases h
    obtain ⟨_, ht, h'⟩ := Except.bind_eq_ok.1 h'
    cases ht
    obtain ⟨d', hd', h'⟩ := Except.bind_eq_ok.1 h'
    cases h'
    exact Dn.parse_normalized (Dn.parse_isRead hd) hd'

theorem text_of_text {v w k : Value} {t : String} (h : x.normalize a v = .ok (.text t))
    (h' : x.normalize a w = .ok k) : ∃ u, k = .text u := by
  cases x with
  | caseIgnore | caseExact =>
    obtain ⟨s, _, h'⟩ := Except.bind_eq_ok.1 h'
    cases h'
    exact ⟨_, rfl⟩
  | integer =>
    obtain ⟨n, _, h⟩ := Except.bind_eq_ok.1 h
    cases h
  | binary => cases h
  | name =>
    obtain ⟨s, _, h'⟩ := Except.bind_eq_ok.1 h'
    obtain ⟨d, _, h'⟩ := Except.bind_eq_ok.1 h'
    cases h'
    exact ⟨_, rfl⟩

end ValueSyntax

/-! ## Pieces -/

namespace Pieces

/-- The initial piece is the display form of a normal form. -/
def IsNormal (s : Schema) (a : AttributeId) (p : Pieces) : Prop :=
  ∀ t, p.initial = some t → ∃ piece, s.normalizePiece a piece = .ok t

theorem normalize_isNormal {s : Schema} {a : AttributeId} {p q : Pieces}
    (h : p.normalize s a = .ok q) : q.IsNormal s a := by
  obtain ⟨initial, hinitial, h⟩ := Except.bind_eq_ok.1 h
  obtain ⟨inner, _, h⟩ := Except.bind_eq_ok.1 h
  obtain ⟨final, _, h⟩ := Except.bind_eq_ok.1 h
  cases h
  rintro t rfl
  cases hp : p.initial with
  | none =>
    rw [hp] at hinitial
    cases hinitial
  | some piece =>
    rw [hp] at hinitial
    obtain ⟨t', ht', h⟩ := Except.map_eq_ok.1 hinitial
    cases h
    exact ⟨piece, ht'⟩

theorem initial_of_stem {s : Schema} {a : AttributeId} {p : Pieces} (h : p.IsNormal s a)
    {stem : String} (hstem : p.stem? s a = some stem) : p.initial = some stem := by
  obtain ⟨t, ht, hstem⟩ := Option.bind_eq_some_iff.1 hstem
  obtain ⟨v, hv, hstem⟩ := Option.bind_eq_some_iff.1 hstem
  obtain ⟨piece, hpiece⟩ := h t ht
  obtain ⟨w, hw, hdisplay⟩ := Except.bind_eq_ok.1 hpiece
  have hv := Except.toOption_eq_some.1 hv
  cases v with
  | text u =>
    cases hstem
    obtain ⟨t', rfl⟩ := ValueSyntax.text_of_text hv hw
    cases hdisplay
    rw [ht, ValueSyntax.normalize_normalize hw hv, Value.display]
  | _ => cases hstem

/-- **Keys that have the pieces start with the stem.** -/
theorem startsWith_of_fits {s : Schema} {a : AttributeId} {p : Pieces} (h : p.IsNormal s a)
    {v k : Value} (hk : s.normalize a v = .ok k) (hfits : p.fits k = true) :
    (p.stem? s a).all (fun stem => k.startsWith stem) = true := by
  rw [Option.all_eq_true]
  intro stem hstem
  have hinitial := initial_of_stem h hstem
  obtain ⟨_, _, hstem⟩ := Option.bind_eq_some_iff.1 hstem
  obtain ⟨w, hw, hstem⟩ := Option.bind_eq_some_iff.1 hstem
  have hw := Except.toOption_eq_some.1 hw
  cases w with
  | text u =>
    cases hstem
    obtain ⟨t, rfl⟩ := ValueSyntax.text_of_text hw hk
    unfold fits fitsChars at hfits
    rw [hinitial] at hfits
    split at hfits
    · rename_i rest hrest
      unfold afterInitial? at hrest
      split at hrest
      · assumption
      · cases hrest
    · cases hfits
  | _ => cases hstem

end Pieces

end Directory
