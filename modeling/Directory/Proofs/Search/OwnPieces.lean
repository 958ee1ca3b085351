import Directory.Proofs.Filter.Meaning
import Directory.Proofs.Filter.Written
import Directory.Proofs.Text.Cutting

/-!
# Values and pieces of their own

* `Pieces.InOrder.fold`: the pieces of a text, folded, are in the folded text.
* `Pieces.not_fits_binary`: the written form of bytes starts with a sign that is nowhere else in it,
  so bytes have no pieces but an initial one.
* `Evaluator.Decides`: all tests of an entry give an answer; `Evaluator.decides_substring`.
* `Partition.Reachable.own_pieces`: **which values match the pieces that they are cut into**;
  `Partition.LosesPieces`: a value that does not.
-/

namespace Directory

/-! ## Pieces of texts -/

namespace Pieces

open Text

variable {final cs : List Char} {inner : List (List Char)}

theorem InOrder.final_suffix (h : InOrder final inner cs) : final <:+ cs := by
  induction inner generalizing cs with
  | nil => exact h
  | cons piece inner ih =>
    obtain ⟨gap, rest, rfl, h⟩ := h
    rw [← List.append_assoc]
    exact (ih h).trans (List.suffix_append _ rest)

/-- The folded text has the folded pieces. -/
theorem InOrder.fold (h : InOrder final inner cs) :
    InOrder (foldChars final) (inner.map foldChars) (foldChars cs) := by
  induction inner generalizing cs with
  | nil =>
    obtain ⟨before, rfl⟩ := h
    obtain ⟨gap, hgap⟩ := foldChars_append before final
    exact ⟨foldChars before ++ gap, by rw [hgap, List.append_assoc]⟩
  | cons piece inner ih =>
    obtain ⟨before, rest, rfl, h⟩ := h
    obtain ⟨gap, hgap⟩ := foldChars_append before (piece ++ rest)
    obtain ⟨gap', hgap'⟩ := foldChars_append piece rest
    refine ⟨foldChars before ++ gap, gap' ++ foldChars rest, ?_,
      (ih h).of_suffix (List.suffix_append gap' _)⟩
    rw [hgap, hgap', List.append_assoc]

theorem exists_fold (i x m y t : List Char) : ∃ rest,
    foldChars (i ++ (x ++ (m ++ (y ++ t)))) = foldChars i ++ rest ∧
      InOrder (foldChars t) [foldChars m] rest := by
  have horder : InOrder t [m] (x ++ (m ++ (y ++ t))) := ⟨x, y ++ t, rfl, List.suffix_append y t⟩
  obtain ⟨gap, hgap⟩ := foldChars_append i (x ++ (m ++ (y ++ t)))
  exact ⟨_, hgap, horder.fold.of_suffix (List.suffix_append gap _)⟩

theorem hash_not_mem_hexBytes (bytes : List UInt8) : '#' ∉ bytes.flatMap hexByte := by
  have hdigit : ∀ n, n < 16 → '#' ≠ hexDigit n := by
    intro n hn hhash
    have hvalue := hexValue?_hexDigit hn
    rw [← hhash] at hvalue
    cases hvalue
  intro hmem
  obtain ⟨b, _, hb⟩ := List.mem_flatMap.1 hmem
  have hlow := hdigit (b.toNat % 16) (Nat.mod_lt _ (by decide))
  have hhigh := hdigit (b.toNat / 16) (by have := b.toNat_lt; omega)
  rcases List.mem_cons.1 hb with hb | hb
  · exact hhigh hb
  · exact hlow (List.mem_singleton.1 hb)

/-- Bytes do not end with bytes behind an initial piece that is bytes as well. -/
theorem not_fits_binary (initial final bytes : List UInt8) (inner : List String) :
    Pieces.fits ⟨some (Value.binary initial).display, inner, some (Value.binary final).display⟩
      (.binary bytes) = false := by
  refine Bool.eq_false_iff.2 fun h => ?_
  obtain ⟨rest, hrest, h⟩ := fits_iff.1 h
  simp only [Value.display, Option.getD_some, String.toList_ofList, List.cons_append,
    List.cons.injEq, true_and] at hrest h
  refine hash_not_mem_hexBytes bytes ?_
  rw [hrest]
  exact List.mem_append_right _ (h.final_suffix.subset (.head _))

end Pieces

/-! ## Answers -/

namespace Evaluator

variable {p : Partition} {n : Nat} {id : EntryId} {e : Entry} {z : Evaluator} {b : Bool}

/-- By number, on the record and on every element of the number the test gives the answer. -/
structure Decides (z : Evaluator) (p : Partition) (id : EntryId) (e : Entry) (b : Bool) : Prop where
  evaluateId : z.evaluateId p id = .ok b
  evaluateEntry : z.evaluateEntry p e = .ok b
  evaluate : ∀ el : Element SearchKey, el.id = id → ∃ el' : Element SearchKey, el'.id = id ∧
    z.evaluate p el = .ok b el'

theorem Backed.decides (hback : z.Backed p) (hp : p.Valued n) (he : p.get? id = some e)
    (hb : z.evaluateEntry p e = .ok b) : z.Decides p id e b := by
  have hid : z.evaluateId p id = .ok b := (hback.evaluateId_eq hp he).trans hb
  refine ⟨hid, hb, ?_⟩
  rintro el rfl
  obtain ⟨el', hel', heq⟩ := evaluate_eq z el
  rw [hid] at heq
  exact ⟨el', hel', heq⟩

/-- A test for pieces gives an answer: whether some value of the entry has them. -/
theorem decides_substring (hp : p.Valued n) (he : p.get? id = some e) (a : AttributeId)
    (ps : Pieces) (k : Option Nat) : ∃ z b, ofFilter p (.substring a ps k) = .ok z ∧
      z.Decides p id e b ∧ (b = true ↔ ∃ v, p.IsForm a (e.valuesOf a) v ∧ ps.fits v = true) := by
  obtain ⟨b, hb, hiff⟩ := Partition.anyValue_eq (p := p) (a := a) (e := e)
    (fun v hv => hp.normal id a v (Partition.valuesOf_some he ▸ hv)) ps.fits
  exact ⟨_, b, rfl, (ofFilter_backed (.substring a ps k) rfl).decides hp he hb, hiff⟩

end Evaluator

/-! ## Values that are cut -/

namespace Partition

variable {p : Partition} {id : EntryId} {e : Entry} {a : AttributeId} {i x m y t : String}

theorem normalize_substring {g : String → String}
    (h : ∀ s, p.schema.normalizePiece a s = .ok (g s)) (k : Option Nat) :
    (Filter.substring a ⟨some i, [m], some t⟩ k).normalize p.schema =
      .ok (.substring a ⟨some (g i), [g m], some (g t)⟩ k) := by
  simp only [Filter.normalize, Pieces.normalize, Option.mapM_some, List.mapM_cons, List.mapM_nil, h]
  rfl

theorem Reachable.decides_own (h : p.Reachable) (he : p.get? id = some e)
    (hv : .text (i ++ x ++ m ++ y ++ t) ∈ e.valuesOf a) {g : List Char → List Char}
    (hform : ∀ s : String, p.schema.normalize a (.text s) = .ok (.text (.ofList (g s.toList))))
    (hfits : ∃ rest, g (i ++ x ++ m ++ y ++ t).toList = g i.toList ++ rest ∧
      Pieces.InOrder (g t.toList) [g m.toList] rest) (k : Option Nat) :
    ∃ f z, (Filter.substring a ⟨some i, [m], some t⟩ k).normalize p.schema = .ok f ∧
      Evaluator.ofFilter p f = .ok z ∧ z.Decides p id e true := by
  obtain ⟨n, hp⟩ := h.valued
  have hpiece (s : String) : p.schema.normalizePiece a s = .ok (.ofList (g s.toList)) := by
    rw [Schema.normalizePiece, hform]
    rfl
  obtain ⟨z, b, hz, hdecides, hiff⟩ := Evaluator.decides_substring hp he a
    ⟨some (.ofList (g i.toList)), [.ofList (g m.toList)], some (.ofList (g t.toList))⟩ k
  obtain ⟨rest, hrest, horder⟩ := hfits
  have hb : b = true := by
    refine hiff.2 ⟨_, ⟨_, hv, hform _⟩, Pieces.fits_iff.2 ⟨rest, ?_, ?_⟩⟩
    · simpa [Value.display] using hrest
    · simpa using horder
  exact ⟨_, z, normalize_substring hpiece k, hz, hb ▸ hdecides⟩

theorem Reachable.decides_binary (h : p.Reachable) (he : p.get? id = some e)
    (hkind : (p.schema.typeOf a).valueSyntax = .binary) (k : Option Nat) :
    ∃ f z, (Filter.substring a ⟨some i, [m], some t⟩ k).normalize p.schema = .ok f ∧
      Evaluator.ofFilter p f = .ok z ∧ z.Decides p id e false := by
  obtain ⟨n, hp⟩ := h.valued
  have hform (v : Value) : p.schema.normalize a v = .ok (.binary (ValueSyntax.bytesOf v)) := by
    rw [Schema.normalize, hkind]
    rfl
  let written (s : String) : String := (Value.binary (Text.utf8 s)).display
  have hpiece (s : String) : p.schema.normalizePiece a s = .ok (written s) := by
    rw [Schema.normalizePiece, hform]
    rfl
  obtain ⟨z, b, hz, hdecides, hiff⟩ := Evaluator.decides_substring hp he a
    ⟨some (written i), [written m], some (written t)⟩ k
  have hb : b = false := by
    refine Bool.eq_false_iff.2 fun hb => ?_
    obtain ⟨_, ⟨v, _, hv⟩, hfits⟩ := hiff.1 hb
    obtain rfl := Except.ok.inj ((hform v).symm.trans hv)
    rw [Pieces.not_fits_binary] at hfits
    cases hfits
  exact ⟨_, z, normalize_substring hpiece k, hz, hb ▸ hdecides⟩

/-- **Values and their own pieces.** An entry has a text that is cut into five parts; the filter
asks for the first, the third and the last of them, with or without an index of the attribute. Where
case counts, the entry matches. Where it does not, the entry matches if no capital sigma of these
parts is at the end of a word only there or only in the text. An attribute of bytes matches no such
filter, whatever the entry holds: each piece is written with a sign of its own in front. -/
theorem Reachable.own_pieces (h : p.Reachable) (he : p.get? id = some e)
    (hv : .text (i ++ x ++ m ++ y ++ t) ∈ e.valuesOf a) (k : Option Nat) :
    ((p.schema.typeOf a).valueSyntax = .caseExact ∨
      ((p.schema.typeOf a).valueSyntax = .caseIgnore ∧
        Text.KeptPieces i.toList x.toList m.toList y.toList t.toList) →
      ∃ f z, (Filter.substring a ⟨some i, [m], some t⟩ k).normalize p.schema = .ok f ∧
        Evaluator.ofFilter p f = .ok z ∧ z.Decides p id e true) ∧
    ((p.schema.typeOf a).valueSyntax = .binary →
      ∃ f z, (Filter.substring a ⟨some i, [m], some t⟩ k).normalize p.schema = .ok f ∧
        Evaluator.ofFilter p f = .ok z ∧ z.Decides p id e false) := by
  refine ⟨?_, fun hkind => h.decides_binary he hkind k⟩
  rintro (hkind | ⟨hkind, hkept⟩)
  · refine h.decides_own he hv (g := Text.foldChars) (fun s => ?_) ?_ k
    · rw [Schema.normalize, hkind]
      rfl
    · simp only [String.toList_append, List.append_assoc]
      exact Pieces.exists_fold _ _ _ _ _
  · refine h.decides_own he hv (g := fun cs => Text.foldChars (Text.lowerChars cs))
      (fun s => ?_) ?_ k
    · rw [Schema.normalize, hkind, ← Text.lowerChars_foldChars]
      simp [ValueSyntax.normalize, ValueSyntax.textOf, Text.lower, Text.fold]
    · obtain ⟨gap, gap', hlower⟩ := hkept.lower
      simp only [String.toList_append]
      rw [hlower]
      exact Pieces.exists_fold _ _ _ _ _

theorem own_pieces_sample : ∃ e f z, Sample.partition.get? 4 = some e ∧
    .text ("An" ++ "na" ++ "  L" ++ "e" ++ "e") ∈ e.valuesOf ⟨"cn"⟩ ∧
    (Filter.substring ⟨"cn"⟩ ⟨some "An", ["  L"], some "e"⟩ none).normalize
      Sample.partition.schema = .ok f ∧
    Evaluator.ofFilter Sample.partition f = .ok z ∧ z.Decides Sample.partition 4 e true := by
  obtain ⟨e, he, _, _, hvalues, _⟩ := Sample.person_stored
  have hv : .text ("An" ++ "na" ++ "  L" ++ "e" ++ "e") ∈ e.valuesOf ⟨"cn"⟩ := by
    rw [hvalues]
    decide +kernel
  have hkind : (Sample.partition.schema.typeOf ⟨"cn"⟩).valueSyntax = .caseIgnore := by
    decide +kernel
  obtain ⟨f, z, hf, hz, hdecides⟩ := (Reachable.own_pieces Sample.reachable he hv none).1
    (.inr ⟨hkind, Text.keptPieces_of_not_mem (by decide) (by decide) (by decide)⟩)
  exact ⟨e, f, z, he, hv, hf, hz, hdecides⟩

end Partition

/-! ### Pieces that are lost -/

namespace Partition

variable {p : Partition} {id : EntryId} {a : AttributeId} {i x m y t : String}

/-- The entry has a text that is cut into five parts, and does not match three of them. -/
def LosesPieces (p : Partition) (id : EntryId) (a : AttributeId) (i x m y t : String) : Prop :=
  ∃ e f z, p.get? id = some e ∧ .text (i ++ x ++ m ++ y ++ t) ∈ e.valuesOf a ∧
    (Filter.substring a ⟨some i, [m], some t⟩ none).normalize p.schema = .ok f ∧
    Evaluator.ofFilter p f = .ok z ∧ z.Decides p id e false

/-- The answer of the test by number, to be computed. -/
theorem Reachable.losesPieces (h : p.Reachable)
    (hv : (p.get? id).any
      (fun e => (e.valuesOf a).contains (.text (i ++ x ++ m ++ y ++ t))) = true)
    (hlost : (do
      let f ← (Filter.substring a ⟨some i, [m], some t⟩ none).normalize p.schema
      let z ← Evaluator.ofFilter p f
      z.evaluateId p id).toOption = some false) : p.LosesPieces id a i x m y t := by
  obtain ⟨n, hp⟩ := h.valued
  obtain ⟨e, he, hv⟩ := (Option.any_eq_true _ _).1 hv
  obtain ⟨f, hf, hlost⟩ := Except.bind_eq_ok.1 (Except.toOption_eq_some.1 hlost)
  obtain ⟨z, hz, hlost⟩ := Except.bind_eq_ok.1 hlost
  have hback := Evaluator.ofFilter_backed f hz
  exact ⟨e, f, z, he, List.contains_iff_mem.1 hv, hf, hz,
    hback.decides hp he ((hback.evaluateId_eq hp he).symm.trans hlost)⟩

end Partition

namespace Sample

/-- The standard configuration with an attribute of bytes. -/
def pictures : Config := { Config.standard with declarations := [⟨"photo", .binary, true⟩] }

/-- The root with a picture. -/
def picture : Write := .add ((Entry.ofName suffix).putValues "photo" [.text "abc"])

/-- A partition with the picture. -/
def pictured : Partition :=
  ((Partition.ofConfig pictures).toOption.getD default).afterAll [picture]

theorem pictured_reachable : pictured.Reachable := by
  have hok : (Partition.ofConfig pictures).toOption.isSome = true := by decide +kernel
  obtain ⟨p₀, hp₀⟩ := Option.isSome_iff_exists.1 hok
  refine ⟨pictures, [picture], ⟨p₀, Except.toOption_eq_some.1 hp₀, ?_⟩, by decide⟩
  rw [pictured, hp₀]
  rfl

/-- The root with a word in capital letters, which has a sigma in the middle. -/
def capitals : Write := .add ((Entry.ofName suffix).putValues "cn" [.text "ΑΣΑΑ"])

end Sample

/-- Bytes, and a word of which a piece ends with a capital sigma. -/
theorem Partition.lost_pieces_sample :
    (Sample.pictured.Reachable ∧
      (Sample.pictured.schema.typeOf ⟨"photo"⟩).valueSyntax = .binary ∧
      Sample.pictured.LosesPieces 1 ⟨"photo"⟩ "a" "" "b" "" "c") ∧
    (Sample.after [Sample.capitals]).Reachable ∧
      ((Sample.after [Sample.capitals]).schema.typeOf ⟨"cn"⟩).valueSyntax = .caseIgnore ∧
      (Sample.after [Sample.capitals]).LosesPieces 1 ⟨"cn"⟩ "ΑΣ" "" "Α" "" "Α" := by
  have hpictured := Sample.pictured_reachable
  have hcapitals : (Sample.after [Sample.capitals]).Reachable :=
    ⟨_, _, Sample.after_reachedBy [Sample.capitals] (by decide)⟩
  exact ⟨⟨hpictured, by decide +kernel,
      hpictured.losesPieces (by decide +kernel) (by decide +kernel)⟩,
    hcapitals, by decide +kernel, hcapitals.losesPieces (by decide +kernel) (by decide +kernel)⟩

end Directory
