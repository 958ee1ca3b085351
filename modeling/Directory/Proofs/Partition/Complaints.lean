import Directory.Partition.Write
import Directory.Proofs.Name.Normalized
import Directory.Proofs.Steps

/-!
# What questions complain about

* `Error.Harmless`: an error that is no sign of indices out of step.
* `Dn.parse_complains`, `Schema.normalize_complains`: names and values are refused with such errors,
  and so are the questions of the writes that ask for no more than entries, names and values.
-/

namespace Directory

open Objections

/-- The error is no sign of indices out of step. -/
def Error.Harmless (e : Error) : Prop := e.kind ≠ .invariantViolation

/-! ## Names and values -/

theorem Rdn.parseChars_complains (cs : List Char) : Objections (parseChars cs) Error.Harmless := by
  unfold parseChars
  split
  · exact error nofun
  · dsimp only
    split
    · exact error nofun
    · exact ok

theorem Dn.readRdns_complains (whole : String) (part cs : List Char) :
    Objections (readRdns whole part cs) Error.Harmless := by
  fun_induction readRdns whole part cs with
  | case1 part => exact (Rdn.parseChars_complains _).bind fun _ _ => ok
  | case2 part c cs ih => exact ih
  | case3 part cs =>
    refine error ?_
    rintro ⟨⟩
  | case4 part cs _ _ ih =>
    exact (Rdn.parseChars_complains _).bind fun _ _ => ih.bind fun _ _ => ok
  | case5 part c cs _ _ _ ih => exact ih

theorem Dn.parse_complains (s : String) : Objections (parse s) Error.Harmless := by
  unfold parse
  split
  · exact ok
  · exact (readRdns_complains _ _ _).map

theorem ValueSyntax.textOf_complains (a : AttributeId) (v : Value) :
    Objections (textOf a v) Error.Harmless := by
  unfold textOf
  split
  · exact ok
  · exact ok
  · split
    · exact ok
    · exact error nofun

theorem ValueSyntax.integerOf_complains (a : AttributeId) (v : Value) :
    Objections (integerOf a v) Error.Harmless := by
  unfold integerOf
  split
  · exact ok
  · split
    · exact ok
    · exact error nofun
  · exact error nofun

theorem Schema.normalize_complains (s : Schema) (a : AttributeId) (v : Value) :
    Objections (s.normalize a v) Error.Harmless := by
  unfold normalize ValueSyntax.normalize
  split
  · exact (ValueSyntax.textOf_complains a v).bind fun _ _ => ok
  · exact (ValueSyntax.textOf_complains a v).bind fun _ _ => ok
  · exact (ValueSyntax.integerOf_complains a v).bind fun _ _ => ok
  · exact ok
  · exact (ValueSyntax.textOf_complains a v).bind fun _ _ =>
      (Dn.parse_complains _).bind fun _ _ => ok

/-! ## Entries -/

namespace Partition

variable (p : Partition)

theorem lookup_complains (id : EntryId) : Objections (p.lookup id) Error.Harmless := by
  unfold lookup
  split
  · exact ok
  · exact error nofun

theorem userIndex_complains (a : AttributeId) : Objections (p.userIndex a) Error.Harmless := by
  unfold userIndex
  split
  · exact ok
  · exact error nofun

theorem normalizeAll_complains (a : AttributeId) (vs : List Value) :
    Objections (p.normalizeAll a vs) Error.Harmless :=
  (mapM (p.schema.normalize_complains a) vs).bind fun _ _ => ok

theorem checkValues_complains (e : Entry) : Objections (p.checkValues e) Error.Harmless :=
  forM (fun _ => (p.normalizeAll_complains _ _).map) _

theorem withNameValue_complains (e : Entry) : Objections (e.withNameValue p) Error.Harmless := by
  unfold Entry.withNameValue
  split
  · exact ok
  · refine (p.schema.normalize_complains _ _).bind fun _ _ =>
      (p.normalizeAll_complains _ _).bind fun _ _ => ?_
    split <;> exact ok

theorem mergeValues_complains (a : AttributeId) (held : List (Value × Value)) (vs : List Value) :
    Objections (Entry.mergeValues p a held vs) Error.Harmless := by
  induction vs generalizing held with
  | nil => exact ok
  | cons v vs ih => exact (p.schema.normalize_complains a v).bind fun _ _ => ih _

theorem modified_complains (e : Entry) (m : Modification) :
    Objections (e.modified p m) Error.Harmless := by
  have hkept : ∀ held, Objections (Entry.keptValues p m held) Error.Harmless := by
    intro held
    unfold Entry.keptValues
    split
    · exact p.mergeValues_complains _ _ _
    · exact p.mergeValues_complains _ _ _
    · split
      · exact ok
      · exact (p.normalizeAll_complains _ _).bind fun _ _ => ok
  have hheld := mapM (fun v => (p.schema.normalize_complains m.attr v).bind fun n _ =>
    ok (a := (n, v))) (e.valuesOf m.attr)
  exact hheld.bind fun held _ => (hkept held).bind fun _ _ => ok

theorem modifiedBy_complains (e : Entry) (ms : List Modification) :
    Objections (e.modifiedBy p ms) Error.Harmless :=
  foldlM (modified_complains p) ms e

/-! ## Places -/

theorem parentFor_complains (name : Dn) : Objections (p.parentFor name) Error.Harmless := by
  unfold parentFor
  split
  · exact ok
  · split
    · exact error nofun
    · dsimp only
      split
      · refine (p.lookup_complains _).bind fun _ _ => ?_
        split
        · exact error nofun
        · exact ok
      · exact error nofun

theorem newEntry_complains (e : Entry) : Objections (p.newEntry e) Error.Harmless := by
  unfold newEntry
  split
  · exact error nofun
  · exact (p.parentFor_complains _).bind fun _ _ => (p.withNameValue_complains _).bind fun _ _ =>
      (p.checkValues_complains _).bind fun _ _ => ok

theorem newParentFor_complains (e : Entry) (old : EntryId) (parent : Option Dn) :
    Objections (p.newParentFor e old parent) Error.Harmless := by
  unfold newParentFor
  split
  · exact ok
  · split
    · split
      · exact error nofun
      · refine (p.lookup_complains _).bind fun _ _ => ?_
        split
        · exact error nofun
        · exact ok
    · exact error nofun

theorem aliasLink_complains (e : Entry) : Objections (p.aliasLink e) Error.Harmless := by
  unfold aliasLink
  split
  · refine (Dn.parse_complains _).bind fun _ _ => ?_
    dsimp only
    split
    · exact error nofun
    · split
      · exact error nofun
      · split
        · exact error nofun
        · split
          · refine (p.lookup_complains _).bind fun _ _ => ?_
            split
            · exact error nofun
            · exact ok
          · exact error nofun
  · exact error nofun

theorem linkFor_complains (e : Entry) : Objections (p.linkFor e) Error.Harmless := by
  unfold linkFor
  split
  · exact (p.aliasLink_complains e).map
  · exact ok

theorem otherAliases_complains (l : AliasLink) : Objections (p.otherAliases l) Error.Harmless :=
  mapM p.lookup_complains _

theorem tuplesOf_complains (a : AttributeId) (es : List Entry) :
    Objections (p.tuplesOf a es) Error.Harmless := by
  induction es with
  | nil => exact ok
  | cons e es ih => exact (p.normalizeAll_complains _ _).bind fun _ _ => ih.bind fun _ _ => ok

end Partition

end Directory
