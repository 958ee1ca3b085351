import Directory.Proofs.Name.Reread
import Mathlib.Data.List.Find

/-!
# Written names read back

A reader looks for empty parts before it removes the backslashes of a value and the blanks at its
ends, so a value of nothing but blanks behind backslashes is read as the empty one. The written form
has no backslashes for blanks.

* `Rdn.Canonical`: what is known of a relative name that has been read: `Rdn.IsRead`, it has a type,
  and its value neither begins nor ends with a blank.
* `Dn.display_reads`: **a name that has been read is read from its written form and, up to
  normalization, from its normalized form, unless a relative name has no value**; then both are
  refused for the first such one.
-/

namespace Directory

namespace Rdn

/-- What is known of a relative name that has been read. -/
structure Canonical (r : Rdn) : Prop extends r.IsRead where
  typed : r.type.name ≠ ""
  value : Text.Trimmed r.value.toList

theorem parseChars_canonical {cs : List Char} (hcs : Scans false cs) {r : Rdn}
    (h : parseChars cs = .ok r) : r.Canonical := by
  obtain ⟨hempty, htype, value, hvalue⟩ := parseChars_eq_ok h
  refine ⟨parseChars_isRead hcs h, fun hname => hempty ?_, hvalue ▸ Text.trimmed_trimChars value⟩
  rw [hname, String.toList_empty] at htype
  exact List.map_eq_nil_iff.1 htype.symm

theorem Canonical.parse_display_eq {r : Rdn} (hr : r.Canonical) :
    parse r.display =
      if r.value == "" then .error (.rdnWithEmptyPart (r.type.name ++ "=")) else .ok r := by
  rw [hr.toIsRead.parse_written hr.value]
  by_cases hvalue : r.value = ""
  · have hdisplay : r.display = r.type.name ++ "=" := by
      rw [display, hvalue]
      exact String.append_empty
    rw [if_pos (.inr hvalue), hdisplay, hvalue]
    rfl
  · rw [if_neg (not_or.2 ⟨hr.typed, hvalue⟩), if_neg (by rwa [beq_iff_eq])]

theorem Canonical.folded {r : Rdn} (hr : r.Canonical) : r.folded.Canonical :=
  ⟨hr.toIsRead.folded, hr.typed, r.trimmed_folded⟩

theorem Canonical.folded_value {r : Rdn} (hr : r.Canonical) :
    (r.folded.value == "") = (r.value == "") := by
  rw [Bool.eq_iff_iff, beq_iff_eq, beq_iff_eq, ← String.toList_eq_nil_iff, Rdn.folded,
    String.toList_ofList, foldedChars, Text.lowerChars_foldChars_eq_nil hr.value,
    String.toList_eq_nil_iff]

end Rdn

namespace Dn

/-- What is known of all relative names of a name that has been read. -/
def Canonical (d : Dn) : Prop := ∀ r ∈ d.rdns, r.Canonical

theorem parse_canonical {s : String} {d : Dn} (h : Dn.parse s = .ok d) : d.Canonical := by
  intro r hr
  obtain ⟨_, hscans, hr⟩ := exists_of_mem_parse h r hr
  exact Rdn.parseChars_canonical hscans hr

theorem Canonical.parse_display_eq {d : Dn} (hd : d.Canonical) :
    Dn.parse d.display = match d.rdns.find? (·.value == "") with
      | none => .ok d
      | some r => .error (.rdnWithEmptyPart (r.type.name ++ "=")) := by
  rw [Dn.parse_display_eq (fun r hr => (hd r hr).toIsRead) fun r hr => (hd r hr).value,
    Except.mapM_eq_find? fun r hr => (hd r hr).parse_display_eq]
  cases d.rdns.find? (·.value == "") <;> rfl

theorem Canonical.folded {d : Dn} (hd : d.Canonical) : d.folded.Canonical := by
  intro r hr
  obtain ⟨r, hmem, rfl⟩ := List.mem_map.1 hr
  exact (hd r hmem).folded

theorem Canonical.find?_folded {d : Dn} (hd : d.Canonical) :
    d.folded.rdns.find? (·.value == "") =
      (d.rdns.find? (·.value == "")).map Rdn.folded := by
  rw [Dn.folded, List.find?_map]
  refine congrArg (Option.map Rdn.folded) (List.find?_congr fun r hr => ?_)
  exact (hd r hr).folded_value

/-- **Names that have been read are read again, unless a relative name has no value.** -/
theorem display_reads {s : String} {d : Dn} (h : Dn.parse s = .ok d) :
    ((∀ r ∈ d.rdns, r.value ≠ "") →
      Dn.parse d.display = .ok d ∧
        ∃ d', Dn.parse d.normalized = .ok d' ∧ d'.normalized = d.normalized) ∧
    ∀ r, d.rdns.find? (·.value == "") = some r →
      Dn.parse d.display = .error (.rdnWithEmptyPart (r.type.name ++ "=")) ∧
        Dn.parse d.normalized = .error (.rdnWithEmptyPart (r.type.name ++ "=")) := by
  have hd := parse_canonical h
  have hdisplay := hd.parse_display_eq
  have hnormalized := hd.folded.parse_display_eq
  rw [display_folded, hd.find?_folded] at hnormalized
  constructor
  · intro hvalues
    have hnone : d.rdns.find? (·.value == "") = none :=
      List.find?_eq_none.2 fun r hr => by simpa using hvalues r hr
    rw [hnone] at hdisplay hnormalized
    exact ⟨hdisplay, _, hnormalized, d.normalized_folded⟩
  · intro r hr
    rw [hr] at hdisplay hnormalized
    exact ⟨hdisplay, hnormalized⟩

/-- A value with a comma in it. -/
theorem display_reads_sample :
    let d : Dn := ⟨[⟨⟨"cn"⟩, "A, B"⟩, ⟨⟨"dc"⟩, "Com"⟩]⟩
    Dn.parse "CN= A\\,\\ B ,dc=Com" = .ok d ∧ Dn.parse d.display = .ok d := by
  intro d
  have hread : Dn.parse "CN= A\\,\\ B ,dc=Com" = .ok d :=
    Except.toOption_eq_some.1 (by decide +kernel)
  exact ⟨hread, ((display_reads hread).1 (by decide)).1⟩

/-- A blank behind a backslash is read as an empty value, and the name that has it cannot be read
again. -/
theorem escaped_blank_sample :
    ¬∀ s d, Dn.parse s = .ok d → Dn.parse d.display = .ok d ∧
      ∃ d', Dn.parse d.normalized = .ok d' ∧ d'.normalized = d.normalized := by
  intro h
  let d : Dn := ⟨[⟨⟨"cn"⟩, ""⟩, ⟨⟨"dc"⟩, "example"⟩, ⟨⟨"dc"⟩, "com"⟩]⟩
  have hread : Dn.parse "cn=\\ ,dc=example,dc=com" = .ok d :=
    Except.toOption_eq_some.1 (by decide +kernel)
  have hrefused : (Dn.parse d.display).toOption = none := by decide +kernel
  rw [(h _ _ hread).1] at hrefused
  cases hrefused

end Dn

end Directory
