import Directory.Proofs.Name.Normalized
import Directory.Proofs.Text.Cutting

/-!
# Normalized names read back

A type is kept as it was read, backslashes included, so the written form of a name is split where
the text it was read from was.

* `Rdn.Scans.trimChars`, `Rdn.Scans.map_toLower`: what can stand in a relative name can do so
  without the blanks at its ends, and in small letters.
* `Rdn.IsRead`, `Dn.parse_isRead`: what is known of relative names that have been read.
* `Rdn.IsRead.parse_written`, `Dn.parse_display_eq`: what written names are read as.
* `folded`: the name with the values that are compared; its written form is the normalized one.
* `Dn.parse_normalized`: **if the normalized form of a name that has been read can be read, it gives
  a name with the same normalized form**.
-/

namespace Directory

namespace Text

theorem toLower_toLower (c : Char) : c.toLower.toLower = c.toLower := by
  by_cases h : c.toLower.val < 97
  · rw [← eq_of_toLower h rfl]
    rw [← eq_of_toLower h rfl]
  · refine toLower_eq_self ?_
    rintro ⟨_, hhigh⟩
    grind

theorem isBlank_toLower (c : Char) : isBlank c.toLower = isBlank c := by
  by_cases hlow : c.toNat < 0x80
  · exact (toLower_spec hlow).2
  · rw [toLower_eq_self]
    rintro ⟨_, hhigh⟩
    have hhigh : c.toNat ≤ 90 := hhigh
    omega

theorem trimChars_map_toLower (cs : List Char) :
    trimChars (cs.map Char.toLower) = (trimChars cs).map Char.toLower := by
  have hblank : isBlank ∘ Char.toLower = isBlank := funext isBlank_toLower
  simp only [trimChars, List.dropWhile_map, ← List.map_reverse, hblank]

end Text

/-! ## Relative names -/

namespace Rdn

theorem Scans.of_append {escaped : Bool} {a b : List Char} (h : Scans escaped (a ++ b)) :
    Scans escaped a := by
  induction a generalizing escaped with
  | nil => cases escaped <;> trivial
  | cons c a ih =>
    cases escaped with
    | true => exact @ih false h
    | false =>
      rw [List.cons_append, Scans] at h
      rw [Scans]
      split at h
      · rename_i hc
        rw [if_pos hc]
        exact ih h
      · rename_i hc
        rw [if_neg hc]
        exact ⟨h.1, ih h.2⟩

theorem Scans.dropBlanks {cs : List Char} (h : Scans false cs) :
    Scans false (cs.dropWhile Text.isBlank) := by
  induction cs with
  | nil => exact h
  | cons c cs ih =>
    rw [List.dropWhile_cons]
    split
    · rename_i hblank
      have hc : c ≠ '\\' := by
        rintro rfl
        exact absurd hblank (by decide)
      rw [Scans, if_neg hc] at h
      exact ih h.2
    · exact h

theorem Scans.trimChars {cs : List Char} (h : Scans false cs) :
    Scans false (Text.trimChars cs) := by
  obtain ⟨t, ht⟩ := Text.trimChars_prefix cs
  exact Scans.of_append (ht ▸ h.dropBlanks)

theorem Scans.map_toLower {escaped : Bool} {cs : List Char} (h : Scans escaped cs) :
    Scans escaped (cs.map Char.toLower) := by
  induction cs generalizing escaped with
  | nil => cases escaped <;> trivial
  | cons c cs ih =>
    cases escaped with
    | true => exact @ih false h
    | false =>
      rw [Scans] at h
      rw [List.map_cons, Scans]
      split at h
      · rename_i hc
        rw [hc, if_pos (by decide)]
        exact ih h
      · rename_i hc
        rw [if_neg fun he => hc (Text.eq_of_toLower (by decide) he)]
        exact ⟨fun he => h.1 (Text.eq_of_toLower (by decide) he), ih h.2⟩

/-- What is known of a relative name that has been read: its type has no equals sign, can stand in
a relative name, and is in the form of attributes. -/
structure IsRead (r : Rdn) : Prop where
  plain : r.Plain
  scans : Scans false r.type.name.toList
  trimmed : Text.Trimmed r.type.name.toList
  lower : r.type.name.toList.map Char.toLower = r.type.name.toList

theorem parseChars_isRead {cs : List Char} (hcs : Scans false cs) {r : Rdn}
    (h : parseChars cs = .ok r) : r.IsRead := by
  obtain ⟨_, htype, _⟩ := parseChars_eq_ok h
  have hscans : Scans false (cs.takeWhile (· != '=')) := by
    refine Scans.of_append (b := cs.dropWhile (· != '=')) ?_
    rwa [List.takeWhile_append_dropWhile]
  refine ⟨parseChars_plain h, ?_, ?_, ?_⟩
  · rw [htype]
    exact hscans.trimChars.map_toLower
  · rw [htype, ← Text.trimChars_map_toLower]
    exact Text.trimmed_trimChars _
  · rw [htype, List.map_map]
    exact List.map_congr_left fun c _ => Text.toLower_toLower c

theorem unescapeChars_escapeChars (cs : List Char) : unescapeChars (escapeChars cs) = cs := by
  induction cs with
  | nil => rfl
  | cons c cs ih =>
    rw [escapeChars_cons]
    split
    · show c :: unescapeChars (escapeChars cs) = _
      rw [ih]
    · rename_i hc
      have hne : c ≠ '\\' := by
        rintro rfl
        exact hc (by decide)
      show unescapeChars (c :: escapeChars cs) = _
      rw [unescapeChars, if_neg hne, ih]
      exact fun _ _ he => absurd he hne

theorem getLast?_escapeChars (cs : List Char) : (escapeChars cs).getLast? = cs.getLast? := by
  induction cs with
  | nil => rfl
  | cons c cs ih =>
    rw [escapeChars_cons, List.getLast?_append, ih, List.getLast?_cons]
    split <;> cases cs.getLast? <;> rfl

theorem parseChars_append {type : List Char} (hplain : '=' ∉ type) (value : List Char) :
    parseChars (type ++ '=' :: escapeChars value) =
      if (Text.trimChars type).isEmpty || (Text.trimChars (escapeChars value)).isEmpty then
        .error (.rdnWithEmptyPart (String.ofList (type ++ '=' :: escapeChars value)))
      else .ok (ofPair (String.ofList type) (String.ofList value)) := by
  have hall : ∀ c ∈ type, (c != '=') = true := fun c hc => by
    rw [bne_iff_ne]
    rintro rfl
    exact hplain hc
  have hdrop : (type ++ '=' :: escapeChars value).dropWhile (· != '=') =
      '=' :: escapeChars value := by
    rw [List.dropWhile_append_of_pos hall]
    rfl
  have htake : (type ++ '=' :: escapeChars value).takeWhile (· != '=') = type := by
    rw [List.takeWhile_append_of_pos hall]
    simp
  unfold parseChars
  rw [hdrop, htake]
  dsimp only
  rw [unescapeChars_escapeChars]

theorem toList_display (r : Rdn) :
    r.display.toList = r.type.name.toList ++ '=' :: escapeChars r.value.toList :=
  toList_write ..

/-- A relative name that has been read, with a value without blanks at its ends, is read from its
written form, unless a part of it is empty. -/
theorem IsRead.parse_written {r : Rdn} (hr : r.IsRead) (hvalue : Text.Trimmed r.value.toList) :
    parse r.display =
      if r.type.name = "" ∨ r.value = "" then .error (.rdnWithEmptyPart r.display) else .ok r := by
  have hpair : ofPair r.type.name r.value = r := by
    have hname : Text.lowerAscii (Text.trim r.type.name) = r.type.name := by
      refine String.toList_inj.1 ?_
      simp only [Text.lowerAscii, Text.trim, String.toList_ofList]
      rw [Text.trimChars_eq_self hr.trimmed, hr.lower]
    have htrim : Text.trim r.value = r.value := by
      rw [Text.trim, Text.trimChars_eq_self hvalue, String.ofList_toList]
    rw [ofPair, AttributeId.ofName, hname, htrim]
  have hescaped : Text.trimChars (escapeChars r.value.toList) = escapeChars r.value.toList := by
    refine Text.trimChars_eq_self ⟨?_, ?_⟩
    · cases hv : r.value.toList with
      | nil => rintro _ ⟨⟩
      | cons c cs =>
        rw [escapeChars_cons]
        split
        · rintro _ ⟨⟩
          decide
        · rintro _ ⟨⟩
          exact hvalue.first c (by rw [hv]; rfl)
    · rw [getLast?_escapeChars]
      exact hvalue.last
  have hempty : (escapeChars r.value.toList).isEmpty = true ↔ r.value = "" := by
    rw [List.isEmpty_iff, ← List.getLast?_eq_none_iff, getLast?_escapeChars,
      List.getLast?_eq_none_iff, String.toList_eq_nil_iff]
  have hname : r.type.name.toList.isEmpty = true ↔ r.type.name = "" := by
    rw [List.isEmpty_iff, String.toList_eq_nil_iff]
  unfold parse
  rw [toList_display, parseChars_append hr.plain, ← toList_display, hescaped,
    Text.trimChars_eq_self hr.trimmed, String.ofList_toList, String.ofList_toList,
    String.ofList_toList, hpair]
  simp only [Bool.or_eq_true, hempty, hname]

/-! ### Folded values -/

/-- The relative name with the value that is compared. -/
def folded (r : Rdn) : Rdn := ⟨r.type, String.ofList r.foldedChars⟩

theorem display_folded (r : Rdn) : r.folded.display = r.normalized := by
  refine String.toList_inj.1 ?_
  rw [toList_display, toList_normalized, folded, String.toList_ofList]

theorem trimmed_folded (r : Rdn) : Text.Trimmed r.folded.value.toList := by
  rw [folded, String.toList_ofList]
  exact Text.trimmed_lowerChars_foldChars _

theorem normalized_folded (r : Rdn) : r.folded.normalized = r.normalized := by
  refine String.toList_inj.1 ?_
  rw [toList_normalized, toList_normalized, foldedChars, folded, String.toList_ofList, foldedChars,
    Text.foldChars_lowerChars_foldChars, Text.lowerChars_lowerChars]

theorem IsRead.folded {r : Rdn} (hr : r.IsRead) : r.folded.IsRead :=
  ⟨hr.plain, hr.scans, hr.trimmed, hr.lower⟩

end Rdn

/-! ## Names -/

namespace Dn

/-- What is known of all relative names of a name that has been read. -/
def IsRead (d : Dn) : Prop := ∀ r ∈ d.rdns, r.IsRead

theorem parse_isRead {s : String} {d : Dn} (h : Dn.parse s = .ok d) : d.IsRead := by
  intro r hr
  obtain ⟨_, hscans, hr⟩ := exists_of_mem_parse h r hr
  exact Rdn.parseChars_isRead hscans hr

/-! ## Splitting a written name -/

theorem readRdns_type (whole : String) {type : List Char} (htype : Rdn.Scans false type)
    (part cs : List Char) :
    readRdns whole part (type ++ '=' :: cs) =
      readRdns whole ('=' :: (type.reverse ++ part)) cs := by
  match type, htype with
  | [], _ => rfl
  | ['\\'], _ => rfl
  | '\\' :: c :: type, htype =>
    have hrest : Rdn.Scans false type := htype
    have := readRdns_type whole hrest (c :: '\\' :: part) cs
    simpa [readRdns] using this
  | c :: type, htype =>
    by_cases hc : c = '\\'
    · subst hc
      cases type with
      | nil => rfl
      | cons d type =>
        have hrest : Rdn.Scans false type := htype
        have := readRdns_type whole hrest (d :: '\\' :: part) cs
        simpa [readRdns] using this
    · rw [Rdn.Scans, if_neg hc] at htype
      have := readRdns_type whole htype.2 (c :: part) cs
      rw [List.cons_append, readRdns, if_neg hc, if_neg htype.1, this]
      · simp
      · exact fun _ _ he => absurd he hc

theorem readRdns_value (whole : String) (value part cs : List Char) :
    readRdns whole part (Rdn.escapeChars value ++ cs) =
      readRdns whole ((Rdn.escapeChars value).reverse ++ part) cs := by
  induction value generalizing part with
  | nil => rfl
  | cons c value ih =>
    rw [Rdn.escapeChars_cons]
    split
    · have := ih (c :: '\\' :: part)
      simpa [readRdns] using this
    · rename_i hc
      have hbackslash : c ≠ '\\' := by
        rintro rfl
        exact hc (by decide)
      have hcomma : c ≠ ',' := by
        rintro rfl
        exact hc (by decide)
      have := ih (c :: part)
      rw [List.cons_append, List.nil_append, List.cons_append, readRdns, if_neg hbackslash,
        if_neg hcomma, this]
      · simp
      · exact fun _ _ he => absurd he hbackslash

/-- The characters of relative names behind one that is written before them. -/
def displayBehind : List Rdn → List Char
  | [] => []
  | r :: rs => ',' :: (r.display.toList ++ displayBehind rs)

theorem toList_display_cons (r : Rdn) (rs : List Rdn) :
    (display ⟨r :: rs⟩).toList = r.display.toList ++ displayBehind rs := by
  show (",".intercalate ((r :: rs).map Rdn.display)).toList = _
  rw [List.map_cons]
  induction rs generalizing r with
  | nil => simp [displayBehind]
  | cons s rs ih =>
    rw [List.map_cons, String.intercalate_cons_cons, displayBehind, ← ih]
    simp

theorem readRdns_rdn (whole : String) {r : Rdn} (hr : r.IsRead) (cs : List Char) :
    readRdns whole [] (r.display.toList ++ cs) = readRdns whole r.display.toList.reverse cs := by
  rw [Rdn.toList_display, List.append_assoc, List.cons_append, readRdns_type whole hr.scans,
    readRdns_value]
  simp

/-- The reader splits written relative names where they were joined. -/
theorem readRdns_display (whole : String) {r : Rdn} {rs : List Rdn}
    (hread : ∀ s ∈ r :: rs, s.IsRead) :
    readRdns whole [] (r.display.toList ++ displayBehind rs) =
      (r :: rs).mapM fun r => Rdn.parse r.display := by
  rw [readRdns_rdn whole (hread r (.head _)), List.mapM_cons]
  induction rs generalizing r with
  | nil =>
    rw [displayBehind, readRdns, List.reverse_reverse]
    rfl
  | cons s rs ih =>
    have hcomma := readRdns.eq_3 whole r.display.toList.reverse ','
      (s.display.toList ++ displayBehind rs) fun _ _ he => absurd he (by decide)
    rw [displayBehind, hcomma, if_neg (by decide), if_pos rfl, List.reverse_reverse,
      readRdns_rdn whole (hread s (.tail _ (.head _))), ih fun t ht => hread t (.tail _ ht),
      List.mapM_cons]
    rfl

theorem trimmed_display {r : Rdn} {rs : List Rdn} (hread : ∀ s ∈ r :: rs, s.IsRead)
    (hvalue : ∀ s ∈ r :: rs, Text.Trimmed s.value.toList) :
    Text.Trimmed (r.display.toList ++ displayBehind rs) := by
  have hequals : Text.isBlank '=' = false := by decide
  constructor
  · have hr := (hread r (.head _)).trimmed
    rw [Rdn.toList_display]
    cases htype : r.type.name.toList with
    | nil =>
      rintro c ⟨⟩
      exact hequals
    | cons d type =>
      rintro c ⟨⟩
      exact hr.first _ (by rw [htype]; rfl)
  · have hlast : ∀ r : Rdn, Text.Trimmed r.value.toList →
        ∃ d, r.display.toList.getLast? = some d ∧ Text.isBlank d = false := by
      intro r hvalue
      rw [Rdn.toList_display, List.getLast?_append, List.getLast?_cons, Rdn.getLast?_escapeChars]
      refine ⟨_, rfl, ?_⟩
      cases hd : r.value.toList.getLast? with
      | none => exact hequals
      | some d => exact hvalue.last d hd
    clear hread
    induction rs generalizing r with
    | nil =>
      obtain ⟨d, hd, hblank⟩ := hlast r (hvalue r (.head _))
      rw [displayBehind, List.append_nil, hd]
      rintro c ⟨⟩
      exact hblank
    | cons s rs ih =>
      have hne : s.display.toList ++ displayBehind rs ≠ [] := by
        rw [Rdn.toList_display]
        simp
      rw [displayBehind, List.getLast?_append, List.getLast?_cons_of_ne_nil hne]
      intro c hc
      refine ih (r := s) (fun t ht => hvalue t (.tail _ ht)) c ?_
      obtain ⟨d, hd⟩ := Option.isSome_iff_exists.1 (List.getLast?_isSome.2 hne)
      rwa [hd] at hc ⊢

/-- The reader takes a written name apart into its written relative names. -/
theorem parse_display_eq {d : Dn} (hread : d.IsRead)
    (hvalue : ∀ r ∈ d.rdns, Text.Trimmed r.value.toList) :
    Dn.parse d.display = Dn.mk <$> d.rdns.mapM fun r => Rdn.parse r.display := by
  obtain ⟨rs⟩ := d
  cases rs with
  | nil => rfl
  | cons r rs =>
    unfold parse
    rw [toList_display_cons, Text.trimChars_eq_self (trimmed_display hread hvalue)]
    split
    · rename_i hnil
      rw [Rdn.toList_display] at hnil
      simp at hnil
    · rw [readRdns_display _ hread]

/-! ## Normalized names -/

/-- The name with the values that are compared. -/
def folded (d : Dn) : Dn := ⟨d.rdns.map Rdn.folded⟩

theorem display_folded (d : Dn) : d.folded.display = d.normalized := by
  show ",".intercalate ((d.rdns.map Rdn.folded).map Rdn.display) = _
  rw [List.map_map, show Rdn.display ∘ Rdn.folded = Rdn.normalized from funext Rdn.display_folded]
  rfl

theorem normalized_folded (d : Dn) : d.folded.normalized = d.normalized := by
  refine normalized_eq_of_key_eq ?_
  show (d.rdns.map Rdn.folded).map Rdn.normalized = _
  rw [List.map_map,
    show Rdn.normalized ∘ Rdn.folded = Rdn.normalized from funext Rdn.normalized_folded]
  rfl

theorem IsRead.folded {d : Dn} (hd : d.IsRead) : d.folded.IsRead := by
  intro r hr
  obtain ⟨r, hmem, rfl⟩ := List.mem_map.1 hr
  exact (hd r hmem).folded

theorem trimmed_folded (d : Dn) : ∀ r ∈ d.folded.rdns, Text.Trimmed r.value.toList := by
  intro r hr
  obtain ⟨r, -, rfl⟩ := List.mem_map.1 hr
  exact r.trimmed_folded

/-- **Normalized names read back.** -/
theorem parse_normalized {d d' : Dn} (hd : d.IsRead) (h : Dn.parse d.normalized = .ok d') :
    d'.normalized = d.normalized := by
  rw [← display_folded, parse_display_eq hd.folded d.trimmed_folded] at h
  obtain ⟨rs, hrs, rfl⟩ := Except.map_eq_ok.1 h
  have hsame : rs = d.folded.rdns := by
    refine Except.eq_of_mapM (fun r hr s hs => ?_) hrs
    rw [(hd.folded r hr).parse_written (d.trimmed_folded r hr)] at hs
    split at hs
    · cases hs
    · exact (Except.ok.inj hs).symm
  rw [hsame]
  exact d.normalized_folded

end Dn

end Directory
