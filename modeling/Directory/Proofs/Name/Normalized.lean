import Directory.Name.Reader
import Directory.Proofs.Steps

/-!
# Normalized names tell names apart

* `Dn.Plain`: no type of the name has an equals sign in it. Names that have been read are plain.
* `Rdn.escapeChars_append`, `Dn.key_eq_of_normalized_eq`: a written value ends at the first bare
  comma, so **the normalized form of a plain name determines its normalized relative names**.
* `Rdn.Scans`: characters that can stand in a relative name: every comma follows a backslash that
  is not itself escaped.
* `Rdn.parseChars_eq_ok`, `Dn.exists_of_mem_parse`: what a relative name of a name that has been
  read was read from.
-/

namespace Directory

/-! ## Reading relative names back -/

namespace Rdn

/-- No equals sign is in the type. -/
def Plain (r : Rdn) : Prop := '=' ∉ r.type.name.toList

/-- The written value as it is compared. -/
def foldedChars (r : Rdn) : List Char := Text.lowerChars (Text.foldChars r.value.toList)

theorem toList_write (a : AttributeId) (cs : List Char) :
    (write a cs).toList = a.name.toList ++ '=' :: escapeChars cs := by
  simp [write]

theorem toList_normalized (r : Rdn) :
    r.normalized.toList = r.type.name.toList ++ '=' :: escapeChars r.foldedChars :=
  toList_write ..

theorem escapeChars_cons (c : Char) (cs : List Char) :
    escapeChars (c :: cs) = (if isSpecial c then ['\\', c] else [c]) ++ escapeChars cs :=
  List.flatMap_cons ..

/-- What stands behind a written value: nothing, or a comma. -/
def Ends (t : List Char) : Prop := ∀ c ∈ t.head?, c = ','

/-- A written value ends where it ends. -/
theorem escapeChars_append {cs cs' t t' : List Char} (ht : Ends t) (ht' : Ends t')
    (h : escapeChars cs ++ t = escapeChars cs' ++ t') : cs = cs' ∧ t = t' := by
  have hcomma : isSpecial ',' = true := by decide
  have hbackslash : isSpecial '\\' = true := by decide
  have hstart : ∀ (c : Char) (cs t : List Char), ¬Ends (escapeChars (c :: cs) ++ t) := by
    intro c cs t hends
    rw [escapeChars_cons] at hends
    split at hends
    · exact absurd (hends '\\' rfl) (by decide)
    · rename_i hc
      rw [hends c rfl] at hc
      exact hc hcomma
  induction cs generalizing cs' with
  | nil =>
    cases cs' with
    | nil => exact ⟨rfl, h⟩
    | cons c' cs' => exact absurd (h ▸ ht) (hstart c' cs' t')
  | cons c cs ih =>
    cases cs' with
    | nil => exact absurd (h ▸ ht') (hstart c cs t)
    | cons c' cs' =>
      rw [escapeChars_cons, escapeChars_cons, List.append_assoc, List.append_assoc] at h
      by_cases hc : isSpecial c = true <;> by_cases hc' : isSpecial c' = true <;>
        simp only [hc, hc', if_true, if_false, Bool.false_eq_true, List.cons_append,
          List.nil_append, List.cons.injEq, true_and] at h
      · obtain ⟨rfl, h⟩ := h
        obtain ⟨rfl, rfl⟩ := ih h
        exact ⟨rfl, rfl⟩
      · exact absurd (h.1 ▸ hbackslash) hc'
      · exact absurd (h.1 ▸ hbackslash) hc
      · obtain ⟨rfl, h⟩ := h
        obtain ⟨rfl, rfl⟩ := ih h
        exact ⟨rfl, rfl⟩

theorem append_equals {a b s t : List Char} (ha : '=' ∉ a) (hb : '=' ∉ b)
    (h : a ++ '=' :: s = b ++ '=' :: t) : a = b ∧ s = t := by
  induction a generalizing b with
  | nil =>
    cases b with
    | nil => exact ⟨rfl, (List.cons.inj h).2⟩
    | cons c b => exact absurd (.head _) ((List.cons.inj h).1 ▸ hb)
  | cons c a ih =>
    cases b with
    | nil => exact absurd (.head _) ((List.cons.inj h).1 ▸ ha)
    | cons d b =>
      obtain ⟨rfl, h'⟩ := List.cons.inj h
      obtain ⟨rfl, rfl⟩ := ih (fun hm => ha (.tail _ hm)) (fun hm => hb (.tail _ hm)) h'
      exact ⟨rfl, rfl⟩

end Rdn

/-! ## Reading names back -/

namespace Dn

/-- No equals sign is in a type. -/
def Plain (d : Dn) : Prop := ∀ r ∈ d.rdns, r.Plain

/-- The characters of relative names behind one that is written before them. -/
def charsBehind : List Rdn → List Char
  | [] => []
  | r :: rs => ',' :: (r.normalized.toList ++ charsBehind rs)

theorem toList_normalized_cons (r : Rdn) (rs : List Rdn) :
    (normalized ⟨r :: rs⟩).toList = r.normalized.toList ++ charsBehind rs := by
  show (",".intercalate ((r :: rs).map Rdn.normalized)).toList = _
  rw [List.map_cons]
  induction rs generalizing r with
  | nil => simp [charsBehind]
  | cons s rs ih =>
    rw [List.map_cons, String.intercalate_cons_cons, charsBehind, ← ih]
    simp

theorem ends_charsBehind (rs : List Rdn) : Rdn.Ends (charsBehind rs) := by
  cases rs with
  | nil => exact fun c h => nomatch h
  | cons r rs =>
    intro c h
    cases h
    rfl

theorem charsBehind_inj {rs ss : List Rdn} (hrs : ∀ r ∈ rs, r.Plain) (hss : ∀ s ∈ ss, s.Plain)
    (h : charsBehind rs = charsBehind ss) : rs.map Rdn.normalized = ss.map Rdn.normalized := by
  induction rs generalizing ss with
  | nil =>
    cases ss with
    | nil => rfl
    | cons s ss => cases h
  | cons r rs ih =>
    cases ss with
    | nil => cases h
    | cons s ss =>
      have h := (List.cons.inj h).2
      rw [Rdn.toList_normalized, Rdn.toList_normalized, List.append_assoc, List.append_assoc] at h
      obtain ⟨htype, h⟩ := Rdn.append_equals (hrs r (.head _)) (hss s (.head _)) h
      obtain ⟨hvalue, h⟩ := Rdn.escapeChars_append (ends_charsBehind rs) (ends_charsBehind ss) h
      rw [List.map_cons, List.map_cons, ih (fun r hr => hrs r (.tail _ hr))
        (fun s hs => hss s (.tail _ hs)) h]
      congr 1
      refine String.toList_inj.1 ?_
      rw [Rdn.toList_normalized, Rdn.toList_normalized, htype, hvalue]

theorem normalized_eq_of_key_eq {d e : Dn} (h : d.key = e.key) : d.normalized = e.normalized :=
  congrArg ",".intercalate h

/-- The root alone is written as nothing. -/
theorem normalized_cons_ne (r : Rdn) (rs : List Rdn) : normalized ⟨r :: rs⟩ ≠ "" := by
  intro h
  have := congrArg String.toList h
  rw [toList_normalized_cons, Rdn.toList_normalized] at this
  simp at this

/-- Names with one normalized form are written alike behind another relative name. -/
theorem charsBehind_eq_of_normalized_eq {d e : Dn} (h : d.normalized = e.normalized) :
    charsBehind d.rdns = charsBehind e.rdns := by
  obtain ⟨rs⟩ := d
  obtain ⟨ss⟩ := e
  cases rs with
  | nil =>
    cases ss with
    | nil => rfl
    | cons s ss => exact absurd h.symm (normalized_cons_ne s ss)
  | cons r rs =>
    cases ss with
    | nil => exact absurd h (normalized_cons_ne r rs)
    | cons s ss =>
      have h := congrArg String.toList h
      rw [toList_normalized_cons, toList_normalized_cons] at h
      exact congrArg (List.cons ',') h

/-- **Plain names with one normalized form have the same normalized relative names.** -/
theorem key_eq_of_normalized_eq {d e : Dn} (hd : d.Plain) (he : e.Plain)
    (h : d.normalized = e.normalized) : d.key = e.key :=
  charsBehind_inj hd he (charsBehind_eq_of_normalized_eq h)

end Dn

/-! ## Names that have been read -/

theorem Text.mem_trimChars {c : Char} {cs : List Char} (h : c ∈ trimChars cs) : c ∈ cs := by
  rw [trimChars, List.mem_reverse] at h
  exact (List.dropWhile_sublist _).mem (List.mem_reverse.1 ((List.dropWhile_sublist _).mem h))

theorem Text.toLower_eq_self {c : Char} (h : ¬(65 ≤ c.val ∧ c.val ≤ 90)) : c.toLower = c :=
  dif_neg h

theorem Text.eq_of_toLower {c d : Char} (hd : d.val < 97) (h : c.toLower = d) : c = d := by
  by_cases hc : 65 ≤ c.val ∧ c.val ≤ 90
  · have hval : c.toLower.val = c.val + 32 := congrArg Char.val (dif_pos hc)
    rw [h] at hval
    obtain ⟨hlow, hhigh⟩ := hc
    grind
  · rw [← h, toLower_eq_self hc]

/-- A relative name has been read from a type before the first equals sign, which is not blank, and
a value behind it. -/
theorem Rdn.parseChars_eq_ok {cs : List Char} {r : Rdn} (h : Rdn.parseChars cs = .ok r) :
    Text.trimChars (cs.takeWhile (· != '=')) ≠ [] ∧
      r.type.name.toList = (Text.trimChars (cs.takeWhile (· != '='))).map Char.toLower ∧
      ∃ value, r.value.toList = Text.trimChars value := by
  unfold parseChars at h
  split at h
  · cases h
  · dsimp only at h
    split at h
    · cases h
    · rename_i value _ hempty
      obtain rfl := Except.ok.inj h
      refine ⟨fun htype => ?_, ?_, unescapeChars value, ?_⟩
      · rw [htype] at hempty
        exact hempty rfl
      · simp [ofPair, AttributeId.ofName, Text.lowerAscii, Text.trim]
      · rw [ofPair, Text.trim, String.toList_ofList, String.toList_ofList]

theorem Rdn.parseChars_plain {cs : List Char} {r : Rdn} (h : Rdn.parseChars cs = .ok r) :
    r.Plain := by
  obtain ⟨_, htype, _⟩ := parseChars_eq_ok h
  intro hmem
  rw [htype] at hmem
  obtain ⟨c, hc, heq⟩ := List.mem_map.1 hmem
  rw [Text.eq_of_toLower (by decide) heq] at hc
  have hall := List.all_eq_true.1 (List.all_takeWhile (l := cs) (p := (· != '=')))
  exact absurd (hall '=' (Text.mem_trimChars hc)) (by decide)

/-- The characters can stand in a relative name: behind a backslash anything can stand, and
elsewhere no comma. -/
def Rdn.Scans : (escaped : Bool) → List Char → Prop
  | _, [] => True
  | true, _ :: cs => Scans false cs
  | false, c :: cs => if c = '\\' then Scans true cs else c ≠ ',' ∧ Scans false cs

theorem Dn.exists_of_mem_readRdns {whole : String} {part cs : List Char} {rs : List Rdn}
    (hpart : ∀ t, Rdn.Scans false t → Rdn.Scans false (part.reverse ++ t))
    (h : readRdns whole part cs = .ok rs) :
    ∀ r ∈ rs, ∃ cs, Rdn.Scans false cs ∧ Rdn.parseChars cs = .ok r := by
  have hscans : Rdn.Scans false part.reverse := by simpa using hpart [] trivial
  fun_induction readRdns whole part cs generalizing rs with
  | case1 part =>
    obtain ⟨r, hr, h⟩ := Except.bind_eq_ok.1 h
    cases h
    simpa using ⟨_, hscans, hr⟩
  | case2 part c cs ih =>
    have hpart' : ∀ t, Rdn.Scans false t → Rdn.Scans false ((c :: '\\' :: part).reverse ++ t) := by
      intro t ht
      have : Rdn.Scans false (part.reverse ++ '\\' :: c :: t) := hpart _ ht
      simpa using this
    exact ih hpart' h (by simpa using hpart' [] trivial)
  | case3 => cases h
  | case4 part cs _ _ ih =>
    obtain ⟨r, hr, h⟩ := Except.bind_eq_ok.1 h
    obtain ⟨rs', hrs', h⟩ := Except.bind_eq_ok.1 h
    cases h
    intro s hs
    rcases List.mem_cons.1 hs with rfl | hs
    · exact ⟨_, hscans, hr⟩
    · exact ih (fun t ht => ht) hrs' trivial s hs
  | case5 part c cs _ hbackslash hcomma ih =>
    have hpart' : ∀ t, Rdn.Scans false t → Rdn.Scans false ((c :: part).reverse ++ t) := by
      intro t ht
      have : Rdn.Scans false (part.reverse ++ c :: t) := by
        refine hpart _ ?_
        rw [Rdn.Scans, if_neg hbackslash]
        exact ⟨hcomma, ht⟩
      simpa using this
    exact ih hpart' h (by simpa using hpart' [] trivial)

theorem Dn.exists_of_mem_parse {s : String} {d : Dn} (h : Dn.parse s = .ok d) :
    ∀ r ∈ d.rdns, ∃ cs, Rdn.Scans false cs ∧ Rdn.parseChars cs = .ok r := by
  unfold parse at h
  split at h
  · cases h
    exact fun r hr => nomatch hr
  · obtain ⟨rs, hrs, h⟩ := Except.map_eq_ok.1 h
    cases h
    have hempty : ∀ t, Rdn.Scans false t → Rdn.Scans false (([] : List Char).reverse ++ t) :=
      fun _ ht => ht
    exact exists_of_mem_readRdns hempty hrs

theorem Dn.parse_plain {s : String} {d : Dn} (h : Dn.parse s = .ok d) : d.Plain := by
  intro r hr
  obtain ⟨_, _, hcs⟩ := exists_of_mem_parse h r hr
  exact Rdn.parseChars_plain hcs

end Directory
