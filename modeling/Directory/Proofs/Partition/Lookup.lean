import Directory.Proofs.Partition.Naming

/-!
# Names compared as texts and level by level

Entries are looked up by the text of a normalized name, while the order of the tree is told from
lists of relative names.

* `Dn.above?`: the name some levels up, which is an end of the list of relative names.
* `Dn.isBelowOrSelf_iff_above`, `Dn.rebase?_iff_above`: a name lies below another, and can be moved
  elsewhere with it, if it has the normalized relative names of the other some levels up.
* `Dn.Plain.normalized_eq_iff`: the texts of plain names agree only if the lists do.
* `Partition.WellNamed.idOf?_iff`: what a look-up by text finds.
* `Dn.comparisons_agree`: **both ways of comparing names that have been read agree**.
-/

namespace Directory

/-! ## Names above a name -/

namespace Dn

/-- The name `k` levels up; there are as many levels as relative names. -/
def above? (d : Dn) : (k : Nat) → Option Dn
  | 0 => some d
  | k + 1 => (d.above? k).bind parent?

variable {d e f g a : Dn} {k : Nat}

theorem above?_eq_some : d.above? k = some a ↔ k ≤ d.length ∧ a = ⟨d.rdns.drop k⟩ := by
  induction k generalizing a with
  | zero =>
    rw [above?, Option.some.injEq, eq_comm]
    exact (and_iff_right (Nat.zero_le _)).symm
  | succ k ih =>
    rw [above?, Option.bind_eq_some_iff]
    constructor
    · rintro ⟨b, hb, hparent⟩
      obtain ⟨hk, rfl⟩ := ih.1 hb
      obtain ⟨r, hr⟩ := rdns_eq_of_parent? hparent
      have hr : d.rdns.drop k = r :: a.rdns := hr
      have hlength := congrArg List.length hr
      rw [List.length_drop, List.length_cons] at hlength
      refine ⟨by rw [length]; omega, ?_⟩
      rw [← List.tail_drop, hr]
      rfl
    · rintro ⟨hk, rfl⟩
      refine ⟨⟨d.rdns.drop k⟩, ih.2 ⟨Nat.le_of_succ_le hk, rfl⟩, ?_⟩
      rw [parent?, List.drop_eq_getElem_cons hk]
      rfl

theorem above?_key (h : d.above? k = some a) : a.key = d.key.drop k := by
  obtain ⟨_, rfl⟩ := above?_eq_some.1 h
  exact List.map_drop

/-- The number of levels is told from the lengths of the names. -/
theorem above?_length (h : d.above? k = some a) (hkey : a.key = e.key) :
    k + e.length = d.length := by
  obtain ⟨hk, _⟩ := above?_eq_some.1 h
  have hlength := congrArg List.length ((above?_key h).symm.trans hkey)
  rw [List.length_drop, length_key, length_key] at hlength
  omega

theorem Plain.above (hd : d.Plain) (h : d.above? k = some a) : a.Plain := by
  obtain ⟨_, rfl⟩ := above?_eq_some.1 h
  exact fun r hr => hd r (List.mem_of_mem_drop hr)

theorem isBelowOrSelf_iff_above :
    d.isBelowOrSelf e = true ↔ ∃ k a, d.above? k = some a ∧ a.key = e.key := by
  rw [isBelowOrSelf, List.isSuffixOf_iff_suffix]
  constructor
  · intro h
    have hlength := h.length_le
    rw [length_key, length_key] at hlength
    refine ⟨d.length - e.length, _, above?_eq_some.2 ⟨Nat.sub_le .., rfl⟩, ?_⟩
    rw [List.suffix_iff_eq_drop.1 h, length_key, length_key]
    exact List.map_drop
  · rintro ⟨k, a, h, hkey⟩
    rw [← hkey, above?_key h]
    exact List.drop_suffix k d.key

theorem isBelow_iff_above :
    d.isBelow e = true ↔ ∃ k a, 0 < k ∧ d.above? k = some a ∧ a.key = e.key := by
  rw [isBelow, Bool.and_eq_true, decide_eq_true_iff, isBelowOrSelf_iff_above]
  constructor
  · rintro ⟨hlength, k, a, h, hkey⟩
    have := above?_length h hkey
    exact ⟨k, a, by omega, h, hkey⟩
  · rintro ⟨k, a, hk, h, hkey⟩
    have := above?_length h hkey
    exact ⟨by omega, k, a, h, hkey⟩

/-- Moving a name elsewhere replaces all that is some levels up. -/
theorem rebase?_iff_above : d.rebase? e f = some g ↔
    ∃ k a, d.above? k = some a ∧ a.key = e.key ∧ g = ⟨d.rdns.take k ++ f.rdns⟩ := by
  rw [rebase?, Option.ite_none_right_eq_some, isBelowOrSelf_iff_above]
  constructor
  · rintro ⟨⟨k, a, h, hkey⟩, hg⟩
    have hk : d.length - e.length = k := Nat.sub_eq_of_eq_add (above?_length h hkey).symm
    rw [hk] at hg
    exact ⟨k, a, h, hkey, (Option.some.inj hg).symm⟩
  · rintro ⟨k, a, h, hkey, rfl⟩
    have hk : d.length - e.length = k := Nat.sub_eq_of_eq_add (above?_length h hkey).symm
    exact ⟨⟨k, a, h, hkey⟩, by rw [hk]⟩

theorem Plain.normalized_eq_iff (hd : d.Plain) (he : e.Plain) :
    d.normalized = e.normalized ↔ d.key = e.key :=
  ⟨key_eq_of_normalized_eq hd he, normalized_eq_of_key_eq⟩

theorem key_eq_iff : d.key = e.key ↔ d.length = e.length ∧ d.isBelowOrSelf e = true := by
  rw [isBelowOrSelf, List.isSuffixOf_iff_suffix]
  constructor
  · intro h
    have hlength := congrArg List.length h
    rw [length_key, length_key] at hlength
    exact ⟨hlength, h ▸ List.suffix_refl _⟩
  · rintro ⟨hlength, h⟩
    refine (h.eq_of_length ?_).symm
    rw [length_key, length_key, hlength]

end Dn

/-! ## Look-ups -/

namespace Partition

/-- A look-up by the text of a name finds the entry with the same normalized relative names. -/
theorem WellNamed.idOf?_iff {p : Partition} (h : p.WellNamed) (hp : p.Arranged) {name : Dn}
    (hname : name.Plain) {id : EntryId} :
    p.idOf? name = some id ↔ ∃ e, p.get? id = some e ∧ name.key = e.name.key := by
  constructor
  · intro hid
    obtain ⟨e, he, hn⟩ := idOf?_eq_some hp hid
    exact ⟨e, he, (hname.normalized_eq_iff (h.plain id e he)).1 hn⟩
  · rintro ⟨e, he, hkey⟩
    cases hid : p.idOf? name with
    | none => exact absurd (Dn.normalized_eq_of_key_eq hkey) (idOf?_eq_none hp hid he)
    | some i =>
      obtain ⟨f, hf, hn⟩ := idOf?_eq_some hp hid
      have hkey' := (hname.normalized_eq_iff (h.plain i f hf)).1 hn
      rw [h.distinct i id f e hf he (hkey'.symm.trans hkey)]

end Partition

namespace Dn

/-- **Names that have been read are compared as texts and level by level alike.** Two have the same
normalized form if they are of one length and one is the other or lies below it. A name lies below
another, or can be moved elsewhere with it, if the name some levels up has the normalized form of
the other. And where all names of a history have been read, looking up the name some levels up, by
its normalized form, finds the entry whose name is as many levels shorter and has the name below
it. -/
theorem comparisons_agree {s t : String} {d e : Dn} (hd : Dn.parse s = .ok d)
    (he : Dn.parse t = .ok e) :
    (d.normalized = e.normalized ↔ d.length = e.length ∧ d.isBelowOrSelf e = true) ∧
    (d.isBelow e = true ↔
      ∃ k a, 1 ≤ k ∧ d.above? k = some a ∧ a.normalized = e.normalized) ∧
    (∀ f g, d.rebase? e f = some g ↔ ∃ k a, d.above? k = some a ∧
      a.normalized = e.normalized ∧ g = ⟨d.rdns.take k ++ f.rdns⟩) ∧
    ∀ (p : Partition) c ws, p.ReachedBy c ws → (∀ w ∈ ws, w.Parsed) →
      ∀ k a, d.above? k = some a → ∀ id, p.idOf? a = some id ↔ ∃ x, p.get? id = some x ∧
        k + x.name.length = d.length ∧ d.isBelowOrSelf x.name = true := by
  have hd := parse_plain hd
  have he := parse_plain he
  have habove : ∀ k a, d.above? k = some a → (a.normalized = e.normalized ↔ a.key = e.key) :=
    fun k a h => (hd.above h).normalized_eq_iff he
  refine ⟨(hd.normalized_eq_iff he).trans key_eq_iff, isBelow_iff_above.trans ?_, fun f g =>
    rebase?_iff_above.trans ?_, fun p c ws hp hws k a h id => ?_⟩
  · exact exists₂_congr fun k a => and_congr_right fun _ => and_congr_right fun h =>
      (habove k a h).symm
  · exact exists₂_congr fun k a => and_congr_right fun h => and_congr_left' (habove k a h).symm
  · rw [(hp.wellNamed hws).idOf?_iff hp.arranged (hd.above h)]
    refine exists_congr fun x => and_congr_right fun _ => ?_
    rw [isBelowOrSelf_iff_above]
    constructor
    · intro hkey
      exact ⟨above?_length h hkey, k, a, h, hkey⟩
    · rintro ⟨hk, l, b, hb, hkey⟩
      obtain rfl : l = k := Nat.add_right_cancel ((above?_length hb hkey).trans hk.symm)
      cases h.symm.trans hb
      exact hkey

theorem comparisons_agree_sample : ∃ d e, Dn.parse "cn\\ =Ann\\, Lee, OU=All  Staff,dc=x" = .ok d ∧
    Dn.parse "ou=all staff, DC=X" = .ok e ∧ d.isBelow e = true ∧
    ∃ k a, 1 ≤ k ∧ d.above? k = some a ∧ a.normalized = e.normalized := by
  have hd : Dn.parse "cn\\ =Ann\\, Lee, OU=All  Staff,dc=x" =
      .ok ⟨[⟨⟨"cn\\"⟩, "Ann, Lee"⟩, ⟨⟨"ou"⟩, "All  Staff"⟩, ⟨⟨"dc"⟩, "x"⟩]⟩ :=
    Except.toOption_eq_some.1 (by decide +kernel)
  have he : Dn.parse "ou=all staff, DC=X" = .ok ⟨[⟨⟨"ou"⟩, "all staff"⟩, ⟨⟨"dc"⟩, "X"⟩]⟩ :=
    Except.toOption_eq_some.1 (by decide +kernel)
  obtain ⟨_, hbelow, _⟩ := comparisons_agree hd he
  exact ⟨_, _, hd, he, by decide +kernel, hbelow.1 (by decide +kernel)⟩

end Dn

end Directory
