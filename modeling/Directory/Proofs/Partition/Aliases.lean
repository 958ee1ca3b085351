import Directory.Proofs.Partition.Relinking
import Directory.Proofs.Partition.NoTrace

/-!
# Aliases in step with the entries

* `Partition.StandsFor`: an alias and the entry that it stands for.
* `Partition.Linked`: whatever the index of aliases holds is an alias that stands for an entry.
* `Partition.Steady`: as far as aliases go, an entry is what it was.
* `Partition.Exchanges`: which links an entry loses and gets when it gets other attributes.
* `Partition.Relinked`: which links a write takes out and which it enters, the entries whose links
  it keeps being steady.
* `Partition.Ordered.relinked`: every write that is made relinks.
-/

namespace Directory

open Relation

/-! ## Entries with more values -/

namespace Entry

variable {e e' : Entry}

theorem addValue_grows (e : Entry) (b : AttributeId) (v : Value) (a : AttributeId) :
    ∃ vs, (e.addValue b v).valuesOf a = e.valuesOf a ++ vs := by
  unfold addValue valuesOf SortedMap.getD
  by_cases hab : a = b
  · subst hab
    rw [SortedMap.get?_insert_self, Option.getD_some]
    split
    · exact ⟨[], (List.append_nil _).symm⟩
    · exact ⟨[v], rfl⟩
  · rw [SortedMap.get?_insert_of_ne _ hab]
    exact ⟨[], (List.append_nil _).symm⟩

theorem withNameValue_grows {p : Partition} (h : e.withNameValue p = .ok e') (a : AttributeId) :
    ∃ vs, e'.valuesOf a = e.valuesOf a ++ vs := by
  unfold withNameValue at h
  split at h
  · cases h
    exact ⟨[], (List.append_nil _).symm⟩
  · obtain ⟨_, _, h⟩ := Except.bind_eq_ok.1 h
    obtain ⟨_, _, h⟩ := Except.bind_eq_ok.1 h
    split at h <;> cases h
    · exact ⟨[], (List.append_nil _).symm⟩
    · exact addValue_grows ..

theorem isAlias_of_grows (hgrows : ∀ a, ∃ vs, e'.valuesOf a = e.valuesOf a ++ vs)
    (h : e.isAlias = true) : e'.isAlias = true := by
  obtain ⟨hclass, htarget⟩ := Bool.and_eq_true_iff.1 h
  obtain ⟨cs, hcs⟩ := hgrows .objectClass
  obtain ⟨ts, hts⟩ := hgrows .aliasedObjectName
  refine Bool.and_eq_true_iff.2 ⟨?_, ?_⟩
  · unfold hasAliasClass at hclass ⊢
    rw [hcs, List.any_append, hclass, Bool.true_or]
  · unfold aliasTarget? at htarget ⊢
    rw [hts]
    cases hvs : e.valuesOf .aliasedObjectName with
    | nil =>
      rw [hvs] at htarget
      cases htarget
    | cons v vs =>
      rw [hvs] at htarget
      exact htarget

end Entry

/-! ## Links in step -/

namespace Partition

/-- The entry is an alias. -/
def IsAlias (p : Partition) (id : EntryId) : Prop := ∃ e, p.get? id = some e ∧ e.isAlias = true

/-- The entry is an alias of the normalized name, which is that of another entry; that one is no
alias, and the alias does not lie below it. -/
structure StandsFor (p : Partition) (a : EntryId) (n : String) (t : EntryId) : Prop where
  source : ∃ e, p.get? a = some e ∧ e.isAlias = true ∧ e.targetKey? = some n
  target : ∃ f, p.get? t = some f ∧ f.name.normalized = n ∧ f.isAlias = false
  outside : ¬p.Above t a

/-- Whatever is indexed as an alias of a name stands for the entry of that name. -/
def Linked (p : Partition) : Prop := ∀ n a, p.AliasOf n a → ∃ t, p.StandsFor a n t

/-- As far as aliases go, the entry is what it was. -/
structure Steady (p p' : Partition) (i : EntryId) : Prop where
  record : ∀ e, p.get? i = some e → ∃ e', p'.get? i = some e' ∧ e'.name = e.name ∧
    e'.parent = e.parent ∧ e'.isAlias = e.isAlias ∧
    (e.isAlias = true → e'.targetKey? = e.targetKey?)
  above : ∀ x, p'.Above x i ↔ p.Above x i

/-- What an entry with other attributes does to alias links: those of `dropped` are of the old
record, and those of `added` are made for the new one. An alias keeps its link only if it still
stands for the same name. -/
structure Exchanges (p : Partition) (old new : Entry) (dropped added : List AliasLink) : Prop where
  recorded : ∀ l ∈ dropped, p.Recorded old l
  admitted : ∀ l ∈ added, new.isAlias = true ∧ p.Admitted new l
  indexed : old.isAlias = true → ∃ n, p.AliasOf n old.id
  kept : old.isAlias = true → (∃ l, l ∈ dropped) ∨
    (new.isAlias = true ∧ ∀ n, p.AliasOf n old.id → new.targetKey? = some n)
  entered : new.isAlias = true → (∃ l, l ∈ added) ∨ (dropped = [] ∧ old.isAlias = true)
  untargeted : new.isAlias = true → ∀ a, ¬p.AliasOf new.name.normalized a

/-- What a write does to alias links: those of `dropped` are taken out of the tree as it was, and
those of `added` entered into the tree as it is. -/
structure Relinked (p : Partition) (w : Write) (dropped added : List AliasLink) (p' : Partition) :
    Prop where
  links : p'.links = (p.links.dropAll p dropped).addAll p' added
  recorded : ∀ l ∈ dropped, ∃ e, p.get? l.source = some e ∧ p.Recorded e l
  admitted : ∀ l ∈ added, ∃ e, p'.get? l.source = some e ∧ e.isAlias = true ∧ p'.Admitted e l
  kept : ∀ n a t, p.AliasOf n a → p.StandsFor a n t → (∀ l ∈ dropped, l.source ≠ a) →
    p.Steady p' a ∧ p.Steady p' t
  aliases : ∀ i, p'.IsAlias i → (∃ l ∈ added, l.source = i) ∨
    ((∀ l ∈ dropped, l.source ≠ i) ∧ (p.IsAlias i ∨ w.relocation?.isSome = true))
  renewed : w.relocation?.isSome = true → ∀ l ∈ added, p.IsAlias l.source
  stranded : ∀ i, p.IsAlias i → (∀ n, ¬p.AliasOf n i) → p'.IsAlias i ∧ ∀ l ∈ added, l.source ≠ i

/-- What is known of a partition after a history with names that have been read: the indices of
values and of the tree are in step, and names follow the tree. -/
structure Ordered (n : Nat) (p : Partition) : Prop where
  valued : p.Valued n
  arranged : p.Arranged
  wellNamed : p.WellNamed

variable {p p' : Partition} {e : Entry} {l : AliasLink} {n m : String} {a t i id : EntryId}

theorem isAlias_iff (he : p.get? a = some e) : p.IsAlias a ↔ e.isAlias = true := by
  constructor
  · rintro ⟨f, hf, halias⟩
    cases he.symm.trans hf
    exact halias
  · exact fun halias => ⟨e, he, halias⟩

theorem isAlias_congr (hget : p'.get? a = p.get? a) : p'.IsAlias a ↔ p.IsAlias a := by
  rw [IsAlias, hget]
  rfl

theorem Linked.key (h : p.Linked) (ha : p.AliasOf n a) (he : p.get? a = some e) :
    e.isAlias = true ∧ e.targetKey? = some n := by
  obtain ⟨t, hstands⟩ := h n a ha
  obtain ⟨e', he', halias, hkey⟩ := hstands.source
  cases he.symm.trans he'
  exact ⟨halias, hkey⟩

theorem Linked.unique (h : p.Linked) (ha : p.AliasOf n a) (ha' : p.AliasOf m a) : m = n := by
  obtain ⟨t, hstands⟩ := h n a ha
  obtain ⟨e, he, _, hkey⟩ := hstands.source
  exact Option.some.inj ((h.key ha' he).2.symm.trans hkey)

namespace Steady

theorem of_get? (hget : p'.get? i = p.get? i) (habove : ∀ x, p'.Above x i ↔ p.Above x i) :
    p.Steady p' i where
  record e he := ⟨e, hget.trans he, rfl, rfl, rfl, fun _ => rfl⟩
  above := habove

theorem of_master (hmaster : p'.master = p.master) (i : EntryId) : p.Steady p' i :=
  of_get? (get?_congr hmaster i) fun _ => by rw [above_congr hmaster]

/-- Other attributes leave an entry steady if it stands for the name that it stood for before, or
for none as before. -/
theorem of_amended {old new : Entry} (hold : p.get? new.id = some old) (hname : new.name = old.name)
    (hparent : new.parent = old.parent) (h' : p.Amended new.id new p') {i : EntryId}
    (hi : i = new.id → new.isAlias = old.isAlias ∧
      (old.isAlias = true → new.targetKey? = old.targetKey?)) : p.Steady p' i where
  record e he := by
    by_cases heq : i = new.id
    · subst heq
      cases hold.symm.trans he
      exact ⟨new, get?_inserted h'.master, hname, hparent, hi rfl⟩
    · exact ⟨e, get?_inserted_of_ne h'.master heq ▸ he, rfl, rfl, rfl, fun _ => rfl⟩
  above _ := by
    unfold Above
    rw [hasParent_amended hold hparent h'.master]

theorem of_relocated (hp : p.Arranged) (hown : p.OwnNumbers) {rdn : Option Rdn} {mv : Move}
    (hmv : p.Planned id rdn mv) (h' : p.Relocated mv p') {i : EntryId} (hi : p.Stored i)
    (houtside : i ∉ mv.members) : p.Steady p' i :=
  of_get? (h'.others i houtside) fun _ => (h'.rewritten.redirects hown hmv).way_iff fun hway =>
    houtside ((hp.mem_members hmv).2 ⟨hi, hway⟩)

theorem standsFor (ha : p.Steady p' a) (ht : p.Steady p' t) (h : p.StandsFor a n t) :
    p'.StandsFor a n t where
  source := by
    obtain ⟨e, he, halias, hkey⟩ := h.source
    obtain ⟨e', he', _, _, halias', hkey'⟩ := ha.record e he
    exact ⟨e', he', halias'.trans halias, (hkey' halias).trans hkey⟩
  target := by
    obtain ⟨f, hf, hname, halias⟩ := h.target
    obtain ⟨f', hf', hname', _, halias', _⟩ := ht.record f hf
    exact ⟨f', hf', hname' ▸ hname, halias'.trans halias⟩
  outside := fun h' => h.outside ((ha.above t).1 h')

end Steady

theorem Admitted.name_of_target (h : p.Admitted e l) (hp : p.Arranged) {f : Entry}
    (hf : p.get? l.target = some f) : l.targetNormalized = f.name.normalized := by
  obtain ⟨f', hf', hname⟩ := (hp.named _ _).1 h.named
  cases hf.symm.trans hf'
  exact hname

theorem Admitted.standsFor (h : p.Admitted e l) (hp : p.Arranged) (hnamed : p.WellNamed)
    (he : p.get? l.source = some e) (halias : e.isAlias = true) :
    p.StandsFor l.source l.targetNormalized l.target := by
  obtain ⟨f, hf, _, hnot⟩ := h.target
  have hname := h.name_of_target hp hf
  refine ⟨⟨e, he, halias, h.key⟩, ⟨f, hf, hname.symm, hnot⟩, fun hway => ?_⟩
  obtain ⟨d, hplain, hd, houtside⟩ := h.outside
  have hkey : d.key = f.name.key :=
    Dn.key_eq_of_normalized_eq hplain (hnamed.plain _ f hf) (hd.trans hname)
  have hne : l.target ≠ l.source := by
    intro heq
    rw [heq] at hf
    cases he.symm.trans hf
    exact h.apart hname
  rw [Dn.isBelow_congr hkey] at houtside
  rw [(hnamed.isBelow_iff hp he hf).2 ⟨hway, hne⟩] at houtside
  cases houtside

/-- An entry that is to stand for the target of its old link has the name that is indexed of it. -/
theorem Admitted.key_of_target (h : p.Admitted e l) (hp : p.Arranged) (hl : p.Linked) {old : Entry}
    {lo : AliasLink} (hrecorded : p.Recorded old lo) (htarget : lo.target = l.target)
    (ha : p.AliasOf n old.id) : e.targetKey? = some n := by
  obtain ⟨f, hf, hname⟩ := (hp.named _ _).1 hrecorded.named
  rw [h.key, h.name_of_target hp (htarget ▸ hf), ← hname, hl.unique ha hrecorded.aliasOf]

/-- A link that one partition admits is admitted by another where its target is the same. -/
theorem Admitted.transfer (h : p.Admitted e l) (hget : p'.get? l.target = p.get? l.target)
    (hnamed : p'.Named l.targetNormalized l.target) : p'.Admitted e l where
  source := h.source
  parent := h.parent
  key := h.key
  named := hnamed
  target := hget ▸ h.target
  apart := h.apart
  outside := h.outside

theorem movedEntry_isAlias {mv : Move} {moved : Entry}
    (h : Transaction.movedEntry p mv id e = .ok moved) (halias : e.isAlias = true) :
    moved.isAlias = true := by
  unfold Transaction.movedEntry at h
  split at h
  · split at h
    · obtain ⟨e', he', h⟩ := Except.bind_eq_ok.1 h
      obtain ⟨_, _, h⟩ := Except.bind_eq_ok.1 h
      cases h
      exact Entry.isAlias_of_grows (Entry.withNameValue_grows he') halias
    · cases h
      exact halias
  · cases h

/-! ## Old links and new ones -/

section

variable {dropped added : List AliasLink}

/-- The link of the old record and that of the new one are exchanged, unless they have the same
target. -/
theorem exchanges_of_links (hsound : p.Sound) (hp : p.Arranged) (hl : p.Linked) {old new : Entry}
    {oldLink newLink : Option AliasLink} (holdLink : p.linkOf old = .ok oldLink)
    (hnewLink : p.linkFor new = .ok newLink)
    (hchoice : (oldLink.map AliasLink.target = newLink.map AliasLink.target ∧ dropped = [] ∧
      added = []) ∨ (dropped = oldLink.toList ∧ added = newLink.toList)) :
    p.Exchanges old new dropped added := by
  have holdCases := linkOf_eq_ok hsound holdLink
  have hnewCases := linkFor_eq_ok hnewLink
  refine ⟨?recorded, ?admitted, fun halias => ?indexed, fun halias => ?kept, fun halias => ?entered,
    fun halias => ?untargeted⟩
  case recorded =>
    rcases hchoice with ⟨_, rfl, _⟩ | ⟨rfl, _⟩
    · exact fun _ h => nomatch h
    · exact fun l hl => (linkOf_recorded hsound holdLink l hl).2
  case admitted =>
    rcases hchoice with ⟨_, _, rfl⟩ | ⟨_, rfl⟩
    · exact fun _ h => nomatch h
    · exact linkFor_admitted hnewLink
  case indexed =>
    rcases holdCases with ⟨hnot, _⟩ | ⟨lo, _, _, hrecorded⟩
    · cases hnot.symm.trans halias
    · exact ⟨_, hrecorded.aliasOf⟩
  case kept =>
    rcases holdCases with ⟨hnot, _⟩ | ⟨lo, rfl, _, hrecorded⟩
    · cases hnot.symm.trans halias
    · rcases hchoice with ⟨htarget, _, _⟩ | ⟨rfl, _⟩
      · rcases hnewCases with ⟨_, rfl⟩ | ⟨ln, rfl, halias', hadmitted, _⟩
        · cases htarget
        · exact .inr ⟨halias', fun n ha =>
            hadmitted.key_of_target hp hl hrecorded (Option.some.inj htarget) ha⟩
      · exact .inl ⟨lo, .head _⟩
  case entered =>
    rcases hnewCases with ⟨hnot, _⟩ | ⟨ln, rfl, _⟩
    · cases hnot.symm.trans halias
    · rcases hchoice with ⟨htarget, rfl, _⟩ | ⟨_, rfl⟩
      · rcases holdCases with ⟨_, rfl⟩ | ⟨_, _, halias', _⟩
        · cases htarget
        · exact .inr ⟨rfl, halias'⟩
      · exact .inl ⟨ln, .head _⟩
  case untargeted =>
    rcases hnewCases with ⟨hnot, _⟩ | ⟨_, _, _, _, huntargeted⟩
    · cases hnot.symm.trans halias
    · exact huntargeted

variable {parent : Option Dn} {rdn : Option Rdn} {mv : Move}

theorem source_of_planMove (hsound : p.Sound) (hown : p.OwnNumbers)
    (hmv : p.planMove id parent rdn = .ok mv) (hl : l ∈ mv.links) :
    l.source ∈ mv.members ∧ ∃ e, p.get? l.source = some e ∧ e.isAlias = true ∧ p.Recorded e l := by
  obtain ⟨_, hfrom, _⟩ := linksToMove_eq_ok hsound (planMove_links hmv)
  obtain ⟨m, hm, e, he, halias, hrecorded⟩ := hfrom l hl
  obtain rfl : l.source = m := hrecorded.source.trans (hown m e he)
  exact ⟨hm, e, he, halias, hrecorded⟩

theorem exists_link_of_planMove (hsound : p.Sound) (hown : p.OwnNumbers)
    (hmv : p.planMove id parent rdn = .ok mv) (ha : a ∈ mv.members) (halias : p.IsAlias a) :
    (∃ l ∈ mv.links, l.source = a) ∧ ∃ n, p.AliasOf n a := by
  obtain ⟨e, he, halias⟩ := halias
  obtain ⟨_, _, hall⟩ := linksToMove_eq_ok hsound (planMove_links hmv)
  obtain ⟨l, hl, hrecorded⟩ := hall a ha e he halias
  exact ⟨⟨l, hl, hrecorded.source.trans (hown a e he)⟩, _, hown a e he ▸ hrecorded.aliasOf⟩

/-- A link that is made anew is that of an alias of the moved subtree, which is an alias still. -/
theorem Renews.source_of_planMove (hrenews : p'.Renews mv.links added) (hsound : p.Sound)
    (hown : p.OwnNumbers) (hmv : p.planMove id parent rdn = .ok mv) (h' : p.Relocated mv p')
    (hl : l ∈ added) : l.source ∈ mv.members ∧ p.IsAlias l.source ∧
      ∃ e, p'.get? l.source = some e ∧ e.isAlias = true ∧ p'.Admitted e l := by
  obtain ⟨l₀, hl₀, e, he, hadmitted⟩ := hrenews.source l hl
  obtain ⟨hm, e₀, he₀, halias, _⟩ := Partition.source_of_planMove hsound hown hmv hl₀
  have hsame : l.source = l₀.source := hadmitted.source.trans (h'.own _ e he)
  rw [← hsame] at hm he he₀
  refine ⟨hm, ⟨e₀, he₀, halias⟩, e, he, ?_, hadmitted⟩
  obtain ⟨current, moved, ⟨hcurrent, hmoved⟩, hget⟩ := h'.moved _ hm
  cases he₀.symm.trans hcurrent
  cases he.symm.trans hget
  exact movedEntry_isAlias hmoved halias

end

/-! ## What the writes do to links -/

namespace Relinked

variable {w : Write} {dropped added : List AliasLink}

theorem of_same (hmaster : p'.master = p.master) (hsystem : p'.system = p.system) :
    p.Relinked w [] [] p' where
  links := links_congr (by rw [aliasIndices, hsystem]; rfl)
  recorded _ h := nomatch h
  admitted _ h := nomatch h
  kept _ a t _ _ _ := ⟨.of_master hmaster a, .of_master hmaster t⟩
  aliases i := by
    rintro ⟨e, he, halias⟩
    exact .inr ⟨fun _ h => (nomatch h), .inl ⟨e, get?_congr hmaster i ▸ he, halias⟩⟩
  renewed _ _ h := nomatch h
  stranded i := by
    rintro ⟨e, he, halias⟩ _
    exact ⟨⟨e, (get?_congr hmaster i).trans he, halias⟩, fun _ h => nomatch h⟩

theorem entered (hp : p.Arranged) (hfree : p.get? e.id = none) {link : Option AliasLink}
    (hlink : p.linkFor e = .ok link) {k : EntryId} (h' : Entered { p with nextId := k } e p')
    (hlinks : p'.links = p.links.addAll p' link.toList) (e₀ : Entry) :
    p.Relinked (.add e₀) [] link.toList p' := by
  have hself : p'.get? e.id = some e := get?_inserted h'.master
  have hne : ∀ i, p.Stored i → i ≠ e.id := fun i hi => hi.ne hfree
  have hother : ∀ i, i ≠ e.id → p'.get? i = p.get? i := fun i => get?_inserted_of_ne h'.master
  have hsteady : ∀ i, p.Stored i → p.Steady p' i := fun i hi =>
    .of_get? (hother i (hne i hi)) fun x => (redirects_of_get? hother).way_iff <|
      not_above_of_leaf (fun j hstep => hne _ (hp.parents j _ hstep) rfl) (hne i hi)
  have hadded := linkFor_admitted hlink
  refine {
    links := hlinks
    recorded := fun _ h => nomatch h
    admitted := ?admitted
    kept := ?kept
    aliases := ?aliases
    renewed := fun h => absurd h Bool.false_ne_true
    stranded := ?stranded }
  case admitted =>
    intro l hl
    obtain ⟨halias, hadmitted⟩ := hadded l hl
    obtain ⟨f, hf, _⟩ := hadmitted.target
    refine ⟨e, hadmitted.source ▸ hself, halias, hadmitted.transfer (hother _ (hne _ ⟨f, hf⟩)) ?_⟩
    exact (h'.named _ _).2 (.inr hadmitted.named)
  case kept =>
    intro n a t _ hstands _
    obtain ⟨e', he', _⟩ := hstands.source
    obtain ⟨f, hf, _⟩ := hstands.target
    exact ⟨hsteady a ⟨e', he'⟩, hsteady t ⟨f, hf⟩⟩
  case aliases =>
    rintro i ⟨f, hf, halias⟩
    by_cases hid : i = e.id
    · subst hid
      cases hself.symm.trans hf
      rcases linkFor_eq_ok hlink with ⟨hnot, _⟩ | ⟨l, rfl, _, hadmitted, _⟩
      · cases hnot.symm.trans halias
      · exact .inl ⟨l, .head _, hadmitted.source⟩
    · exact .inr ⟨fun _ h => (nomatch h), .inl ⟨f, hother i hid ▸ hf, halias⟩⟩
  case stranded =>
    rintro i ⟨f, hf, halias⟩ _
    refine ⟨⟨f, (hother i (hne i ⟨f, hf⟩)).trans hf, halias⟩, fun l hl heq => ?_⟩
    exact hne i ⟨f, hf⟩ (heq.symm.trans (hadded l hl).2.source)

theorem amended (hp : p.Arranged) (hl : p.Linked) {old new : Entry} (hold : p.get? id = some old)
    (hown : old.id = id) (hid : new.id = id) (hname : new.name = old.name)
    (hparent : new.parent = old.parent) (h' : p.Amended id new p')
    (hx : p.Exchanges old new dropped added)
    (hlinks : p'.links = (p.links.dropAll p dropped).addAll p' added) (ms : List Modification) :
    p.Relinked (.modify id ms) dropped added p' := by
  subst hid
  have hself : p'.get? new.id = some new := get?_inserted h'.master
  have hother : ∀ i, i ≠ new.id → p'.get? i = p.get? i := fun i => get?_inserted_of_ne h'.master
  have hsource : ∀ l ∈ dropped, l.source = new.id := fun l hl =>
    (hx.recorded l hl).source.trans hown
  refine {
    links := hlinks
    recorded := fun l hl => ⟨old, hsource l hl ▸ hold, hx.recorded l hl⟩
    admitted := ?admitted
    kept := fun n a t ha hstands hkept => ⟨?source, ?target⟩
    aliases := ?aliases
    renewed := fun h => absurd h Bool.false_ne_true
    stranded := ?stranded }
  case admitted =>
    intro l hl
    obtain ⟨halias, hadmitted⟩ := hx.admitted l hl
    have hne : l.target ≠ new.id := fun heq =>
      hadmitted.apart ((hadmitted.name_of_target hp (heq ▸ hold)).trans (by rw [hname]))
    exact ⟨new, hadmitted.source ▸ hself, halias,
      hadmitted.transfer (hother _ hne) ((h'.named _ _).2 hadmitted.named)⟩
  case source =>
    -- the alias itself has another record only if it stands for the same entry as before
    refine .of_amended hold hname hparent h' fun heq => ?_
    subst heq
    obtain ⟨halias, hkey⟩ := hl.key ha hold
    rcases hx.kept halias with ⟨l, hl⟩ | ⟨halias', hkey'⟩
    · exact absurd (hsource l hl) (hkept l hl)
    · exact ⟨halias'.trans halias.symm, fun _ => (hkey' n (hown ▸ ha)).trans hkey.symm⟩
  case target =>
    -- a target does not become an alias
    refine .of_amended hold hname hparent h' fun heq => ?_
    subst heq
    obtain ⟨f, hf, rfl, hnot⟩ := hstands.target
    cases hold.symm.trans hf
    have hnew : new.isAlias = false := Bool.eq_false_iff.2 fun halias =>
      hx.untargeted halias a (hname ▸ ha)
    exact ⟨hnew.trans hnot.symm, fun halias => by cases hnot.symm.trans halias⟩
  case aliases =>
    rintro i ⟨e, he, halias⟩
    by_cases heq : i = new.id
    · subst heq
      cases hself.symm.trans he
      rcases hx.entered halias with ⟨l, hl⟩ | ⟨rfl, halias'⟩
      · exact .inl ⟨l, hl, (hx.admitted l hl).2.source⟩
      · exact .inr ⟨fun _ h => (nomatch h), .inl ⟨old, hold, halias'⟩⟩
    · exact .inr ⟨fun l hl h => heq (h.symm.trans (hsource l hl)),
        .inl ⟨e, hother i heq ▸ he, halias⟩⟩
  case stranded =>
    rintro i ⟨e, he, halias⟩ hnone
    have hne : i ≠ new.id := by
      rintro rfl
      cases hold.symm.trans he
      obtain ⟨n, hn⟩ := hx.indexed halias
      exact hnone n (hown ▸ hn)
    exact ⟨⟨e, (hother i hne).trans he, halias⟩, fun l hl h =>
      hne (h.symm.trans (hx.admitted l hl).2.source)⟩

theorem removed (hsound : p.Sound) (hp : p.Arranged) (hown : p.OwnNumbers)
    (he : p.get? id = some e) (hchildren : ∀ i, ¬p.OneLevel id i)
    (huntargeted : ∀ a, ¬p.AliasOf e.name.normalized a) {link : Option AliasLink}
    (hlink : p.linkOf e = .ok link) (h' : p.Removed id e p')
    (hlinks : p'.links = p.links.dropAll p link.toList) :
    p.Relinked (.delete id) link.toList [] p' := by
  have hself : p'.get? id = none := get?_erased h'.master
  have hother : ∀ i, i ≠ id → p'.get? i = p.get? i := fun i => get?_erased_of_ne h'.master
  have hleaf : ∀ i, ¬p.HasParent i id := fun i hi => hchildren i ((hp.oneLevel id i).2 hi)
  have hsteady : ∀ i, i ≠ id → p.Steady p' i := fun i hi =>
    .of_get? (hother i hi) fun x => (redirects_of_get? hother).way_iff (not_above_of_leaf hleaf hi)
  have hrecorded := linkOf_recorded hsound hlink
  have hsource : ∀ l ∈ link.toList, l.source = id := fun l hl =>
    (hrecorded l hl).2.source.trans (hown id e he)
  refine {
    links := hlinks
    recorded := fun l hl => ⟨e, hsource l hl ▸ he, (hrecorded l hl).2⟩
    admitted := fun _ h => nomatch h
    kept := fun n a t ha hstands hkept => ⟨hsteady a ?source, hsteady t ?target⟩
    aliases := ?aliases
    renewed := fun h => absurd h Bool.false_ne_true
    stranded := fun i hi hnone => ⟨?stranded, fun _ h => nomatch h⟩ }
  case source =>
    rintro rfl
    obtain ⟨e', he', halias, _⟩ := hstands.source
    cases he.symm.trans he'
    rcases linkOf_eq_ok hsound hlink with ⟨hnot, _⟩ | ⟨l, rfl, _⟩
    · cases hnot.symm.trans halias
    · exact hkept l (.head _) (hsource l (.head _))
  case target =>
    rintro rfl
    obtain ⟨f, hf, hn, _⟩ := hstands.target
    cases he.symm.trans hf
    exact huntargeted a (hn ▸ ha)
  case aliases =>
    rintro i ⟨f, hf, halias⟩
    have hne : i ≠ id := by
      rintro rfl
      cases hself.symm.trans hf
    refine .inr ⟨fun l hl heq => hne (heq.symm.trans (hsource l hl)), .inl ⟨f, ?_, halias⟩⟩
    exact hother i hne ▸ hf
  case stranded =>
    obtain ⟨f, hf, halias⟩ := hi
    refine ⟨f, (hother i ?_).trans hf, halias⟩
    rintro rfl
    cases he.symm.trans hf
    rcases linkOf_eq_ok hsound hlink with ⟨hnot, _⟩ | ⟨l, _, _, hrecorded⟩
    · cases hnot.symm.trans halias
    · exact hnone _ (hown i e he ▸ hrecorded.aliasOf)

/-- A moved subtree: the links of its aliases are made anew. -/
theorem relocated (hsound : p.Sound) (hp : p.Arranged) (hown : p.OwnNumbers) {rdn : Option Rdn}
    {parent : Option Dn} {mv : Move} (hw : w.relocation? = some (id, parent, rdn))
    (hmv : p.planMove id parent rdn = .ok mv) (h' : p.Relocated mv p')
    (hrenews : p'.Renews mv.links added)
    (hlinks : p'.links = (p.links.dropAll p mv.links).addAll p' added) :
    p.Relinked w mv.links added p' := by
  obtain ⟨huntargeted, _⟩ := linksToMove_eq_ok hsound (planMove_links hmv)
  have hplan := planMove_eq_ok hmv
  have hold := fun l (hl : l ∈ mv.links) => source_of_planMove hsound hown hmv hl
  have hnew := fun l (hl : l ∈ added) => hrenews.source_of_planMove hsound hown hmv h' hl
  refine {
    links := hlinks
    recorded := ?recorded
    admitted := ?admitted
    kept := fun n a t ha hstands hkept => ⟨?source, ?target⟩
    aliases := ?aliases
    renewed := fun _ l hl => (hnew l hl).2.1
    stranded := ?stranded }
  case recorded =>
    intro l hl
    obtain ⟨_, e, he, _, hrecorded⟩ := hold l hl
    exact ⟨e, he, hrecorded⟩
  case admitted =>
    intro l hl
    obtain ⟨_, _, e, he, halias, hadmitted⟩ := hnew l hl
    exact ⟨e, he, halias, hadmitted⟩
  case source =>
    obtain ⟨e, he, halias, _⟩ := hstands.source
    refine .of_relocated hp hown hplan h' ⟨e, he⟩ fun hi => ?_
    obtain ⟨⟨l, hl, heq⟩, _⟩ := exists_link_of_planMove hsound hown hmv hi ⟨e, he, halias⟩
    exact hkept l hl heq
  case target =>
    obtain ⟨f, hf, hn, _⟩ := hstands.target
    exact .of_relocated hp hown hplan h' ⟨f, hf⟩ fun hi => huntargeted t hi f hf a (hn ▸ ha)
  case aliases =>
    rintro i ⟨e, he, halias⟩
    by_cases hi : i ∈ mv.members
    · by_cases hwas : p.IsAlias i
      · obtain ⟨⟨l, hl, rfl⟩, _⟩ := exists_link_of_planMove hsound hown hmv hi hwas
        obtain ⟨l', hl', e', he', hadmitted⟩ := hrenews.all l hl
        exact .inl ⟨l', hl', hadmitted.source.trans (h'.own _ e' he')⟩
      · refine .inr ⟨fun l hl heq => hwas ?_, .inr (by rw [hw]; rfl)⟩
        obtain ⟨_, e, he, halias, _⟩ := hold l hl
        exact ⟨e, heq ▸ he, halias⟩
    · exact .inr ⟨fun l hl heq => hi (heq ▸ (hold l hl).1),
        .inl ⟨e, h'.others i hi ▸ he, halias⟩⟩
  case stranded =>
    intro i hwas hnone
    have houtside : i ∉ mv.members := fun hi => by
      obtain ⟨_, n, hn⟩ := exists_link_of_planMove hsound hown hmv hi hwas
      exact hnone n hn
    exact ⟨(isAlias_congr (h'.others i houtside)).2 hwas, fun l hl heq =>
      houtside (heq ▸ (hnew l hl).1)⟩

end Relinked

/-! ### The writes -/

namespace Ordered

open Transaction

variable {k : Nat}

theorem relinked_add (h : p.Ordered k) (hk : k + 1 < UInt64.size) (e : Entry) :
    Ensures (add e) p fun _ p' => ∃ dropped added, p.Relinked (.add e) dropped added p' := by
  have hp := h.valued.sound.skipped
  have hfree := h.valued.get?_nextId hk
  have hcarries : p.Carries p.nextId fun _ => [] := valuesOf_none hfree ▸ h.valued.values p.nextId
  unfold Partition.add Climbing.add takeId
  simp only [liftM_self, transact_eq, Ensures.bind, Ensures.get, Ensures.modify, Ensures.pure,
    Ensures.lift, Ensures.transact]
  intro e' _ link hlink
  refine ((Ensures.enter (t := .start { p with nextId := p.nextId + 1 }) hp
    (e := { e' with id := p.nextId }) ⟨hcarries.tags, hcarries.present⟩ link).and
    (Ensures.enter_links hp _ link)).mono fun _ t' ⟨h', hlinks⟩ => ⟨[], link.toList, ?_⟩
  exact .entered h.arranged hfree hlink h' hlinks e

theorem relinked_modify (h : p.Ordered k) (hl : p.Linked) (id : EntryId)
    (ms : List Modification) : Ensures (modify id ms) p fun _ p' =>
      ∃ dropped added, p.Relinked (.modify id ms) dropped added p' := by
  have hp := h.valued.sound
  have hown := h.valued.own
  unfold Partition.modify Climbing.modify
  simp only [transact_eq, Ensures.bind, Ensures.get, Ensures.lift]
  intro old hold new hnew _ _ oldLink holdLink newLink hnewLink
  have hold := lookup_eq_ok.1 hold
  obtain ⟨hid, hname, hparent⟩ := modifiedBy_eq_ok hnew
  have hcarries : p.Carries id old.valuesOf := valuesOf_some hold ▸ h.valued.values id
  have hamend : ∀ dropped added : Option AliasLink,
      (oldLink.map AliasLink.target = newLink.map AliasLink.target ∧ dropped = none ∧
        added = none) ∨ (dropped = oldLink ∧ added = newLink) →
      Ensures (transact (amend id old new dropped added)) p fun _ p' =>
        ∃ dropped added, p.Relinked (.modify id ms) dropped added p' := by
    intro dropped added hchoice
    rw [Ensures.transact]
    refine ((Ensures.amend (t := .start p) hp hcarries dropped added).and
      (Ensures.amend_links hp hown id old new dropped added)).mono fun _ t' ⟨h', hlinks⟩ =>
      ⟨dropped.toList, added.toList, ?_⟩
    refine .amended h.arranged hl hold (hown id old hold) (hid.trans (hown id old hold)) hname
      hparent h' (exchanges_of_links hp h.arranged hl holdLink hnewLink ?_) hlinks ms
    rcases hchoice with ⟨htarget, rfl, rfl⟩ | ⟨rfl, rfl⟩
    · exact .inl ⟨htarget, rfl, rfl⟩
    · exact .inr ⟨rfl, rfl⟩
  split
  · rename_i htarget
    exact hamend none none (.inl ⟨htarget, rfl, rfl⟩)
  · exact hamend oldLink newLink (.inr ⟨rfl, rfl⟩)

theorem relinked_delete (h : p.Ordered k) (id : EntryId) : Ensures (delete id) p fun _ p' =>
    ∃ dropped added, p.Relinked (.delete id) dropped added p' := by
  have hp := h.valued.sound
  unfold Partition.delete Climbing.delete
  simp only [transact_eq, Ensures.bind, Ensures.get, Ensures.lift]
  intro (e, link) he
  obtain ⟨hget, hchildren⟩ := removable_eq_ok he
  obtain ⟨huntargeted, hlink⟩ := removable_links he
  rw [Ensures.transact]
  refine ((Ensures.remove (t := .start p) hp e link).and
    (Ensures.remove_links hp h.valued.own id e link)).mono fun _ t' ⟨h', hlinks⟩ =>
    ⟨link.toList, [], ?_⟩
  exact .removed hp h.arranged h.valued.own hget hchildren huntargeted hlink h' hlinks

theorem relinked_moveAndRename (h : p.Ordered k) {w : Write} {id : EntryId} {parent : Option Dn}
    {rdn : Option Rdn} (hw : w.relocation? = some (id, parent, rdn)) :
    Ensures (moveAndRename id parent rdn) p fun _ p' =>
      ∃ dropped added, p.Relinked w dropped added p' := by
  have hp := h.valued.sound
  have hown := h.valued.own
  unfold Partition.moveAndRename Climbing.moveAndRename
  simp only [planMove_eq, transact_eq, Ensures.bind, Ensures.get, Ensures.lift]
  intro mv hmv
  have hmembers : mv.members.Nodup := (planMove_eq_ok hmv).members ▸ Index.nodup_ids
  rw [Ensures.transact]
  refine ((Ensures.relocate (t := .start p) hp hown h.valued.values hmembers).and
    (Ensures.relocate_links hp hown mv)).mono fun _ t' ⟨h', added, hrenews, hlinks⟩ =>
    ⟨mv.links, added, ?_⟩
  exact .relocated hp h.arranged hown hw hmv h' hrenews hlinks

/-- **What a write does to alias links**, as long as there are numbers left. -/
theorem relinked (h : p.Ordered k) (hl : p.Linked) (w : Write)
    (hk : k + w.isAdd.toNat < UInt64.size) :
    ∃ dropped added, p.Relinked w dropped added (w.after p) := by
  have hp := h.valued.sound
  have hsame : ∀ {w : Write} (p' : Partition), p' = p →
      ∃ dropped added, p.Relinked w dropped added p' := fun p' hp' =>
    ⟨[], [], .of_same (by rw [hp']) (by rw [hp'])⟩
  have hmove : ∀ {w : Write} {id : EntryId} {parent : Option Dn} {rdn : Option Rdn},
      w.relocation? = some (id, parent, rdn) →
      ∃ dropped added, p.Relinked w dropped added (stateAfter (moveAndRename id parent rdn) p) :=
    fun hw => stateAfter_of (h.relinked_moveAndRename hw) fun e p' he =>
      hsame p' (moveAndRename_refused hp _ _ _ e p' he)
  cases w with
  | add e =>
    refine stateAfter_of (h.relinked_add hk e) fun err p' he => ?_
    rcases add_refused hp e err p' he with rfl | rfl
    · exact hsame _ rfl
    · exact ⟨[], [], .of_same rfl rfl⟩
  | modify id ms =>
    exact stateAfter_of (h.relinked_modify hl id ms) fun e p' he =>
      hsame p' (modify_refused hp id ms e p' he)
  | delete id =>
    exact stateAfter_of (h.relinked_delete id) fun e p' he =>
      hsame p' (delete_refused hp id e p' he)
  | rename id rdn => exact hmove rfl
  | move id parent => exact hmove rfl
  | moveAndRename id parent rdn => exact hmove rfl
  | addIndex attr =>
    refine stateAfter_of ((ensures_addIndex hp attr).mono ?_) fun e p' he =>
      hsame p' (addIndex_refused attr e p' he)
    rintro _ p' (rfl | h')
    · exact hsame _ rfl
    · exact ⟨[], [], .of_same (by rw [h'.rest]) (by rw [h'.rest])⟩

end Ordered

end Partition

end Directory
