import Directory.Proofs.Partition.Links
import Directory.Proofs.Partition.Naming

/-!
# What writes make of alias links

* `Partition.Admitted`: a link as it is made for an entry that is to be an alias;
  `Partition.Recorded`: a link as the index has it.
* `Partition.Renews`: the links of a moved subtree, made again where it has moved to.
* `Links.addAll`, `Links.dropAll`: the links of a whole write, entered and taken out.
* `Ensures.enter_links`, `amend_links`, `remove_links`, `relocate_links`: what each transaction
  makes of the links.
-/

namespace Directory

open Relation

/-! ## Links of entries -/

/-- The normalized name of the entry that an alias stands for, if that can be read. -/
def Entry.targetKey? (e : Entry) : Option String := do
  return (← (Dn.parse (← e.aliasTarget?)).toOption).normalized

namespace Partition

/-- The link is one that an entry may have: its target is another entry, which is no alias and which
the entry does not lie below. -/
structure Admitted (p : Partition) (e : Entry) (l : AliasLink) : Prop where
  source : l.source = e.id
  parent : l.parent = e.parent
  key : e.targetKey? = some l.targetNormalized
  named : p.Named l.targetNormalized l.target
  target : ∃ f, p.get? l.target = some f ∧ l.targetName = f.name ∧ f.isAlias = false
  apart : l.targetNormalized ≠ e.name.normalized
  outside : ∃ d : Dn, d.Plain ∧ d.normalized = l.targetNormalized ∧ e.name.isBelow d = false

/-- The link is what the index has of the entry. -/
structure Recorded (p : Partition) (e : Entry) (l : AliasLink) : Prop where
  source : l.source = e.id
  parent : l.parent = e.parent
  aliasOf : p.AliasOf l.targetNormalized e.id
  named : p.Named l.targetNormalized l.target

variable {p p' : Partition} {id : EntryId} {e : Entry} {l : AliasLink}

theorem named_of_idOfNormalized? {n : String} {id : EntryId}
    (h : p.idOfNormalized? n = some id) : p.Named n id :=
  Index.mem_ids.1 (List.mem_of_mem_head? h)

/-- The link of an entry that is to be an alias; the entry is no target of another alias. -/
theorem aliasLink_eq_ok (h : p.aliasLink e = .ok l) :
    p.Admitted e l ∧ ∀ a, ¬p.AliasOf e.name.normalized a := by
  unfold aliasLink at h
  split at h
  · rename_i written hwritten
    obtain ⟨d, hd, h⟩ := Except.bind_eq_ok.1 h
    dsimp only at h
    split at h
    · cases h
    · rename_i hapart
      split at h
      · cases h
      · rename_i houtside
        split at h
        · cases h
        · rename_i huntargeted
          split at h
          · rename_i target htarget
            obtain ⟨f, hf, h⟩ := Except.bind_eq_ok.1 h
            split at h
            · cases h
            · rename_i halias
              cases h
              refine ⟨⟨rfl, rfl, ?_, named_of_idOfNormalized? htarget,
                ⟨f, lookup_eq_ok.1 hf, rfl, by simpa using halias⟩, hapart,
                ⟨d, Dn.parse_plain hd, rfl, by simpa using houtside⟩⟩, ?_⟩
              · simp [Entry.targetKey?, hwritten, hd, Except.toOption]
              · exact Index.countOf_eq_zero.1 (Nat.eq_zero_of_not_pos huntargeted)
          · cases h
  · cases h

theorem indexedLink_eq_ok (hp : p.Sound) (h : p.indexedLink e = .ok l) : p.Recorded e l := by
  unfold indexedLink at h
  split at h
  · rename_i n hn
    split at h
    · rename_i target htarget
      obtain ⟨f, _, h⟩ := Except.bind_eq_ok.1 h
      cases h
      have hkey : n ∈ p.system.aliasTarget.keys e.id := List.mem_of_mem_head? hn
      exact ⟨rfl, rfl, (Index.mem_keys (hp.names .aliasTarget)).1 hkey,
        named_of_idOfNormalized? htarget⟩
    · cases h
  · cases h

theorem linkFor_eq_ok {link : Option AliasLink} (h : p.linkFor e = .ok link) :
    (e.isAlias = false ∧ link = none) ∨ ∃ l, link = some l ∧ e.isAlias = true ∧
      p.Admitted e l ∧ ∀ a, ¬p.AliasOf e.name.normalized a := by
  unfold linkFor at h
  split at h
  · rename_i halias
    obtain ⟨l, hl, rfl⟩ := Except.map_eq_ok.1 h
    exact .inr ⟨l, rfl, halias, aliasLink_eq_ok hl⟩
  · rename_i halias
    cases h
    exact .inl ⟨by simpa using halias, rfl⟩

theorem linkOf_eq_ok (hp : p.Sound) {link : Option AliasLink} (h : p.linkOf e = .ok link) :
    (e.isAlias = false ∧ link = none) ∨
      ∃ l, link = some l ∧ e.isAlias = true ∧ p.Recorded e l := by
  unfold linkOf at h
  split at h
  · rename_i halias
    obtain ⟨l, hl, rfl⟩ := Except.map_eq_ok.1 h
    exact .inr ⟨l, rfl, halias, indexedLink_eq_ok hp hl⟩
  · rename_i halias
    cases h
    exact .inl ⟨by simpa using halias, rfl⟩

theorem linkFor_admitted {link : Option AliasLink} (h : p.linkFor e = .ok link) (l : AliasLink)
    (hl : l ∈ link.toList) : e.isAlias = true ∧ p.Admitted e l := by
  rcases linkFor_eq_ok h with ⟨_, rfl⟩ | ⟨l', rfl, halias, hadmitted, _⟩
  · cases hl
  · obtain rfl := List.mem_singleton.1 hl
    exact ⟨halias, hadmitted⟩

theorem linkOf_recorded (hp : p.Sound) {link : Option AliasLink} (h : p.linkOf e = .ok link)
    (l : AliasLink) (hl : l ∈ link.toList) : e.isAlias = true ∧ p.Recorded e l := by
  rcases linkOf_eq_ok hp h with ⟨_, rfl⟩ | ⟨l', rfl, halias, hrecorded⟩
  · cases hl
  · obtain rfl := List.mem_singleton.1 hl
    exact ⟨halias, hrecorded⟩

theorem linksToMove_eq_ok (hp : p.Sound) {ms : List EntryId} {ls : List AliasLink}
    (h : p.linksToMove ms = .ok ls) :
    (∀ m ∈ ms, ∀ e, p.get? m = some e → ∀ a, ¬p.AliasOf e.name.normalized a) ∧
      (∀ l ∈ ls, ∃ m ∈ ms, ∃ e, p.get? m = some e ∧ e.isAlias = true ∧ p.Recorded e l) ∧
      ∀ m ∈ ms, ∀ e, p.get? m = some e → e.isAlias = true → ∃ l ∈ ls, p.Recorded e l := by
  induction ms generalizing ls with
  | nil =>
    cases h
    exact ⟨fun _ h => (nomatch h), fun _ h => (nomatch h), fun _ h => nomatch h⟩
  | cons m ms ih =>
    obtain ⟨e, he, h⟩ := Except.bind_eq_ok.1 h
    dsimp only at h
    split at h
    · cases h
    · rename_i huntargeted
      obtain ⟨link, hlink, h⟩ := Except.bind_eq_ok.1 h
      obtain ⟨rest, hrest, h⟩ := Except.bind_eq_ok.1 h
      cases h
      have he := lookup_eq_ok.1 he
      have huntargeted : ∀ a, ¬p.AliasOf e.name.normalized a :=
        Index.countOf_eq_zero.1 (Nat.eq_zero_of_not_pos huntargeted)
      obtain ⟨hnone, hfrom, hall⟩ := ih hrest
      refine ⟨fun m' hm' e' he' => ?_, fun l hl => ?_, fun m' hm' e' he' halias => ?_⟩
      · rcases List.mem_cons.1 hm' with rfl | hm'
        · cases he.symm.trans he'
          exact huntargeted
        · exact hnone m' hm' e' he'
      · rcases List.mem_append.1 hl with hl | hl
        · rcases linkOf_eq_ok hp hlink with ⟨_, rfl⟩ | ⟨l', rfl, halias, hrecorded⟩
          · cases hl
          · obtain rfl := List.mem_singleton.1 hl
            exact ⟨m, .head _, e, he, halias, hrecorded⟩
        · obtain ⟨m', hm', hl⟩ := hfrom l hl
          exact ⟨m', .tail _ hm', hl⟩
      · rcases List.mem_cons.1 hm' with rfl | hm'
        · cases he.symm.trans he'
          rcases linkOf_eq_ok hp hlink with ⟨hnot, _⟩ | ⟨l', rfl, _, hrecorded⟩
          · cases hnot.symm.trans halias
          · exact ⟨l', .head _, hrecorded⟩
        · obtain ⟨l, hl, hrecorded⟩ := hall m' hm' e' he' halias
          exact ⟨l, List.mem_append_right _ hl, hrecorded⟩

theorem removable_links {link : Option AliasLink} (h : p.removable id = .ok (e, link)) :
    (∀ a, ¬p.AliasOf e.name.normalized a) ∧ p.linkOf e = .ok link := by
  unfold removable at h
  obtain ⟨e', _, h⟩ := Except.bind_eq_ok.1 h
  dsimp only at h
  split at h
  · cases h
  · split at h
    · cases h
    · rename_i huntargeted
      obtain ⟨_, hlink, h⟩ := Except.bind_eq_ok.1 h
      cases h
      exact ⟨Index.countOf_eq_zero.1 (Nat.eq_zero_of_not_pos huntargeted), hlink⟩

theorem planMove_links {parent : Option Dn} {rdn : Option Rdn} {mv : Move}
    (h : p.planMove id parent rdn = .ok mv) : p.linksToMove mv.members = .ok mv.links := by
  obtain ⟨_, _, _, _, _, _, _, hlinks, _⟩ := planMove_cases h
  exact hlinks

/-- Links that are entered again, each as it is to be now. -/
structure Renews (p : Partition) (ls ls' : List AliasLink) : Prop where
  source : ∀ l' ∈ ls', ∃ l ∈ ls, ∃ e, p.get? l.source = some e ∧ p.Admitted e l'
  all : ∀ l ∈ ls, ∃ l' ∈ ls', ∃ e, p.get? l.source = some e ∧ p.Admitted e l'

theorem Admitted.congr (h : p.Admitted e l) (hmaster : p'.master = p.master)
    (hnamed : p'.Named = p.Named) : p'.Admitted e l where
  source := h.source
  parent := h.parent
  key := h.key
  named := hnamed ▸ h.named
  target := get?_congr hmaster l.target ▸ h.target
  apart := h.apart
  outside := h.outside

theorem Renews.congr {ls ls' : List AliasLink} (h : p.Renews ls ls')
    (hmaster : p'.master = p.master) (hnamed : p'.Named = p.Named) : p'.Renews ls ls' where
  source l' hl' := by
    obtain ⟨l, hl, e, he, hadmitted⟩ := h.source l' hl'
    exact ⟨l, hl, e, get?_congr hmaster _ ▸ he, hadmitted.congr hmaster hnamed⟩
  all l hl := by
    obtain ⟨l', hl', e, he, hadmitted⟩ := h.all l hl
    exact ⟨l', hl', e, get?_congr hmaster _ ▸ he, hadmitted.congr hmaster hnamed⟩

end Partition

/-! ## Transactions -/

namespace Links

/-- With links entered, one after another. -/
def addAll (p : Partition) (v : Links) (ls : List AliasLink) : Links := ls.foldl (add p) v

/-- With links taken out, one after another. -/
def dropAll (p : Partition) (v : Links) (ls : List AliasLink) : Links := ls.foldl (drop p) v

theorem addAll_congr {p p' : Partition} (hmaster : p'.master = p.master) :
    addAll p' = addAll p := by
  unfold addAll
  rw [add_congr hmaster]

theorem dropAll_congr {p p' : Partition} (hmaster : p'.master = p.master)
    (hsub : p'.SubLevel = p.SubLevel) : dropAll p' = dropAll p := by
  unfold dropAll
  rw [drop_congr hmaster hsub]

end Links

namespace Ensures

open Directory.Partition Transaction

variable {t : Transaction}

/-- Steps that leave the indices of aliases alone and can be taken back. -/
theorem retains {α : Type} {m : TransactionM α} (hm : Reversible m) (hm' : RetainsAliases m)
    (hp : t.partition.Sound) :
    Ensures m t fun _ t' => t'.partition.Sound ∧ t'.partition.links = t.partition.links :=
  (hm.ensures_sound hp).and (hm'.links t)

theorem forM_dropLink_links (hp : t.partition.Sound) (hown : t.partition.OwnNumbers)
    (ls : List AliasLink) : Ensures (ls.forM Transaction.dropLink) t fun _ t' =>
      t.partition.LinksBecome (t.partition.links.dropAll t.partition ls) t'.partition := by
  induction ls generalizing t with
  | nil => exact Ensures.pure.2 ⟨.refl hp, rfl⟩
  | cons l ls ih =>
    refine Ensures.bind.2 ((dropLink_links hp hown l).mono fun _ t₁ h₁ => ?_)
    refine (ih h₁.rest.sound (hown.congr h₁.rest.master)).mono fun _ t' h' =>
      ⟨(h₁.trans h').rest, h'.links.trans ?_⟩
    rw [h₁.links, Links.dropAll_congr h₁.rest.master h₁.rest.subLevel]
    rfl

theorem forM_dropLink_option (hp : t.partition.Sound) (hown : t.partition.OwnNumbers) :
    (link : Option AliasLink) → Ensures (link.forM Transaction.dropLink) t fun _ t' =>
      t.partition.LinksBecome (t.partition.links.dropAll t.partition link.toList) t'.partition
  | none => Ensures.pure.2 ⟨.refl hp, rfl⟩
  | some l => dropLink_links hp hown l

theorem forM_addLink_option (hp : t.partition.Sound) :
    (link : Option AliasLink) → Ensures (link.forM Transaction.addLink) t fun _ t' =>
      t.partition.LinksBecome (t.partition.links.addAll t.partition link.toList) t'.partition
  | none => Ensures.pure.2 ⟨.refl hp, rfl⟩
  | some l => addLink_links hp l

theorem forM_relink_links (hp : t.partition.Sound) (ls : List AliasLink) :
    Ensures (ls.forM Transaction.relink) t fun _ t' => ∃ ls', t.partition.Renews ls ls' ∧
      t.partition.LinksBecome (t.partition.links.addAll t.partition ls') t'.partition := by
  induction ls generalizing t with
  | nil =>
    refine Ensures.pure.2 ⟨[], ⟨fun _ h => ?_, fun _ h => ?_⟩, .refl hp, rfl⟩ <;> cases h
  | cons l ls ih =>
    unfold List.forM
    refine Ensures.bind.2 ?_
    unfold Transaction.relink Climbing.relink
    simp only [Ensures.bind, Ensures.get, Ensures.lift]
    intro e he l' hl'
    obtain ⟨hadmitted, _⟩ := aliasLink_eq_ok hl'
    refine (addLink_links hp l').mono fun _ t₁ h₁ => ?_
    refine (ih h₁.rest.sound).mono fun _ t' ⟨ls', hrenews, h'⟩ => ?_
    have hrenews := hrenews.congr h₁.rest.master.symm h₁.rest.named.symm
    have he := lookup_eq_ok.1 he
    refine ⟨l' :: ls', ⟨fun m' hm' => ?_, fun m hm => ?_⟩, (h₁.trans h').rest, h'.links.trans ?_⟩
    · rcases List.mem_cons.1 hm' with rfl | hm'
      · exact ⟨l, .head _, e, he, hadmitted⟩
      · obtain ⟨m, hm, h⟩ := hrenews.source m' hm'
        exact ⟨m, .tail _ hm, h⟩
    · rcases List.mem_cons.1 hm with rfl | hm
      · exact ⟨l', .head _, e, he, hadmitted⟩
      · obtain ⟨m', hm', h⟩ := hrenews.all m hm
        exact ⟨m', .tail _ hm', h⟩
    · rw [h₁.links, Links.addAll_congr h₁.rest.master]
      rfl

theorem enter_links (hp : t.partition.Sound) (e : Entry) (link : Option AliasLink) :
    Ensures (Transaction.enter e link) t fun _ t' =>
      t'.partition.links = t.partition.links.addAll t'.partition link.toList := by
  have hsplit : Transaction.enter e link = (do
      Transaction.enter e none
      link.forM Transaction.addLink) := by
    unfold Transaction.enter Climbing.enter
    simp only [bind_assoc]
    rfl
  rw [hsplit]
  refine Ensures.bind.2 ((retains (.enter e none) (RetainsAliases.enter e) hp).mono
    fun _ t₁ ⟨h₁, hlinks⟩ => ?_)
  refine (forM_addLink_option h₁ link).mono fun _ t' h' => ?_
  rw [h'.links, hlinks, Links.addAll_congr h'.rest.master]

theorem amend_links (hp : t.partition.Sound) (hown : t.partition.OwnNumbers) (id : EntryId)
    (old new : Entry) (dropped added : Option AliasLink) :
    Ensures (Transaction.amend id old new dropped added) t fun _ t' =>
      t'.partition.links = (t.partition.links.dropAll t.partition dropped.toList).addAll
        t'.partition added.toList := by
  unfold Transaction.amend Climbing.amend
  refine Ensures.bind.2 ((forM_dropLink_option hp hown dropped).mono fun _ t₁ h₁ => ?_)
  refine Ensures.bind.2 ((retains (.reindex _ _ _) (RetainsAliases.reindex _ _ _)
    h₁.rest.sound).mono fun _ t₂ ⟨h₂, hlinks₂⟩ => ?_)
  refine Ensures.bind.2 ((retains (.putEntry _) (RetainsAliases.putEntry _) h₂).mono
    fun _ t₃ ⟨h₃, hlinks₃⟩ => ?_)
  refine (forM_addLink_option h₃ added).mono fun _ t' h' => ?_
  rw [h'.links, hlinks₃, hlinks₂, h₁.links, Links.addAll_congr h'.rest.master]

theorem remove_links (hp : t.partition.Sound) (hown : t.partition.OwnNumbers) (id : EntryId)
    (e : Entry) (link : Option AliasLink) :
    Ensures (Transaction.remove id e link) t fun _ t' =>
      t'.partition.links = t.partition.links.dropAll t.partition link.toList := by
  unfold Transaction.remove Climbing.remove
  refine Ensures.bind.2 ((forM_dropLink_option hp hown link).mono fun _ t₁ h₁ => ?_)
  exact ((RetainsAliases.takeOut id e).links t₁).mono fun _ t' h' => h'.trans h₁.links

theorem relocate_links (hp : t.partition.Sound) (hown : t.partition.OwnNumbers) (mv : Move) :
    Ensures (Transaction.relocate mv) t fun _ t' => ∃ ls', t'.partition.Renews mv.links ls' ∧
      t'.partition.links =
        (t.partition.links.dropAll t.partition mv.links).addAll t'.partition ls' := by
  unfold Transaction.relocate Climbing.relocate
  refine Ensures.bind.2 ((forM_dropLink_links hp hown mv.links).mono fun _ t₁ h₁ => ?_)
  refine Ensures.bind.2 ((retains (.mapM (.moveMember mv) _)
    (RetainsAliases.mapM_moveMember mv _) h₁.rest.sound).mono fun renamed t₂ ⟨h₂, hlinks₂⟩ => ?_)
  refine Ensures.bind.2 ((retains (.changeNames _ _) (RetainsAliases.changeEntryName _) h₂).mono
    fun _ t₃ ⟨h₃, hlinks₃⟩ => ?_)
  refine Ensures.bind.2 ((retains (.reparent mv) (RetainsAliases.reparent mv) h₃).mono
    fun _ t₄ ⟨h₄, hlinks₄⟩ => ?_)
  refine (forM_relink_links h₄ mv.links).mono fun _ t' ⟨ls', hrenews, h'⟩ => ?_
  refine ⟨ls', hrenews.congr h'.rest.master h'.rest.named, ?_⟩
  rw [h'.links, hlinks₄, hlinks₃, hlinks₂, h₁.links, Links.addAll_congr h'.rest.master]

end Ensures

end Directory
