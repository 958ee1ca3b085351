import Directory.Proofs.Name.Normalized
import Directory.Proofs.Partition.Tree

/-!
# Names in step with the tree

* `Write.Parsed`: the names that a write comes with have been read.
* `Partition.WellNamed`: different entries have different names, only the suffix has no parent, and
  every other name is one relative name longer than that of the parent.
* `Partition.WellNamed.exists_above`: a name as long as the suffix that an entry's name ends in is
  the name of an entry above. So a move whose top has a free name makes no two names the same.
* `Partition.WellNamed.isBelow_iff`, `parent?_iff`: what names say of ways up and of parents.
* `Partition.ReachedBy.forest`: **what the entries and the indices of the tree are after every
  history**.
-/

namespace Directory

open Relation

/-! ## Names that have been read -/

/-- The name has been read. -/
def Dn.Parsed (d : Dn) : Prop := ∃ s, Dn.parse s = .ok d

/-- The relative name comes first in a name that has been read. -/
def Rdn.Parsed (r : Rdn) : Prop := ∃ d : Dn, d.Parsed ∧ d.rdn? = some r

/-- All names that the write comes with have been read. -/
def Write.Parsed : Write → Prop
  | .add e => e.name.Parsed
  | .rename _ rdn => rdn.Parsed
  | .move _ parent => parent.Parsed
  | .moveAndRename _ parent rdn => (∀ d, parent = some d → d.Parsed) ∧ ∀ r, rdn = some r → r.Parsed
  | .modify .. | .delete _ | .addIndex _ => True

theorem Dn.Parsed.plain {d : Dn} (h : d.Parsed) : d.Plain :=
  have ⟨_, hs⟩ := h
  Dn.parse_plain hs

theorem Rdn.Parsed.plain {r : Rdn} (h : r.Parsed) : r.Plain := by
  obtain ⟨d, hd, hr⟩ := h
  exact hd.plain r (List.mem_of_mem_head? hr)

theorem Write.Parsed.plain {w : Write} (h : w.Parsed) {id : EntryId} {parent : Option Dn}
    {rdn : Option Rdn} (hw : w.relocation? = some (id, parent, rdn)) :
    ∀ r, rdn = some r → r.Plain := by
  cases w with
  | rename _ r =>
    cases hw
    rintro _ ⟨⟩
    exact Rdn.Parsed.plain h
  | move _ _ =>
    cases hw
    exact fun _ h => nomatch h
  | moveAndRename _ _ _ =>
    cases hw
    exact fun r hr => (h.2 r hr).plain
  | _ => cases hw

namespace Dn

theorem key_child (d : Dn) (r : Rdn) : (d.child r).key = r.normalized :: d.key := rfl

theorem length_key (d : Dn) : d.key.length = d.length := List.length_map ..

theorem Plain.child {d : Dn} (hd : d.Plain) {r : Rdn} (hr : r.Plain) : (d.child r).Plain := by
  intro s hs
  rcases List.mem_cons.1 hs with rfl | hs
  · exact hr
  · exact hd s hs

theorem parent?_of_key {d e : Dn} {k : String} (h : d.key = k :: e.key) :
    d.parent?.map normalized = some e.normalized := by
  obtain ⟨rs⟩ := d
  cases rs with
  | nil => cases h
  | cons r rs => exact congrArg some (normalized_eq_of_key_eq (d := ⟨rs⟩) (List.cons.inj h).2)

theorem rdns_eq_of_parent? {d e : Dn} (h : d.parent? = some e) : ∃ r, d.rdns = r :: e.rdns := by
  obtain ⟨rs⟩ := d
  cases rs with
  | nil => cases h
  | cons r rs =>
    cases h
    exact ⟨r, rfl⟩

theorem isBelow_congr {d a b : Dn} (h : a.key = b.key) : d.isBelow a = d.isBelow b := by
  rw [isBelow, isBelow, isBelowOrSelf, isBelowOrSelf, ← length_key a, ← length_key b, h]

theorem cons_of_isBelow {d a : Dn} (h : d.isBelow a = true) : ∃ r rs, d = ⟨r :: rs⟩ := by
  obtain ⟨rs⟩ := d
  cases rs with
  | nil =>
    have hlength := of_decide_eq_true (Bool.and_eq_true_iff.1 h).1
    exact absurd hlength (Nat.not_lt_zero _)
  | cons r rs => exact ⟨r, rs, rfl⟩

/-- A name with another end has the normalized relative names of the new end. -/
theorem rebase?_eq_some {d base base' d' : Dn} (h : d.rebase? base base' = some d') :
    ∃ ks, d.key = ks ++ base.key ∧ d'.key = ks ++ base'.key := by
  unfold rebase? at h
  split at h
  · rename_i hbelow
    cases h
    obtain ⟨ks, hks⟩ := List.isSuffixOf_iff_suffix.1 hbelow
    refine ⟨ks, hks.symm, ?_⟩
    have hlength : ks.length = d.length - base.length := by
      have := congrArg List.length hks
      rw [List.length_append, length_key, length_key] at this
      omega
    show (d.rdns.take _ ++ base'.rdns).map Rdn.normalized = _
    rw [List.map_append, List.map_take]
    show d.key.take _ ++ base'.key = _
    rw [← hks, ← hlength, List.take_left]
  · cases h

theorem rebase?_plain {d base base' d' : Dn} (h : d.rebase? base base' = some d') (hd : d.Plain)
    (hbase : base'.Plain) : d'.Plain := by
  unfold rebase? at h
  split at h
  · cases h
    intro r hr
    rcases List.mem_append.1 hr with hr | hr
    · exact hd r (List.mem_of_mem_take hr)
    · exact hbase r hr
  · cases h

end Dn

/-! ## Names of entries -/

namespace Partition

variable {p p' : Partition} {id : EntryId}

/-- Entries have different names, and names follow the tree. -/
structure WellNamed (p : Partition) : Prop where
  suffix : p.suffix.Plain
  plain : ∀ i e, p.get? i = some e → e.name.Plain
  distinct : ∀ i j e f, p.get? i = some e → p.get? j = some f → e.name.key = f.name.key → i = j
  root : ∀ i e, p.get? i = some e → e.parent = none → e.name.key = p.suffix.key
  below : ∀ i e q f, p.get? i = some e → e.parent = some q → p.get? q = some f →
    ∃ k, e.name.key = k :: f.name.key

theorem idOf?_eq_some (hp : p.Arranged) {name : Dn} {q : EntryId} (h : p.idOf? name = some q) :
    ∃ e, p.get? q = some e ∧ name.normalized = e.name.normalized :=
  (hp.named _ _).1 (Index.mem_ids.1 (List.mem_of_mem_head? h))

theorem idOf?_eq_none (hp : p.Arranged) {name : Dn} (h : p.idOf? name = none) {q : EntryId}
    {e : Entry} (he : p.get? q = some e) : name.normalized ≠ e.name.normalized := by
  intro heq
  have hq : q ∈ p.system.entryName.ids name.normalized :=
    Index.mem_ids.2 ((hp.named _ _).2 ⟨e, he, heq⟩)
  rw [List.head?_eq_none_iff.1 h] at hq
  cases hq

namespace WellNamed

theorem bare (c : Config) {suffix : Dn} (h : suffix.Plain) : (bare c suffix).WellNamed where
  suffix := h
  plain _ _ he := nomatch he
  distinct _ _ _ _ he := nomatch he
  root _ _ he := nomatch he
  below _ _ _ _ he := nomatch he

theorem suffix_le (h : p.WellNamed) (hp : p.Arranged) {e : Entry} (he : p.get? id = some e) :
    p.suffix.key.length ≤ e.name.key.length := by
  induction hn : e.name.key.length using Nat.strongRecOn generalizing id e with
  | ind n ih =>
    cases hparent : e.parent with
    | none =>
      have hlength : p.suffix.key.length = n := by rw [← hn, h.root id e he hparent]
      exact Nat.le_of_eq hlength
    | some q =>
      obtain ⟨f, hf⟩ := hp.parents id q ⟨e, he, hparent⟩
      obtain ⟨k, hk⟩ := h.below id e q f he hparent hf
      have hlength : n = f.name.key.length + 1 := by rw [← hn, hk, List.length_cons]
      have := ih _ (by omega) hf rfl
      omega

/-- An entry whose name ends in a name that is no shorter than the suffix lies below an entry of
that name, if it is not that entry. -/
theorem exists_above (h : p.WellNamed) (hp : p.Arranged) {ks name : List String}
    (hname : p.suffix.key.length ≤ name.length) {e : Entry} (he : p.get? id = some e)
    (hkey : e.name.key = ks ++ name) :
    ∃ j f, p.Above j id ∧ p.get? j = some f ∧ f.name.key = name := by
  induction ks generalizing id e with
  | nil => exact ⟨id, e, .refl, he, hkey⟩
  | cons k ks ih =>
    cases hparent : e.parent with
    | none =>
      have := congrArg List.length ((h.root id e he hparent).symm.trans hkey)
      rw [List.length_append, List.length_cons] at this
      omega
    | some q =>
      obtain ⟨f, hf⟩ := hp.parents id q ⟨e, he, hparent⟩
      obtain ⟨l, hl⟩ := h.below id e q f he hparent hf
      rw [hkey] at hl
      obtain ⟨j, g, habove, hg⟩ := ih hf (List.cons.inj hl).2.symm
      exact ⟨j, g, .head ⟨e, he, hparent⟩ habove, hg⟩

theorem key_of_above (h : p.WellNamed) (hp : p.Arranged) {x : EntryId} {e f : Entry}
    (he : p.get? id = some e) (hf : p.get? x = some f) (hway : p.Above x id) :
    ∃ ks, e.name.key = ks ++ f.name.key := by
  induction hway using ReflTransGen.head_induction_on generalizing e with
  | refl =>
    cases he.symm.trans hf
    exact ⟨[], rfl⟩
  | head hstep _ ih =>
    obtain ⟨g, hg⟩ := hp.parents _ _ hstep
    obtain ⟨ks, hks⟩ := ih hg
    obtain ⟨k, hk⟩ := h.below _ e _ g he ((hasParent_iff he).1 hstep) hg
    exact ⟨k :: ks, by rw [hk, hks, List.cons_append]⟩

/-- The names of entries are in the order of the tree. -/
theorem isBelow_iff (h : p.WellNamed) (hp : p.Arranged) {x : EntryId} {e f : Entry}
    (he : p.get? id = some e) (hf : p.get? x = some f) :
    e.name.isBelow f.name = true ↔ p.Above x id ∧ x ≠ id := by
  rw [Dn.isBelow, Bool.and_eq_true, decide_eq_true_iff, ← Dn.length_key, ← Dn.length_key]
  constructor
  · rintro ⟨hlength, hsuffix⟩
    obtain ⟨ks, hks⟩ := List.isSuffixOf_iff_suffix.1 hsuffix
    obtain ⟨j, g, habove, hg, hkey⟩ := h.exists_above hp (h.suffix_le hp hf) he hks.symm
    obtain rfl := h.distinct j x g f hg hf hkey
    refine ⟨habove, ?_⟩
    rintro rfl
    cases he.symm.trans hf
    exact Nat.lt_irrefl _ hlength
  · rintro ⟨habove, hne⟩
    obtain ⟨ks, hks⟩ := h.key_of_above hp he hf habove
    refine ⟨?_, List.isSuffixOf_iff_suffix.2 ⟨ks, hks.symm⟩⟩
    have hpos : ks ≠ [] := fun hnil => hne (h.distinct x id f e hf he (by rw [hks, hnil]; rfl))
    rw [hks, List.length_append]
    exact Nat.lt_add_of_pos_left (List.length_pos_iff.2 hpos)

/-- The name one level up is that of the parent. -/
theorem parent?_iff (h : p.WellNamed) (hp : p.Arranged) {x : EntryId} {e f : Entry}
    (he : p.get? id = some e) (hf : p.get? x = some f) :
    e.name.parent?.map Dn.normalized = some f.name.normalized ↔ p.HasParent id x := by
  constructor
  · intro hname
    obtain ⟨d, hd, hdn⟩ := Option.map_eq_some_iff.1 hname
    obtain ⟨r, hcons⟩ := Dn.rdns_eq_of_parent? hd
    have hplain : d.Plain := fun s hs => h.plain id e he s (hcons ▸ .tail _ hs)
    have hkey : e.name.key = r.normalized :: f.name.key := by
      rw [← Dn.key_eq_of_normalized_eq hplain (h.plain x f hf) hdn]
      exact congrArg (List.map Rdn.normalized) hcons
    have hle := h.suffix_le hp hf
    cases hparent : e.parent with
    | none =>
      have hlength := congrArg List.length ((h.root id e he hparent).symm.trans hkey)
      rw [List.length_cons] at hlength
      omega
    | some q =>
      obtain ⟨g, hg⟩ := hp.parents id q ⟨e, he, hparent⟩
      obtain ⟨k, hk⟩ := h.below id e q g he hparent hg
      rw [hkey] at hk
      exact h.distinct q x g f hg hf (List.cons.inj hk).2.symm ▸ ⟨e, he, hparent⟩
  · intro hstep
    obtain ⟨k, hk⟩ := h.below id e x f he ((hasParent_iff he).1 hstep) hf
    exact Dn.parent?_of_key hk

theorem skipped (h : p.WellNamed) : WellNamed { p with nextId := p.nextId + 1 } :=
  ⟨h.suffix, h.plain, h.distinct, h.root, h.below⟩

theorem congr (h : p.WellNamed) (hsuffix : p'.suffix = p.suffix)
    (hget : ∀ i e, p'.get? i = some e → ∃ f, p.get? i = some f ∧ f.name = e.name ∧
      f.parent = e.parent) : p'.WellNamed where
  suffix := hsuffix ▸ h.suffix
  plain i e he := by
    obtain ⟨f, hf, hname, _⟩ := hget i e he
    exact hname ▸ h.plain i f hf
  distinct i j e e' he he' hkey := by
    obtain ⟨f, hf, hname, _⟩ := hget i e he
    obtain ⟨f', hf', hname', _⟩ := hget j e' he'
    exact h.distinct i j f f' hf hf' (by rw [hname, hname', hkey])
  root i e he hnone := by
    obtain ⟨f, hf, hname, hparent⟩ := hget i e he
    rw [hsuffix, ← hname]
    exact h.root i f hf (hparent.trans hnone)
  below i e q e' he hq he' := by
    obtain ⟨f, hf, hname, hparent⟩ := hget i e he
    obtain ⟨f', hf', hname', _⟩ := hget q e' he'
    rw [← hname, ← hname']
    exact h.below i f q f' hf (hparent.trans hq) hf'

/-- A new entry has the name of the suffix, or a name one relative name longer than that of its
parent. -/
theorem new_name (h : p.WellNamed) (hp : p.Arranged) {e e' : Entry} (hname : e.name.Plain)
    (he' : p.newEntry e = .ok e') :
    (e'.parent = none ∧ e.name.key = p.suffix.key) ∨
      ∃ q f k, e'.parent = some q ∧ p.get? q = some f ∧ e.name.key = k :: f.name.key := by
  rcases parentFor_eq_ok (newEntry_eq_ok he').2.2.1 with ⟨hq, hn⟩ | ⟨q, f, hq, hid, hf, hbelow, _⟩
  · exact .inl ⟨hq, Dn.key_eq_of_normalized_eq hname h.suffix hn⟩
  · obtain ⟨_, hf', hn⟩ := idOf?_eq_some hp hid
    rw [hf] at hf'
    cases hf'
    obtain ⟨r, rs, hcons⟩ := Dn.cons_of_isBelow hbelow
    rw [hcons] at hn hname
    have hrs : Dn.Plain ⟨rs⟩ := fun s hs => hname s (.tail _ hs)
    refine .inr ⟨q, f, r.normalized, hq, hf, ?_⟩
    rw [hcons, ← Dn.key_eq_of_normalized_eq hrs (h.plain _ _ hf) hn]
    rfl

theorem added (h : p.WellNamed) (hp : p.Arranged) {e e' : Entry} (hname : e.name.Plain)
    (he' : p.newEntry e = .ok e') (hfree : p.get? p.nextId = none)
    (h' : Entered { p with nextId := p.nextId + 1 } { e' with id := p.nextId } p') :
    p'.WellNamed := by
  obtain ⟨hnew, hsame, _⟩ := newEntry_eq_ok he'
  have hsuffix : p'.suffix = p.suffix := h'.same.suffix
  have hfresh : ∀ i f, p.get? i = some f → e.name.key ≠ f.name.key := fun i f hf hkey =>
    idOf?_eq_none hp hnew hf (Dn.normalized_eq_of_key_eq hkey)
  have hcases : ∀ i f, p'.get? i = some f →
      (i = p.nextId ∧ f.name = e.name ∧ f.parent = e'.parent) ∨ p.get? i = some f := by
    intro i f hf
    rcases get?_inserted_cases h'.master hf with ⟨hi, rfl⟩ | ⟨_, hf⟩
    · exact .inl ⟨hi, hsame, rfl⟩
    · exact .inr hf
  -- the parents are those stored before
  have hstored : ∀ q g g', p.get? q = some g → p'.get? q = some g' → g' = g := by
    intro q g g' hg hg'
    have hother : p'.get? q = p.get? q :=
      get?_inserted_of_ne h'.master (Stored.ne ⟨g, hg⟩ hfree)
    exact Option.some.inj (hg'.symm.trans (hother.trans hg))
  refine ⟨hsuffix ▸ h.suffix, fun i f hf => ?_, fun i j f g hf hg hkey => ?_,
    fun i f hf hnone => ?_, fun i f q g hf hq hg => ?_⟩
  · rcases hcases i f hf with ⟨_, hf, _⟩ | hf
    · exact hf ▸ hname
    · exact h.plain i f hf
  · rcases hcases i f hf with ⟨hi, hf, _⟩ | hf <;> rcases hcases j g hg with ⟨hj, hg, _⟩ | hg
    · exact hi.trans hj.symm
    · exact absurd (hf ▸ hkey) (hfresh j g hg)
    · exact absurd (hg ▸ hkey.symm) (hfresh i f hf)
    · exact h.distinct i j f g hf hg hkey
  · rw [hsuffix]
    rcases hcases i f hf with ⟨_, hf, hfp⟩ | hf
    · rcases h.new_name hp hname he' with ⟨_, hkey⟩ | ⟨q, _, _, hq, _⟩
      · exact hf ▸ hkey
      · rw [hfp, hq] at hnone
        cases hnone
    · exact h.root i f hf hnone
  · rcases hcases i f hf with ⟨_, hf, hfp⟩ | hf
    · rcases h.new_name hp hname he' with ⟨hnone, _⟩ | ⟨q', g', k, hq', hg', hkey⟩
      · rw [hfp, hnone] at hq
        cases hq
      · rw [hfp, hq'] at hq
        cases hq
        exact ⟨k, by rw [hf, hkey, hstored q g' g hg' hg]⟩
    · obtain ⟨g', hg'⟩ := hp.parents i q ⟨f, hf, hq⟩
      rw [hstored q g' g hg' hg]
      exact h.below i f q g' hf hq hg'

section Moves

variable {rdn : Option Rdn} {mv : Move}

theorem moved_name (h : p.WellNamed) (hrdn : ∀ r, rdn = some r → r.Plain)
    (hmv : p.Planned id rdn mv) : mv.name.Plain ∧
      ∃ f k, p.get? mv.parent = some f ∧ mv.name.key = k :: f.name.key := by
  obtain ⟨f, r, hf, hr, hname⟩ := hmv.name
  rw [hname]
  refine ⟨(h.plain _ _ hf).child ?_, f, r.normalized, hf, Dn.key_child ..⟩
  cases rdn with
  | some _ =>
    cases hr
    exact hrdn r rfl
  | none => exact h.plain _ _ hmv.top r (List.mem_of_mem_head? hr)

/-- No entry outside has a name that ends in the new name of the moved entry, for it would lie below
an entry of that name. -/
theorem apart (h : p.WellNamed) (hp : p.Arranged) (hrdn : ∀ r, rdn = some r → r.Plain)
    (hmv : p.Planned id rdn mv) {j : EntryId} {f : Entry} (hj : j ∉ mv.members)
    (hf : p.get? j = some f) (ks : List String) : f.name.key ≠ ks ++ mv.name.key := by
  intro hkey
  obtain ⟨hplain, q, k, hq, hname⟩ := h.moved_name hrdn hmv
  have hlong : p.suffix.key.length < mv.name.key.length := by
    rw [hname, List.length_cons]
    exact Nat.lt_succ_of_le (h.suffix_le hp hq)
  obtain ⟨i, g, habove, hg, hgkey⟩ := h.exists_above hp (Nat.le_of_lt hlong) hf hkey
  rcases hmv.free with hsame | hfree
  · have htopkey := Dn.key_eq_of_normalized_eq hplain (h.plain id _ hmv.top) hsame
    have hi : i = id := h.distinct i id g mv.top hg hmv.top (hgkey.trans htopkey)
    exact hj ((hp.mem_members hmv).2 ⟨⟨f, hf⟩, hi ▸ habove⟩)
  · exact idOf?_eq_none hp hfree hg (Dn.normalized_eq_of_key_eq hgkey.symm)

theorem member_name (h : p.WellNamed) (hown : p.OwnNumbers) (hrdn : ∀ r, rdn = some r → r.Plain)
    (hmv : p.Planned id rdn mv) (h' : p.Relocated mv p') {i : EntryId} {e' : Entry}
    (hi : i ∈ mv.members) (he' : p'.get? i = some e') : e'.name.Plain ∧
      ∃ e ks, p.get? i = some e ∧ e.name.key = ks ++ mv.top.name.key ∧
        e'.name.key = ks ++ mv.name.key := by
  obtain ⟨e, f, he, hf, hrebase, _⟩ := h'.rewritten.member hown hmv hi
  rw [he'] at hf
  cases hf
  obtain ⟨ks, hks, hks'⟩ := Dn.rebase?_eq_some hrebase
  exact ⟨Dn.rebase?_plain hrebase (h.plain i e he) (h.moved_name hrdn hmv).1, e, ks, he, hks, hks'⟩

theorem member_below (h : p.WellNamed) (hp : p.Arranged) (hown : p.OwnNumbers)
    (hrdn : ∀ r, rdn = some r → r.Plain) (hmv : p.Planned id rdn mv) (h' : p.Relocated mv p')
    {i q : EntryId} {e' f' : Entry} (hi : i ∈ mv.members) (he' : p'.get? i = some e')
    (hq : e'.parent = some q) (hf' : p'.get? q = some f') :
    ∃ k, e'.name.key = k :: f'.name.key := by
  obtain ⟨_, e, ks, he, hks, hks'⟩ := h.member_name hown hrdn hmv h' hi he'
  have hstep : p'.HasParent i q := ⟨e', he', hq⟩
  by_cases hid : i = id
  · subst hid
    have hq := (h'.rewritten.hasParent_top hown hmv hi).1 hstep
    subst hq
    have houtside : mv.parent ∉ mv.members := fun hin =>
      hp.not_above_parent hown hmv ((hp.mem_members hmv).1 hin).2
    obtain ⟨_, f, k, hf, hname⟩ := h.moved_name hrdn hmv
    rw [h'.others _ houtside, hf] at hf'
    cases hf'
    rw [hmv.top] at he
    cases he
    refine ⟨k, ?_⟩
    rw [hks', ← hname, List.self_eq_append_left.1 hks, List.nil_append]
  · obtain ⟨f₀, hf₀, hq₀⟩ := (h'.rewritten.redirects hown hmv i hid q).1 hstep
    rw [he] at hf₀
    cases hf₀
    have hqm : q ∈ mv.members := by
      refine (hp.mem_members hmv).2 ⟨hp.parents i q ⟨e, he, hq₀⟩, ?_⟩
      rcases ReflTransGen.cases_head ((hp.mem_members hmv).1 hi).2 with heq | ⟨j, hj, hway⟩
      · exact absurd heq hid
      · exact p.hasParent_unique hj ⟨e, he, hq₀⟩ ▸ hway
    obtain ⟨_, f, ls, hf, hls, hls'⟩ := h.member_name hown hrdn hmv h' hqm hf'
    obtain ⟨k, hk⟩ := h.below i e q f he hq₀ hf
    rw [hks, hls, ← List.cons_append] at hk
    refine ⟨k, ?_⟩
    rw [hks', hls', List.append_cancel_right hk, List.cons_append]

theorem relocated (h : p.WellNamed) (hp : p.Arranged) (hown : p.OwnNumbers)
    (hrdn : ∀ r, rdn = some r → r.Plain) (hmv : p.Planned id rdn mv) (h' : p.Relocated mv p') :
    p'.WellNamed := by
  -- whatever the names outside are, no member takes one of them
  have hapart : ∀ i j e' f, i ∈ mv.members → j ∉ mv.members → p'.get? i = some e' →
      p'.get? j = some f → f.name.key ≠ e'.name.key := by
    intro i j e' f hi hj he' hf heq
    obtain ⟨_, _, ks, _, _, hks⟩ := h.member_name hown hrdn hmv h' hi he'
    exact h.apart hp hrdn hmv hj (h'.others j hj ▸ hf) ks (heq.trans hks)
  refine ⟨h'.same.suffix ▸ h.suffix, fun i e' he' => ?_, fun i j e' f' he' hf' heq => ?_,
    fun i e' he' hnone => ?_, fun i e' q f' he' hq hf' => ?_⟩
  · by_cases hi : i ∈ mv.members
    · exact (h.member_name hown hrdn hmv h' hi he').1
    · exact h.plain i e' (h'.others i hi ▸ he')
  · by_cases hi : i ∈ mv.members <;> by_cases hj : j ∈ mv.members
    · obtain ⟨_, e, ks, he, hks, hks'⟩ := h.member_name hown hrdn hmv h' hi he'
      obtain ⟨_, f, ls, hf, hls, hls'⟩ := h.member_name hown hrdn hmv h' hj hf'
      rw [hks', hls'] at heq
      refine h.distinct i j e f he hf ?_
      rw [hks, hls, List.append_cancel_right heq]
    · exact absurd heq.symm (hapart i j e' f' hi hj he' hf')
    · exact absurd heq (hapart j i f' e' hj hi hf' he')
    · exact h.distinct i j e' f' (h'.others i hi ▸ he') (h'.others j hj ▸ hf') heq
  · rw [h'.same.suffix]
    by_cases hi : i ∈ mv.members
    · -- a member has a parent: the moved entry the new one, the others the one they had
      obtain ⟨e, f, he, hf, _, htop, hother⟩ := h'.rewritten.member hown hmv hi
      rw [he'] at hf
      cases hf
      by_cases heq : i = id
      · rw [htop heq] at hnone
        cases hnone
      · rcases ReflTransGen.cases_head ((hp.mem_members hmv).1 hi).2 with heq' | ⟨j, hj, _⟩
        · exact absurd heq' heq
        · rw [hasParent_iff he, ← hother heq, hnone] at hj
          cases hj
    · exact h.root i e' (h'.others i hi ▸ he') hnone
  · by_cases hi : i ∈ mv.members
    · exact h.member_below hp hown hrdn hmv h' hi he' hq hf'
    · have he := h'.others i hi ▸ he'
      have hqm : q ∉ mv.members := by
        intro hin
        refine hi ((hp.mem_members hmv).2 ⟨⟨e', he⟩, ?_⟩)
        exact .head ⟨e', he, hq⟩ ((hp.mem_members hmv).1 hin).2
      exact h.below i e' q f' he hq (h'.others q hqm ▸ hf')

end Moves

theorem write {n : Nat} (h : p.WellNamed) (hp : p.Arranged) (hv : p.Valued n) {w : Write}
    (hw : w.Parsed) (hn : n + w.isAdd.toNat < UInt64.size) (h' : p.Leaves w p') :
    p'.WellNamed := by
  cases h' with
  | refused w => exact h
  | skipped e => exact h.skipped
  | added he h' => exact h.added hp (Dn.Parsed.plain hw) he (hv.get?_nextId hn) h'
  | @amended id ms old new p' hold hnew hcheck h' =>
    obtain ⟨hid, hname, hparent⟩ := modifiedBy_eq_ok hnew
    have hid : new.id = id := hid.trans (hv.own id old hold)
    subst hid
    exact h.congr h'.same.suffix fun i e => exists_of_amended hold hname hparent h'.master
  | removed he hchildren h' =>
    exact h.congr h'.same.suffix fun i e he =>
      ⟨e, (get?_of_erased h'.master he).2, rfl, rfl⟩
  | relocated hwm hmv h' =>
    exact h.relocated hp hv.own (Write.Parsed.plain hw hwm) (planMove_eq_ok hmv) h'
  | indexAdded h' =>
    refine h.congr (by rw [h'.rest]) fun i e he => ⟨e, ?_, rfl, rfl⟩
    rw [get?, h'.rest] at he
    exact he

end WellNamed

theorem ReachedBy.wellNamed {c : Config} {ws : List Write} (h : p.ReachedBy c ws)
    (hws : ∀ w ∈ ws, w.Parsed) : p.WellNamed := by
  obtain ⟨_, _, _, _, hp⟩ := h.induction
    (I := fun n p => p.Valued n ∧ p.Arranged ∧ p.WellNamed) Write.Parsed hws (fun _ => trivial)
    (fun suffix hsuffix _ => ⟨.bare c suffix, .bare c suffix, .bare c (Dn.parse_plain hsuffix)⟩)
    fun n p w hw hn ⟨hv, hp, h⟩ => by
      have hleaves := hv.leaves w hn
      obtain ⟨m, hm, hv'⟩ := hv.write hn hleaves
      exact ⟨m, hm, hv', hp.write hv hn hleaves, h.write hp hv hw hn hleaves⟩
  exact hp

/-- **The forest of entries.** After every history whose names have been read: entries are stored
under numbers of their own, which are below the next one (unless all numbers are used up). Their
normalized names differ and are what the index of names holds. At most one entry has no parent, and
it has the name of the suffix; every other entry has a stored parent, whose name is one relative
name shorter. The indices of the tree hold exactly the parents, and exactly the ways up, none of
which leads back. -/
theorem ReachedBy.forest {c : Config} {ws : List Write} (h : p.ReachedBy c ws)
    (hws : ∀ w ∈ ws, w.Parsed) :
    (∀ id e, p.get? id = some e → e.id = id ∧
      (id < p.nextId ∨ (p.nextId = 0 ∧ ws.countP Write.isAdd + 1 = UInt64.size))) ∧
    (∀ i j e f, p.get? i = some e → p.get? j = some f →
      e.name.normalized = f.name.normalized → i = j) ∧
    (∀ d n id, (n, id) ∈ p.system.entryName.tables.tuples d ↔
      ∃ e, p.get? id = some e ∧ n = e.name.normalized) ∧
    (∀ i j e f, p.get? i = some e → p.get? j = some f → e.parent = none → f.parent = none → i = j) ∧
    (∀ id e, p.get? id = some e → e.parent = none → e.name.normalized = p.suffix.normalized) ∧
    (∀ id e q, p.get? id = some e → e.parent = some q → ∃ f, p.get? q = some f ∧
      e.name.parent?.map Dn.normalized = some f.name.normalized) ∧
    (∀ d q id, (q, id) ∈ p.system.oneLevel.tables.tuples d ↔ p.HasParent id q) ∧
    (∀ d a id, (a, id) ∈ p.system.subLevel.tables.tuples d ↔
      p.Stored id ∧ ReflTransGen p.HasParent id a) ∧
    ∀ id, ¬TransGen p.HasParent id id := by
  obtain ⟨n, hn, hv⟩ := h.valued
  have hp := h.arranged
  have hnamed := h.wellNamed hws
  have hroot : ∀ id e, p.get? id = some e → e.parent = none →
      e.name.normalized = p.suffix.normalized := fun id e he hnone =>
    Dn.normalized_eq_of_key_eq (hnamed.root id e he hnone)
  have hdistinct : ∀ i j e f, p.get? i = some e → p.get? j = some f →
      e.name.normalized = f.name.normalized → i = j := fun i j e f he hf heq =>
    hnamed.distinct i j e f he hf
      (Dn.key_eq_of_normalized_eq (hnamed.plain i e he) (hnamed.plain j f hf) heq)
  refine ⟨fun id e he => ⟨hv.own id e he, ?_⟩, hdistinct, fun d n id => ?_,
    fun i j e f he hf hnone hnone' => ?_, hroot, fun id e q he hq => ?_, fun d q id => ?_,
    fun d a id => ?_, hp.acyclic⟩
  · have hle := hv.numbers id e he
    have hsize := h.adds
    by_cases hlast : n + 1 < UInt64.size
    · refine .inl (UInt64.lt_iff_toNat_lt.2 ?_)
      rw [hv.nextId, UInt64.toNat_ofNat_of_lt' hlast]
      exact Nat.lt_succ_of_le hle
    · have hfull : n + 1 = UInt64.size := by omega
      refine .inr ⟨?_, by omega⟩
      rw [hv.nextId, hfull]
      rfl
  · exact (Index.mem_tuples (hv.sound.names .entry)).trans (hp.named n id)
  · exact hdistinct i j e f he hf ((hroot i e he hnone).trans (hroot j f hf hnone').symm)
  · obtain ⟨f, hf⟩ := hp.parents id q ⟨e, he, hq⟩
    obtain ⟨k, hk⟩ := hnamed.below id e q f he hq hf
    exact ⟨f, hf, Dn.parent?_of_key hk⟩
  · exact (Index.mem_tuples (hv.sound.tree .oneLevel)).trans (hp.oneLevel q id)
  · exact (Index.mem_tuples (hv.sound.tree .subLevel)).trans (hp.subLevel a id)

theorem forest_sample : (Sample.partition.ReachedBy .standard Sample.writes ∧
      ∀ w ∈ Sample.writes, w.Parsed) ∧
    (4, 4) ∈ Sample.partition.system.subLevel.tables.tuples .forward := by
  have hname : ∀ s d, (Dn.parse s).toOption = some d → d.Parsed := fun s d h =>
    ⟨s, Except.toOption_eq_some.1 h⟩
  have hsuffix := hname "dc=example, DC=com" Sample.suffix (by decide +kernel)
  have ha := hname "ou=A,dc=example,dc=com" (Sample.unit "A") (by decide +kernel)
  have hb := hname "ou=B,dc=example,dc=com" (Sample.unit "B") (by decide +kernel)
  have hperson := hname "cn=Ann,ou=A,dc=example,dc=com" Sample.person (by decide +kernel)
  have hrdn : Rdn.Parsed ⟨⟨"cn"⟩, "Anna  Lee"⟩ :=
    ⟨_, hname "cn= Anna  Lee" ⟨[⟨⟨"cn"⟩, "Anna  Lee"⟩]⟩ (by decide +kernel), rfl⟩
  have hparsed : ∀ w ∈ Sample.writes, w.Parsed := by
    simp only [Sample.writes, List.forall_mem_cons]
    exact ⟨hsuffix, ha, hb, hperson, trivial, hb, hrdn, trivial, fun _ h => nomatch h⟩
  refine ⟨⟨Sample.reachedBy, hparsed⟩, ?_⟩
  obtain ⟨_, _, _, _, _, _, _, hsub, _⟩ := ReachedBy.forest Sample.reachedBy hparsed
  obtain ⟨e, he, _⟩ := Sample.person_stored
  exact (hsub .forward 4 4).2 ⟨⟨e, he⟩, .refl⟩

end Partition

end Directory
