import Directory.Proofs.Partition.Outcome

/-!
# What a move leaves

A move rewrites the records of a whole subtree one after another and changes the indices once.

* `Partition.OwnNumbers`, `Partition.ValuesIndexed`: entries are stored under their own numbers, and
  the indices of values hold what the entries hold. Both last from member to member.
* `Partition.Moving`: what the rewriting of some members leaves.
* `Partition.Relocated`, `Ensures.relocate`: **what the whole move leaves**.
-/

namespace Directory

/-! ## Records of members -/

namespace Entry

theorem withNameValue_eq_ok {p : Partition} {e e' : Entry} (h : e.withNameValue p = .ok e') :
    e'.id = e.id ∧ e'.name = e.name ∧ e'.parent = e.parent := by
  unfold withNameValue at h
  split at h
  · cases h
    exact ⟨rfl, rfl, rfl⟩
  · obtain ⟨wanted, _, h⟩ := Except.bind_eq_ok.1 h
    obtain ⟨held, _, h⟩ := Except.bind_eq_ok.1 h
    split at h <;> cases h <;> exact ⟨rfl, rfl, rfl⟩

theorem withNameValue_congr {p p' : Partition} (h : p'.schema = p.schema) (e : Entry) :
    e.withNameValue p' = e.withNameValue p := by
  unfold withNameValue Partition.normalizeAll
  rw [h]

end Entry

namespace Partition

theorem checkValues_congr {p p' : Partition} (h : p'.schema = p.schema) (e : Entry) :
    p'.checkValues e = p.checkValues e := by
  unfold checkValues normalizeAll
  rw [h]

/-- The values that the entry of a number holds; a number without entry holds none. -/
def valuesOf (p : Partition) (id : EntryId) (a : AttributeId) : List Value :=
  match p.get? id with
  | some e => e.valuesOf a
  | none => []

/-- Every entry is stored under its own number. -/
def OwnNumbers (p : Partition) : Prop := ∀ id e, p.get? id = some e → e.id = id

/-- The indices of values hold what the entries hold. -/
def ValuesIndexed (p : Partition) : Prop := ∀ id, p.Carries id (p.valuesOf id)

theorem valuesOf_some {p : Partition} {id : EntryId} {e : Entry} (h : p.get? id = some e) :
    p.valuesOf id = e.valuesOf := by
  funext a
  rw [valuesOf, h]

theorem valuesOf_none {p : Partition} {id : EntryId} (h : p.get? id = none) :
    p.valuesOf id = fun _ => [] := by
  funext a
  rw [valuesOf, h]

theorem valuesOf_iff {p : Partition} {id : EntryId} {a : AttributeId} {P : List Value → Prop}
    (hP : ¬P []) : P (p.valuesOf id a) ↔ ∃ e, p.get? id = some e ∧ P (e.valuesOf a) := by
  cases he : p.get? id with
  | none => simp [valuesOf_none he, hP]
  | some e => simp [valuesOf_some he]

theorem OwnNumbers.mem_values {p : Partition} (h : p.OwnNumbers) {id : EntryId} {e : Entry} :
    e ∈ p.master.values ∧ id = e.id ↔ p.get? id = some e := by
  constructor
  · rintro ⟨he, rfl⟩
    obtain ⟨⟨i, e⟩, hi, rfl⟩ := List.mem_map.1 he
    have hi : p.get? i = some e := SortedMap.get?_eq_some_iff.2 hi
    rwa [h i e hi]
  · intro he
    exact ⟨List.mem_map.2 ⟨(id, e), SortedMap.get?_eq_some_iff.1 he, rfl⟩, (h id e he).symm⟩

theorem OwnNumbers.congr {p p' : Partition} (h : p.OwnNumbers) (hmaster : p'.master = p.master) :
    p'.OwnNumbers := by
  intro id e he
  rw [get?_congr hmaster] at he
  exact h id e he

theorem OwnNumbers.inserted {p p' : Partition} {id : EntryId} {e : Entry} (h : p.OwnNumbers)
    (hmaster : p'.master = p.master.insert id e) (hid : e.id = id) : p'.OwnNumbers := by
  intro i f hf
  rcases get?_inserted_cases hmaster hf with ⟨hi, rfl⟩ | ⟨_, hf⟩
  · exact hid.trans hi.symm
  · exact h i f hf

theorem valuesOf_congr {p p' : Partition} {id : EntryId} (h : p'.get? id = p.get? id) :
    p'.valuesOf id = p.valuesOf id := by
  funext a
  rw [valuesOf, valuesOf, h]

theorem ValuesIndexed.congr {p p' : Partition} (h : p.ValuesIndexed) (hsame : p.SameSettings p')
    (hmaster : p'.master = p.master) (htagged : p'.Tagged = p.Tagged)
    (hpresent : p'.Present = p.Present) : p'.ValuesIndexed := by
  intro id
  rw [valuesOf_congr (get?_congr hmaster id)]
  exact (h id).congr hsame htagged hpresent

theorem ValuesIndexed.inserted {p p' : Partition} {id : EntryId} {e : Entry} (h : p.ValuesIndexed)
    (hsame : p.SameSettings p') (hmaster : p'.master = p.master.insert id e)
    (hvalues : p.Revalued id e.valuesOf p') : p'.ValuesIndexed := by
  intro i
  by_cases hi : i = id
  · rw [hi, valuesOf_some (get?_inserted hmaster)]
    exact hvalues.carries
  · rw [valuesOf_congr (get?_inserted_of_ne hmaster hi)]
    exact (hvalues.others i hi).carries hsame (h i)

theorem movedEntry_eq_ok {p : Partition} {mv : Move} {m : EntryId} {current moved : Entry}
    (h : Transaction.movedEntry p mv m current = .ok moved) :
    moved.id = current.id ∧ current.name.rebase? mv.top.name mv.name = some moved.name ∧
      (m = mv.top.id → moved.parent = some mv.parent ∧ p.checkValues moved = .ok ()) ∧
      (m ≠ mv.top.id → moved.parent = current.parent ∧ moved.attributes = current.attributes) := by
  unfold Transaction.movedEntry at h
  split at h
  · rename_i name hname
    split at h
    · rename_i hm
      obtain ⟨e, he, h⟩ := Except.bind_eq_ok.1 h
      obtain ⟨_, hcheck, h⟩ := Except.bind_eq_ok.1 h
      cases h
      obtain ⟨hid, hname', hparent⟩ := Entry.withNameValue_eq_ok he
      exact ⟨hid, by rw [hname', hname], fun _ => ⟨hparent, hcheck⟩, fun hne => absurd hm hne⟩
    · rename_i hm
      cases h
      exact ⟨rfl, hname, fun e => absurd e hm, fun _ => ⟨rfl, rfl⟩⟩
  · cases h

theorem movedEntry_congr {p p' : Partition} (h : p'.schema = p.schema) (mv : Move) (m : EntryId)
    (current : Entry) :
    Transaction.movedEntry p' mv m current = Transaction.movedEntry p mv m current := by
  unfold Transaction.movedEntry
  simp only [Entry.withNameValue_congr h, checkValues_congr h]

/-! ## Members one after another -/

/-- The record of a member and what the move makes of it. -/
def Moves (p : Partition) (mv : Move) (m : EntryId) (current moved : Entry) : Prop :=
  p.get? m = some current ∧ Transaction.movedEntry p mv m current = .ok moved

theorem Moves.unique {p : Partition} {mv : Move} {m : EntryId}
    {current current' moved moved' : Entry} (h : p.Moves mv m current moved)
    (h' : p.Moves mv m current' moved') : current' = current ∧ moved' = moved := by
  obtain ⟨hget, hmoved⟩ := h
  obtain ⟨hget', hmoved'⟩ := h'
  rw [hget] at hget'
  cases hget'
  exact ⟨rfl, Except.ok.inj (hmoved'.symm.trans hmoved)⟩

theorem moves_congr {p p' : Partition} {mv : Move} {m : EntryId} (hget : p'.get? m = p.get? m)
    (hschema : p'.schema = p.schema) {current moved : Entry} :
    p'.Moves mv m current moved ↔ p.Moves mv m current moved := by
  rw [Moves, Moves, hget, movedEntry_congr hschema]

/-- What rewriting the records of some members leaves. -/
structure Moving (p : Partition) (mv : Move) (ms : List EntryId)
    (renamed : List (EntryId × String × String)) (p' : Partition) : Prop where
  sound : p'.Sound
  same : p.SameSettings p'
  named : p'.Named = p.Named
  oneLevel : p'.OneLevel = p.OneLevel
  subLevel : p'.SubLevel = p.SubLevel
  others : ∀ i, i ∉ ms → p'.get? i = p.get? i
  moved : ∀ m ∈ ms, ∃ current moved, p.Moves mv m current moved ∧ p'.get? m = some moved
  renamed : ∀ m n n', (m, n, n') ∈ renamed ↔ m ∈ ms ∧ ∃ current moved,
    p.Moves mv m current moved ∧ n = current.name.normalized ∧ n' = moved.name.normalized
  own : p'.OwnNumbers
  values : p'.ValuesIndexed

namespace Moving

variable {p p' p'' : Partition} {mv : Move} {ms ns : List EntryId}
  {rs ss : List (EntryId × String × String)}

theorem nil (hp : p.Sound) (hown : p.OwnNumbers) (hvalues : p.ValuesIndexed) :
    p.Moving mv [] [] p where
  sound := hp
  same := .refl p
  named := rfl
  oneLevel := rfl
  subLevel := rfl
  others _ _ := rfl
  moved _ h := nomatch h
  renamed _ _ _ := ⟨fun h => (nomatch h), fun h => nomatch h.1⟩
  own := hown
  values := hvalues

/-- One member whose values have been indexed and whose record is stored. -/
theorem one (hown : p.OwnNumbers) (hvalues : p.ValuesIndexed) {m : EntryId} {current moved : Entry}
    (hmoves : p.Moves mv m current moved) (hid : moved.id = m)
    {tagged : AttributeId → Value → EntryId → Prop} {present : AttributeId → EntryId → Prop}
    (h : p.Becomes (View.put moved.id (some moved) ∘ View.setValues tagged present) p')
    (hrevalued : p.Revalued m moved.valuesOf p') :
    p.Moving mv [m] [(m, current.name.normalized, moved.name.normalized)] p' := by
  have hmaster : p'.master = p.master.insert m moved := hid ▸ h.master
  exact {
    sound := h.sound
    same := h.same
    named := h.named
    oneLevel := h.oneLevel
    subLevel := h.subLevel
    others i hi := get?_inserted_of_ne hmaster fun e => hi (List.mem_singleton.2 e)
    moved m' hm' := by
      obtain rfl := List.mem_singleton.1 hm'
      exact ⟨current, moved, hmoves, get?_inserted hmaster⟩
    renamed m' n n' := by
      rw [List.mem_singleton, List.mem_singleton]
      constructor
      · intro e
        cases e
        exact ⟨rfl, current, moved, hmoves, rfl, rfl⟩
      · rintro ⟨rfl, current', moved', hm, rfl, rfl⟩
        obtain ⟨rfl, rfl⟩ := hmoves.unique hm
        rfl
    own := hown.inserted hmaster hid
    values := hvalues.inserted h.same hmaster hrevalued }

theorem moves_iff (h : p.Moving mv ms rs p') {m : EntryId} (hm : m ∉ ms) {current moved : Entry} :
    p'.Moves mv m current moved ↔ p.Moves mv m current moved :=
  moves_congr (h.others m hm) h.same.schema

theorem trans (h : p.Moving mv ms rs p') (h' : p'.Moving mv ns ss p'')
    (hdisjoint : ∀ m ∈ ms, m ∉ ns) : p.Moving mv (ms ++ ns) (rs ++ ss) p'' where
  sound := h'.sound
  same := h.same.trans h'.same
  named := h'.named.trans h.named
  oneLevel := h'.oneLevel.trans h.oneLevel
  subLevel := h'.subLevel.trans h.subLevel
  others i hi := by
    rw [List.mem_append, not_or] at hi
    rw [h'.others i hi.2, h.others i hi.1]
  moved m hm := by
    rcases List.mem_append.1 hm with hm | hm
    · rw [h'.others m (hdisjoint m hm)]
      exact h.moved m hm
    · obtain ⟨current, moved, hmoves, hget⟩ := h'.moved m hm
      exact ⟨current, moved, (h.moves_iff fun hm' => hdisjoint m hm' hm).1 hmoves, hget⟩
  renamed m n n' := by
    rw [List.mem_append, h.renamed, h'.renamed, List.mem_append, or_and_right]
    refine or_congr_right (and_congr_right fun hm => ?_)
    simp only [h.moves_iff fun hm' => hdisjoint m hm' hm]
  own := h'.own
  values := h'.values

theorem after (h : p.Becomes id p') (h' : p'.Moving mv ms rs p'') : p.Moving mv ms rs p'' := by
  have hmoves : ∀ m current moved, p'.Moves mv m current moved ↔ p.Moves mv m current moved :=
    fun m _ _ => moves_congr (get?_congr h.master m) h.same.schema
  exact {
    sound := h'.sound
    same := h.same.trans h'.same
    named := h'.named.trans h.named
    oneLevel := h'.oneLevel.trans h.oneLevel
    subLevel := h'.subLevel.trans h.subLevel
    others i hi := (h'.others i hi).trans (get?_congr h.master i)
    moved m hm := by
      obtain ⟨current, moved, hm, hget⟩ := h'.moved m hm
      exact ⟨current, moved, (hmoves m current moved).1 hm, hget⟩
    renamed m n n' := by
      rw [h'.renamed]
      simp only [hmoves]
    own := h'.own
    values := h'.values }

/-- The changes of the index of names replace the old names of the members by the new ones. -/
theorem allOnto_renamed (h : p.Moving mv ms rs p') {r : String → EntryId → Prop} {n : String}
    {i : EntryId} :
    Change.allOnto (rs.map (fun r => .drop r.2.1 r.1) ++ rs.map fun r => .add r.2.2 r.1) r n i ↔
      (i ∈ ms ∧ ∃ current moved, p.Moves mv i current moved ∧ n = moved.name.normalized) ∨
      (r n i ∧ ¬(i ∈ ms ∧ ∃ current moved,
        p.Moves mv i current moved ∧ n = current.name.normalized)) := by
  have hdrops : rs.map (fun r => Change.drop r.2.1 r.1) =
      (rs.map fun r => (r.2.1, r.1)).map fun x => .drop x.1 x.2 := by
    rw [List.map_map]
    rfl
  have hadds : rs.map (fun r => Change.add r.2.2 r.1) =
      (rs.map fun r => (r.2.2, r.1)).map fun x => .add x.1 x.2 := by
    rw [List.map_map]
    rfl
  have hold : (n, i) ∈ rs.map (fun r => (r.2.1, r.1)) ↔ i ∈ ms ∧ ∃ current moved,
      p.Moves mv i current moved ∧ n = current.name.normalized := by
    rw [List.mem_map]
    constructor
    · rintro ⟨⟨m, n, n'⟩, hm, e⟩
      cases e
      obtain ⟨hi, current, moved, hmoves, hn, _⟩ := (h.renamed ..).1 hm
      exact ⟨hi, current, moved, hmoves, hn⟩
    · rintro ⟨hi, current, moved, hmoves, hn⟩
      exact ⟨(i, n, _), (h.renamed ..).2 ⟨hi, current, moved, hmoves, hn, rfl⟩, rfl⟩
  have hnew : (n, i) ∈ rs.map (fun r => (r.2.2, r.1)) ↔ i ∈ ms ∧ ∃ current moved,
      p.Moves mv i current moved ∧ n = moved.name.normalized := by
    rw [List.mem_map]
    constructor
    · rintro ⟨⟨m, n, n'⟩, hm, e⟩
      cases e
      obtain ⟨hi, current, moved, hmoves, _, hn⟩ := (h.renamed ..).1 hm
      exact ⟨hi, current, moved, hmoves, hn⟩
    · rintro ⟨hi, current, moved, hmoves, hn⟩
      exact ⟨(i, _, n), (h.renamed ..).2 ⟨hi, current, moved, hmoves, rfl, hn⟩, rfl⟩
  rw [hdrops, hadds, Change.allOnto_drop_add, hold, hnew]

end Moving

end Partition

/-- What a change of the parent does to the indices of the tree. -/
def View.reparent (mv : Partition.Move) : View → View :=
  if mv.parent = mv.oldParent then id
  else View.changeSubLevel (mv.members.flatMap fun m =>
      mv.oldAncestors.map (.drop · m) ++ mv.ancestors.map (.add · m)) ∘
    View.changeOneLevel [.drop mv.oldParent mv.id, .add mv.parent mv.id]

namespace View

variable (mv : Partition.Move) (v : View)

@[simp] theorem reparent_master : (reparent mv v).master = v.master := by
  unfold reparent
  split <;> rfl

@[simp] theorem reparent_named : (reparent mv v).named = v.named := by
  unfold reparent
  split <;> rfl

@[simp] theorem reparent_tagged : (reparent mv v).tagged = v.tagged := by
  unfold reparent
  split <;> rfl

@[simp] theorem reparent_present : (reparent mv v).present = v.present := by
  unfold reparent
  split <;> rfl

end View

namespace Partition

/-- What the whole move leaves. -/
structure Relocated (p : Partition) (mv : Move) (p' : Partition) : Prop where
  sound : p'.Sound
  same : p.SameSettings p'
  others : ∀ i, i ∉ mv.members → p'.get? i = p.get? i
  moved : ∀ m ∈ mv.members, ∃ current moved, p.Moves mv m current moved ∧ p'.get? m = some moved
  named : ∀ n i, p'.Named n i ↔
    (i ∈ mv.members ∧ ∃ current moved, p.Moves mv i current moved ∧ n = moved.name.normalized) ∨
    (p.Named n i ∧ ¬(i ∈ mv.members ∧ ∃ current moved,
      p.Moves mv i current moved ∧ n = current.name.normalized))
  stays : mv.parent = mv.oldParent → p'.OneLevel = p.OneLevel ∧ p'.SubLevel = p.SubLevel
  oneLevel : mv.parent ≠ mv.oldParent → ∀ q i, p'.OneLevel q i ↔
    (i = mv.id ∧ q = mv.parent) ∨ (p.OneLevel q i ∧ ¬(i = mv.id ∧ q = mv.oldParent))
  subLevel : mv.parent ≠ mv.oldParent → ∀ a i, p'.SubLevel a i ↔
    (i ∈ mv.members ∧ a ∈ mv.ancestors) ∨
    (p.SubLevel a i ∧ ¬(i ∈ mv.members ∧ a ∈ mv.oldAncestors))
  own : p'.OwnNumbers
  values : p'.ValuesIndexed

end Partition

/-! ## The steps -/

namespace Ensures

open Directory.Partition Transaction

variable {t : Transaction} {mv : Move}

theorem moveMember (hp : t.partition.Sound) (hown : t.partition.OwnNumbers)
    (hvalues : t.partition.ValuesIndexed) (m : EntryId) :
    Ensures (moveMember mv m) t fun r t' => t.partition.Moving mv [m] [r] t'.partition := by
  unfold Transaction.moveMember
  refine Ensures.bind.2 (Ensures.get.2 (Ensures.bind.2 (Ensures.lift.2 fun current hcurrent => ?_)))
  refine Ensures.bind.2 (Ensures.lift.2 fun moved hmoved => ?_)
  have hcurrent := lookup_eq_ok.1 hcurrent
  obtain ⟨hid, hname, htop, hother⟩ := movedEntry_eq_ok hmoved
  have hid : moved.id = m := hid.trans (hown m current hcurrent)
  have hcarries : t.partition.Carries m current.valuesOf := valuesOf_some hcurrent ▸ hvalues m
  have hmoves : t.partition.Moves mv m current moved := ⟨hcurrent, hmoved⟩
  have hput : ∀ t₁ : Transaction, t₁.partition.Sound → t.partition.UpToValues t₁.partition →
      t.partition.Revalued m moved.valuesOf t₁.partition →
      Ensures (do
        Transaction.putEntry moved
        return (m, current.name.normalized, moved.name.normalized)) t₁
        fun r t' => t.partition.Moving mv [m] [r] t'.partition := by
    intro t₁ hsound hup hrevalued
    refine Ensures.bind.2 ((putEntry hsound moved).mono fun _ t₂ h₂ => Ensures.pure.2 ?_)
    exact .one hown hvalues hmoves hid ((hup.becomes hsound).trans h₂)
      (hrevalued.congr rfl rfl h₂.same h₂.tagged h₂.present)
  split
  · refine Ensures.bind.2 ((reindex hp hcarries).mono fun _ t₁ ⟨hsound, hup, hrevalued⟩ => ?_)
    exact hput t₁ hsound hup hrevalued
  · rename_i hm
    have hsame : moved.valuesOf = current.valuesOf := by
      funext a
      rw [Entry.valuesOf, Entry.valuesOf, (hother hm).2]
    exact hput t hp (.refl _) (.refl (hsame ▸ hcarries))

theorem mapM_moveMember (hp : t.partition.Sound) (hown : t.partition.OwnNumbers)
    (hvalues : t.partition.ValuesIndexed) {ms : List EntryId} (hms : ms.Nodup) :
    Ensures (ms.mapM (Transaction.moveMember mv)) t fun rs t' =>
      t.partition.Moving mv ms rs t'.partition := by
  induction ms generalizing t with
  | nil =>
    rw [List.mapM_nil]
    exact Ensures.pure.2 (.nil hp hown hvalues)
  | cons m ms ih =>
    obtain ⟨hm, hms⟩ := List.nodup_cons.1 hms
    rw [List.mapM_cons]
    refine Ensures.bind.2 ((moveMember hp hown hvalues m).mono fun r t₁ h₁ => ?_)
    refine Ensures.bind.2 ((ih h₁.sound h₁.own h₁.values hms).mono fun rs t₂ h₂ =>
      Ensures.pure.2 ?_)
    exact h₁.trans h₂ fun m' hm' => List.mem_singleton.1 hm' ▸ hm

theorem reparent (hp : t.partition.Sound) :
    Ensures (reparent mv) t fun _ t' => t.partition.Becomes (View.reparent mv) t'.partition := by
  unfold Transaction.reparent View.reparent
  by_cases h : mv.parent = mv.oldParent
  · rw [if_neg (not_not_intro h), if_pos h]
    exact Ensures.pure.2 (.refl hp)
  · rw [if_pos h, if_neg h]
    refine Ensures.bind.2 ((changeOneLevel hp _).mono fun _ t₁ h₁ => ?_)
    exact (changeSubLevel h₁.sound _).mono fun _ t₂ h₂ => h₁.trans h₂

theorem forM_links {f : AliasLink → TransactionM Unit} {p : Partition}
    (hf : ∀ t, p.Becomes id t.partition → ∀ l,
      Ensures (f l) t fun _ t' => p.Becomes id t'.partition)
    (ht : p.Becomes id t.partition) (links : List AliasLink) :
    Ensures (links.forM f) t fun _ t' => p.Becomes id t'.partition :=
  Ensures.forM (I := fun t => p.Becomes id t.partition) (fun l _ t ht => hf t ht l) ht

/-- **What the whole move leaves.** -/
theorem relocate (hp : t.partition.Sound) (hown : t.partition.OwnNumbers)
    (hvalues : t.partition.ValuesIndexed) (hmembers : mv.members.Nodup) :
    Ensures (relocate mv) t fun _ t' => t.partition.Relocated mv t'.partition := by
  unfold Transaction.relocate Climbing.relocate
  refine Ensures.bind.2 ((forM_links (fun t ht => dropLink ht) (.refl hp) _).mono fun _ t₁ h₁ => ?_)
  have hvalues₁ := hvalues.congr h₁.same h₁.master h₁.tagged h₁.present
  refine Ensures.bind.2 ((mapM_moveMember h₁.sound (hown.congr h₁.master) hvalues₁ hmembers).mono
    fun renamed t₂ h₂ => ?_)
  have h₂ := Moving.after h₁ h₂
  refine Ensures.bind.2 ((changeEntryName h₂.sound _).mono fun _ t₃ h₃ => ?_)
  refine Ensures.bind.2 ((reparent h₃.sound).mono fun _ t₄ h₄ => ?_)
  refine (forM_links (fun t ht => relink ht) (.refl h₄.sound) _).mono fun _ t₅ h₅ => ?_
  have h := (h₃.trans h₄).trans h₅
  have hmaster : t₅.partition.master = t₂.partition.master :=
    h.master.trans (View.reparent_master ..)
  have htagged : t₅.partition.Tagged = t₂.partition.Tagged :=
    h.tagged.trans (View.reparent_tagged ..)
  have hpresent : t₅.partition.Present = t₂.partition.Present :=
    h.present.trans (View.reparent_present ..)
  have hget : ∀ i, t₅.partition.get? i = t₂.partition.get? i := get?_congr hmaster
  refine ⟨h.sound, h₂.same.trans h.same, fun i hi => ?_, fun m hm => ?_,
    fun n i => ?_, fun hpar => ⟨?_, ?_⟩, fun hpar q i => ?_, fun hpar a i => ?_,
    h₂.own.congr hmaster, h₂.values.congr h.same hmaster htagged hpresent⟩
  · rw [hget, h₂.others i hi]
  · obtain ⟨current, moved, hm, hget₂⟩ := h₂.moved m hm
    exact ⟨current, moved, hm, (hget m).trans hget₂⟩
  · have hnamed : t₅.partition.Named = Change.allOnto _ t₂.partition.Named :=
      h.named.trans (View.reparent_named ..)
    rw [hnamed, h₂.allOnto_renamed, h₂.named]
  · refine h.oneLevel.trans ?_
    rw [← h₂.oneLevel, View.reparent, if_pos hpar]
    rfl
  · refine h.subLevel.trans ?_
    rw [← h₂.subLevel, View.reparent, if_pos hpar]
    rfl
  · rw [h.oneLevel, ← h₂.oneLevel, View.reparent, if_neg hpar]
    exact Change.allOnto_add.trans (or_congr_right Change.allOnto_drop)
  · rw [h.subLevel, ← h₂.subLevel, View.reparent, if_neg hpar]
    exact Change.allOnto_blocks

end Ensures

end Directory
