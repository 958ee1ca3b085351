import Directory.Proofs.Partition.Aliases

/-!
# The index of aliases

* `Partition.Relinked.aliasOf_iff`: what a write leaves in the index of aliases.
* `Partition.ReachedBy.along`, `ReachedBy.along_relinked`: induction along a history.
* `Partition.ReachedBy.alias_tuples`: **what the index of aliases holds is an alias of an entry**,
  after every history.
* `Partition.MadeAlias`: an entry that a move or a renaming has made an alias;
  `Partition.ReachedBy.alias_indexed_iff`: these are the aliases that the index does not hold.
-/

namespace Directory

open Relation

theorem Entry.targetKey?_eq_some {e : Entry} {n : String} : e.targetKey? = some n ↔
    ∃ written name, e.aliasTarget? = some written ∧ Dn.parse written = .ok name ∧
      name.normalized = n := by
  simp [Entry.targetKey?, Option.bind_eq_some_iff, Except.toOption_eq_some]

/-! ## Tuples after a write -/

namespace Links

variable {p : Partition} {v : Links} {ls : List AliasLink} {n : String} {a : EntryId}

theorem dropAll_aliasOf : (v.dropAll p ls).aliasOf n a ↔
    v.aliasOf n a ∧ ∀ l ∈ ls, ¬(a = l.source ∧ n = l.targetNormalized) := by
  induction ls generalizing v with
  | nil => exact (and_iff_left fun _ h => nomatch h).symm
  | cons l ls ih =>
    refine ih.trans ?_
    rw [List.forall_mem_cons, ← and_assoc]
    rfl

theorem addAll_aliasOf : (v.addAll p ls).aliasOf n a ↔
    (∃ l ∈ ls, a = l.source ∧ n = l.targetNormalized) ∨ v.aliasOf n a := by
  induction ls generalizing v with
  | nil => exact (or_iff_right fun ⟨_, h, _⟩ => nomatch h).symm
  | cons l ls ih =>
    refine ih.trans ?_
    simp only [List.mem_cons, exists_eq_or_imp, or_assoc]
    exact or_left_comm

end Links

namespace Partition

variable {p p' : Partition} {w : Write} {dropped added : List AliasLink} {n : String}
  {a i : EntryId} {e : Entry}

theorem Relinked.kept_iff (h : p.Relinked w dropped added p') (hl : p.Linked) :
    (p.links.dropAll p dropped).aliasOf n a ↔ p.AliasOf n a ∧ ∀ l ∈ dropped, l.source ≠ a := by
  rw [Links.dropAll_aliasOf]
  refine and_congr_right fun ha => forall₂_congr fun l hl' => ?_
  refine ⟨fun hne hsource => hne ⟨hsource.symm, ?_⟩, fun hne hboth => hne hboth.1.symm⟩
  obtain ⟨e, he, hrecorded⟩ := h.recorded l hl'
  have haliasOf : p.AliasOf l.targetNormalized a := by
    rw [← hsource, hrecorded.source]
    exact hrecorded.aliasOf
  exact (hl.unique ha haliasOf).symm

/-- What a write leaves in the index of aliases. -/
theorem Relinked.aliasOf_iff (h : p.Relinked w dropped added p') (hl : p.Linked) :
    p'.AliasOf n a ↔ (∃ l ∈ added, a = l.source ∧ n = l.targetNormalized) ∨
      (p.AliasOf n a ∧ ∀ l ∈ dropped, l.source ≠ a) := by
  have hlinks : p'.AliasOf = _ := congrArg Links.aliasOf h.links
  rw [hlinks, Links.addAll_aliasOf, h.kept_iff hl]

theorem Relinked.linked {k : Nat} (h : p.Relinked w dropped added p') (hl : p.Linked)
    (h' : p'.Ordered k) : p'.Linked := by
  intro n a ha
  rcases (h.aliasOf_iff hl).1 ha with ⟨l, hl', rfl, rfl⟩ | ⟨ha, hkept⟩
  · obtain ⟨e, he, halias, hadmitted⟩ := h.admitted l hl'
    exact ⟨l.target, hadmitted.standsFor h'.arranged h'.wellNamed he halias⟩
  · obtain ⟨t, hstands⟩ := hl n a ha
    obtain ⟨hsource, htarget⟩ := h.kept n a t ha hstands hkept
    exact ⟨t, hsource.standsFor htarget hstands⟩

/-! ## Histories -/

theorem ofConfig_empty {c : Config} (h : ofConfig c = .ok p) :
    p.master = ∅ ∧ p.system = .empty := by
  obtain ⟨suffix, _, _, rfl⟩ := ofConfig_eq_ok h
  have hindices : ∀ (attrs : List String) (q : Partition), q.Sound →
      (q.afterAll (attrs.map .addIndex)).master = q.master ∧
        (q.afterAll (attrs.map .addIndex)).system = q.system := by
    intro attrs
    induction attrs with
    | nil => exact fun _ _ => ⟨rfl, rfl⟩
    | cons attr attrs ih =>
      intro q hq
      obtain ⟨hmaster, hsystem⟩ := ih _ (hq.after (.addIndex attr))
      have hone : (Write.after q (.addIndex attr)).master = q.master ∧
          (Write.after q (.addIndex attr)).system = q.system := by
        refine stateAfter_of (Q := fun q' => q'.master = q.master ∧ q'.system = q.system)
          ((ensures_addIndex hq attr).mono ?_) fun e q' he => ?_
        · rintro _ q' (rfl | h')
          · exact ⟨rfl, rfl⟩
          · rw [h'.rest]
            exact ⟨rfl, rfl⟩
        · rw [addIndex_refused attr e q' he]
          exact ⟨rfl, rfl⟩
      exact ⟨hmaster.trans hone.1, hsystem.trans hone.2⟩
  exact hindices c.indexed _ (.bare c suffix)

theorem ofConfig_unlinked {c : Config} (h : ofConfig c = .ok p) :
    (∀ n a, ¬p.AliasOf n a) ∧ (∀ q t, ¬p.OneAlias q t) ∧ ∀ x t, ¬p.SubAlias x t := by
  unfold AliasOf OneAlias SubAlias
  rw [(ofConfig_empty h).2]
  exact ⟨fun _ _ => Index.not_has_empty, fun _ _ => Index.not_has_empty,
    fun _ _ => Index.not_has_empty⟩

/-- **Induction along a history.** What is shown of a partition may speak of the writes that have
led to it. -/
theorem ReachedBy.along {I : List Write → Partition → Prop} {c : Config} {ws : List Write}
    (h : p.ReachedBy c ws) (hnew : ∀ p₀, ofConfig c = .ok p₀ → I [] p₀)
    (hwrite : ∀ ws₁ w q, ws₁ ++ [w] <+: ws → q.ReachedBy c ws₁ →
      (w.after q).ReachedBy c (ws₁ ++ [w]) → I ws₁ q → I (ws₁ ++ [w]) (w.after q)) : I ws p := by
  obtain ⟨p₀, hp₀, rfl⟩ := h.start
  have hreached : ∀ ws₁, ws₁ <+: ws → (p₀.afterAll ws₁).ReachedBy c ws₁ := fun ws₁ hinit =>
    ⟨⟨p₀, hp₀, rfl⟩, Nat.lt_of_le_of_lt hinit.sublist.countP_le h.adds⟩
  -- from each state on the way to the last one
  have hon : ∀ ws₂ ws₁, ws₁ ++ ws₂ = ws → I ws₁ (p₀.afterAll ws₁) → I ws (p₀.afterAll ws) := by
    intro ws₂
    induction ws₂ with
    | nil =>
      rintro ws₁ rfl hI
      rwa [List.append_nil]
    | cons w ws₂ ih =>
      intro ws₁ hws hI
      have hws' : (ws₁ ++ [w]) ++ ws₂ = ws := by rw [← hws, List.append_assoc]; rfl
      have hafter : p₀.afterAll (ws₁ ++ [w]) = w.after (p₀.afterAll ws₁) := List.foldl_append
      refine ih (ws₁ ++ [w]) hws' ?_
      rw [hafter]
      exact hwrite ws₁ w _ ⟨ws₂, hws'⟩ (hreached ws₁ ⟨_, hws⟩) (hafter ▸ hreached _ ⟨_, hws'⟩) hI
  exact hon ws [] rfl (hnew p₀ hp₀)

theorem ReachedBy.next {c : Config} {ws : List Write} {w : Write} (h : p.ReachedBy c ws)
    (hadds : (ws ++ [w]).countP Write.isAdd < UInt64.size) :
    (w.after p).ReachedBy c (ws ++ [w]) := by
  obtain ⟨p₀, hp₀, rfl⟩ := h.start
  have hafter : p₀.afterAll (ws ++ [w]) = w.after (p₀.afterAll ws) := List.foldl_append
  exact ⟨⟨p₀, hp₀, hafter.symm⟩, hadds⟩

theorem ReachedBy.unique {c : Config} {ws : List Write} (h : p.ReachedBy c ws)
    (h' : p'.ReachedBy c ws) : p' = p := by
  obtain ⟨p₀, hp₀, rfl⟩ := h.start
  obtain ⟨p₁, hp₁, rfl⟩ := h'.start
  cases hp₀.symm.trans hp₁
  rfl

/-! ## After every history -/

theorem ReachedBy.ordered {c : Config} {ws : List Write} (h : p.ReachedBy c ws)
    (hws : ∀ w ∈ ws, w.Parsed) : ∃ k, k ≤ ws.countP Write.isAdd ∧ p.Ordered k := by
  obtain ⟨k, hk, hvalued⟩ := h.valued
  exact ⟨k, hk, hvalued, h.arranged, h.wellNamed hws⟩

theorem ReachedBy.relinked {c : Config} {ws : List Write} (h : p.ReachedBy c ws)
    (hws : ∀ w ∈ ws, w.Parsed) (hl : p.Linked) {w : Write}
    (hnext : (w.after p).ReachedBy c (ws ++ [w])) :
    ∃ dropped added, p.Relinked w dropped added (w.after p) := by
  obtain ⟨k, hk, hordered⟩ := h.ordered hws
  have hsize := hnext.adds
  rw [List.countP_append, countP_isAdd_cons, List.countP_nil] at hsize
  exact hordered.relinked hl w (by omega)

theorem ReachedBy.linked {c : Config} {ws : List Write} (h : p.ReachedBy c ws)
    (hws : ∀ w ∈ ws, w.Parsed) : p.Linked := by
  refine h.along (I := fun _ p => p.Linked) (fun p₀ hp₀ n a ha => ?_)
    fun ws₁ w q hinit hq hnext hl => ?_
  · exact absurd ha ((ofConfig_unlinked hp₀).1 n a)
  · have hparsed : ∀ w' ∈ ws₁ ++ [w], w'.Parsed := fun w' hw' => hws w' (hinit.subset hw')
    have hbefore : ∀ w' ∈ ws₁, w'.Parsed := fun w' hw' => hparsed w' (List.mem_append_left _ hw')
    obtain ⟨_, _, hordered⟩ := hnext.ordered hparsed
    obtain ⟨dropped, added, hrelinked⟩ := hq.relinked hbefore hl hnext
    exact hrelinked.linked hl hordered

/-- Induction along a history whose names have been read: all is in step before and after each
write, which does to alias links what writes do. -/
theorem ReachedBy.along_relinked {I : List Write → Partition → Prop} {c : Config} {ws : List Write}
    (h : p.ReachedBy c ws) (hws : ∀ w ∈ ws, w.Parsed) (hnew : ∀ p₀, ofConfig c = .ok p₀ → I [] p₀)
    (hwrite : ∀ ws₁ w q k k' dropped added, q.ReachedBy c ws₁ → q.Ordered k →
      (w.after q).Ordered k' → q.Linked → q.Relinked w dropped added (w.after q) → I ws₁ q →
      I (ws₁ ++ [w]) (w.after q)) : I ws p := by
  refine h.along hnew fun ws₁ w q hinit hq hnext hI => ?_
  have hparsed : ∀ w' ∈ ws₁ ++ [w], w'.Parsed := fun w' hw' => hws w' (hinit.subset hw')
  have hbefore : ∀ w' ∈ ws₁, w'.Parsed := fun w' hw' => hparsed w' (List.mem_append_left _ hw')
  obtain ⟨k, _, hordered⟩ := hq.ordered hbefore
  obtain ⟨k', _, hordered'⟩ := hnext.ordered hparsed
  have hl := hq.linked hbefore
  obtain ⟨dropped, added, hrelinked⟩ := hq.relinked hbefore hl hnext
  exact hwrite ws₁ w q k k' dropped added hq hordered hordered' hl hrelinked hI

/-- **The tuples of the index of aliases.** After every history whose names have been read, a tuple
of the index of aliases is the only one of a stored alias, whose target has been read and has the
name of the tuple. It is the name of another stored entry, which is no alias and which the alias
does not lie below. -/
theorem ReachedBy.alias_tuples {c : Config} {ws : List Write} (h : p.ReachedBy c ws)
    (hws : ∀ w ∈ ws, w.Parsed) {d : Direction}
    (hna : (n, a) ∈ p.system.aliasTarget.tables.tuples d) :
    (∃ e written name, p.get? a = some e ∧ e.isAlias = true ∧ e.aliasTarget? = some written ∧
      Dn.parse written = .ok name ∧ name.normalized = n) ∧
    (∀ d' m, (m, a) ∈ p.system.aliasTarget.tables.tuples d' → m = n) ∧
    ∃ t f, p.get? t = some f ∧ f.name.normalized = n ∧ t ≠ a ∧ f.isAlias = false ∧
      ¬TransGen p.HasParent a t := by
  obtain ⟨_, _, hordered⟩ := h.ordered hws
  have hl := h.linked hws
  have htuple : ∀ d m, (m, a) ∈ p.system.aliasTarget.tables.tuples d ↔ p.AliasOf m a := fun _ _ =>
    Index.mem_tuples (hordered.valued.sound.names .aliasTarget)
  have ha := (htuple d n).1 hna
  obtain ⟨t, hstands⟩ := hl n a ha
  obtain ⟨e, he, halias, hkey⟩ := hstands.source
  obtain ⟨f, hf, hname, hnot⟩ := hstands.target
  obtain ⟨written, name, hwritten, hparse, hnorm⟩ := Entry.targetKey?_eq_some.1 hkey
  refine ⟨⟨e, written, name, he, halias, hwritten, hparse, hnorm⟩,
    fun d' m hm => hl.unique ha ((htuple d' m).1 hm),
    t, f, hf, hname, ?_, hnot, fun hway => hstands.outside hway.to_reflTransGen⟩
  rintro rfl
  exact hstands.outside .refl

end Partition

/-! ### A history -/

namespace Sample

theorem parsed_of_parse (s : String) {d : Dn} (h : (Dn.parse s).toOption = some d) : d.Parsed :=
  ⟨s, Except.toOption_eq_some.1 h⟩

theorem suffix_parsed : suffix.Parsed := parsed_of_parse "dc=example,dc=com" (by decide +kernel)

theorem unitA_parsed : (unit "A").Parsed :=
  parsed_of_parse "ou=A,dc=example,dc=com" (by decide +kernel)

theorem unitB_parsed : (unit "B").Parsed :=
  parsed_of_parse "ou=B,dc=example,dc=com" (by decide +kernel)

theorem link_parsed : link.name.Parsed :=
  parsed_of_parse "cn=Link,ou=A,dc=example,dc=com" (by decide +kernel)

theorem linkWrites_parsed : ∀ w ∈ linkWrites, w.Parsed := by
  simp only [linkWrites, List.forall_mem_cons]
  exact ⟨suffix_parsed, unitA_parsed, unitB_parsed, link_parsed, fun _ h => nomatch h⟩

theorem linkWrites_reachedBy : (after linkWrites).ReachedBy .standard linkWrites :=
  after_reachedBy linkWrites (by decide)

end Sample

/-- The alias stands for the second unit. -/
theorem Partition.alias_tuples_sample :
    ("ou=b,dc=example,dc=com", 4) ∈
      (Sample.after Sample.linkWrites).system.aliasTarget.tables.tuples .forward ∧
    ∃ t f, (Sample.after Sample.linkWrites).get? t = some f ∧
      f.name.normalized = "ou=b,dc=example,dc=com" ∧ t ≠ 4 := by
  have hmem : ("ou=b,dc=example,dc=com", 4) ∈
      (Sample.after Sample.linkWrites).system.aliasTarget.tables.tuples .forward := by
    decide +kernel
  obtain ⟨_, _, t, f, hf, hname, hne, _⟩ :=
    ReachedBy.alias_tuples Sample.linkWrites_reachedBy Sample.linkWrites_parsed hmem
  exact ⟨hmem, t, f, hf, hname, hne⟩

/-! ## Aliases without a tuple -/

/-- The write moves or renames entries and makes this one an alias, which it was not. -/
def Write.MakesAlias (p : Partition) (w : Write) (i : EntryId) : Prop :=
  w.relocation?.isSome = true ∧ ¬p.IsAlias i ∧ (w.after p).IsAlias i

namespace Partition

variable {p p' : Partition} {c : Config} {ws : List Write} {w : Write} {i : EntryId} {e : Entry}

/-- Some write of the history has moved or renamed entries and made this one an alias. -/
def MadeAlias (c : Config) (ws : List Write) (i : EntryId) : Prop :=
  ∃ ws₁ w p, ws₁ ++ [w] <+: ws ∧ p.ReachedBy c ws₁ ∧ w.MakesAlias p i

theorem madeAlias_concat (h : p.ReachedBy c ws) :
    MadeAlias c (ws ++ [w]) i ↔ MadeAlias c ws i ∨ w.MakesAlias p i := by
  constructor
  · rintro ⟨ws₁, w', q, hinit, hq, hmakes⟩
    rcases List.prefix_concat_iff.1 hinit with heq | hinit
    · obtain ⟨rfl, hw⟩ := List.append_inj' heq rfl
      cases hw
      exact .inr (h.unique hq ▸ hmakes)
    · exact .inl ⟨ws₁, w', q, hinit, hq, hmakes⟩
  · rintro (⟨ws₁, w', q, hinit, hq, hmakes⟩ | hmakes)
    · exact ⟨ws₁, w', q, hinit.trans (List.prefix_append ..), hq, hmakes⟩
    · exact ⟨ws, w, p, List.prefix_rfl, h, hmakes⟩

/-- An alias has no tuple after a write if it had none before, or if the write has made it an alias
by moving or renaming. -/
theorem Relinked.unindexed_iff {dropped added : List AliasLink}
    (h : p.Relinked w dropped added (w.after p)) (hl : p.Linked) :
    ((w.after p).IsAlias i ∧ ∀ n, ¬(w.after p).AliasOf n i) ↔
      (p.IsAlias i ∧ ∀ n, ¬p.AliasOf n i) ∨ w.MakesAlias p i := by
  constructor
  · rintro ⟨halias, hnone⟩
    rcases h.aliases i halias with ⟨l, hl', hsource⟩ | ⟨hkept, hwas⟩
    · exact absurd ((h.aliasOf_iff hl).2 (.inl ⟨l, hl', hsource.symm, rfl⟩)) (hnone _)
    · by_cases hold : p.IsAlias i
      · exact .inl ⟨hold, fun n hn => hnone n ((h.aliasOf_iff hl).2 (.inr ⟨hn, hkept⟩))⟩
      · exact .inr ⟨hwas.resolve_left hold, hold, halias⟩
  · rintro (⟨halias, hnone⟩ | ⟨hmoves, hold, halias⟩)
    · obtain ⟨halias', hadded⟩ := h.stranded i halias hnone
      refine ⟨halias', fun n hn => ?_⟩
      rcases (h.aliasOf_iff hl).1 hn with ⟨l, hl', hsource, _⟩ | ⟨hn, _⟩
      · exact hadded l hl' hsource.symm
      · exact hnone n hn
    · refine ⟨halias, fun n hn => hold ?_⟩
      rcases (h.aliasOf_iff hl).1 hn with ⟨l, hl', rfl, _⟩ | ⟨hn, _⟩
      · exact h.renewed hmoves l hl'
      · obtain ⟨t, hstands⟩ := hl n i hn
        obtain ⟨e, he, hisAlias, _⟩ := hstands.source
        exact ⟨e, he, hisAlias⟩

/-- After every history the aliases without a tuple are those that a move or a renaming has made
aliases. -/
theorem ReachedBy.unindexed_iff (h : p.ReachedBy c ws) (hws : ∀ w ∈ ws, w.Parsed) (i : EntryId) :
    (p.IsAlias i ∧ ∀ n, ¬p.AliasOf n i) ↔ MadeAlias c ws i := by
  refine h.along_relinked
    (I := fun ws p => (p.IsAlias i ∧ ∀ n, ¬p.AliasOf n i) ↔ MadeAlias c ws i) hws
    (fun p₀ hp₀ => iff_of_false ?_ ?_) fun ws₁ w q _ _ _ _ hq _ _ hl hrelinked hiff => ?_
  · rintro ⟨⟨e, he, _⟩, _⟩
    rw [get?, (ofConfig_empty hp₀).1] at he
    cases he
  · rintro ⟨ws₁, w, q, hinit, _⟩
    exact List.append_ne_nil_of_right_ne_nil ws₁ (List.cons_ne_nil w []) (List.prefix_nil.1 hinit)
  · rw [hrelinked.unindexed_iff hl, hiff, madeAlias_concat hq]

/-- After every history whose names have been read, an alias has exactly one tuple in the index of
aliases, that of its target, unless a move or a renaming has made it an alias. In that case it has
none. -/
theorem ReachedBy.alias_indexed_iff (h : p.ReachedBy c ws) (hws : ∀ w ∈ ws, w.Parsed)
    (he : p.get? i = some e) (halias : e.isAlias = true) :
    (∃ n, e.targetKey? = some n ∧
      ∀ d m, (m, i) ∈ p.system.aliasTarget.tables.tuples d ↔ m = n) ↔ ¬MadeAlias c ws i := by
  obtain ⟨_, _, hordered⟩ := h.ordered hws
  have hl := h.linked hws
  have htuple : ∀ d m, (m, i) ∈ p.system.aliasTarget.tables.tuples d ↔ p.AliasOf m i := fun _ _ =>
    Index.mem_tuples (hordered.valued.sound.names .aliasTarget)
  rw [← h.unindexed_iff hws i]
  simp only [htuple, forall_const]
  constructor
  · rintro ⟨n, _, hn⟩ ⟨_, hnone⟩
    exact hnone n ((hn n).2 rfl)
  · intro hindexed
    have hex : ∃ n, p.AliasOf n i := Classical.byContradiction fun hnot =>
      hindexed ⟨⟨e, he, halias⟩, fun n hn => hnot ⟨n, hn⟩⟩
    obtain ⟨n, hn⟩ := hex
    exact ⟨n, (hl.key hn he).2, fun m => ⟨fun hm => hl.unique hn hm, fun hm => hm ▸ hn⟩⟩

end Partition

end Directory
